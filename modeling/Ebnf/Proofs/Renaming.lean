import Ebnf.Proofs.Exactness
import Mathlib.Data.Option.Basic

/-! Grammars with the same rules under other numbers. The kinds of nodes that stand for each other
agree but for numbers, and their children stand for each other, too. So what hangs on the references
alone agrees as well: which rules are finite and which options are escapes. -/

namespace Ebnf

section Rel

variable {α β γ δ : Type} {R : α → β → Prop} {S : γ → δ → Prop}

theorem rel_getElem? {as : List α} {bs : List β} (h : List.Forall₂ R as bs) (i : Nat) :
    Option.Rel R as[i]? bs[i]? := by
  induction h generalizing i with
  | nil => exact .none
  | cons hfirst _ ih =>
    cases i with
    | zero => exact .some hfirst
    | succ i => exact ih i

theorem exists_of_rel_some {a : α} {y : Option β} (h : Option.Rel R (some a) y) :
    ∃ b, y = some b ∧ R a b := by
  cases h with
  | some h => exact ⟨_, rfl, h⟩

theorem exists_mem_of_forall₂ {as : List α} {bs : List β} (h : List.Forall₂ R as bs) {a : α}
    (ha : a ∈ as) : ∃ b ∈ bs, R a b := by
  obtain ⟨i, hi⟩ := List.getElem?_of_mem ha
  have hrel := rel_getElem? h i
  rw [hi] at hrel
  obtain ⟨b, hb, hr⟩ := exists_of_rel_some hrel
  exact ⟨b, List.mem_of_getElem? hb, hr⟩

theorem rel_bind {x : Option α} {y : Option β} {f : α → Option γ} {f' : β → Option δ}
    (h : Option.Rel R x y) (hf : ∀ a b, R a b → Option.Rel S (f a) (f' b)) :
    Option.Rel S (x.bind f) (y.bind f') := by
  cases h with
  | none => exact .none
  | some hr => exact hf _ _ hr

theorem bind_eq_of_rel {x : Option α} {y : Option β} {f : α → Option γ} {f' : β → Option γ}
    (h : Option.Rel R x y) (hf : ∀ a b, R a b → f a = f' b) : x.bind f = y.bind f' := by
  cases h with
  | none => rfl
  | some hr => exact hf _ _ hr

theorem map_eq_of_rel {x : Option α} {y : Option β} {f : α → γ} {f' : β → γ}
    (h : Option.Rel R x y) (hf : ∀ a b, x = some a → y = some b → R a b → f a = f' b) :
    x.map f = y.map f' := by
  cases h with
  | none => rfl
  | some hr => exact congrArg some (hf _ _ rfl rfl hr)

theorem rel_swap {x : Option α} {y : Option β} (h : Option.Rel R x y) :
    Option.Rel (flip R) y x := by
  cases h with
  | none => exact .none
  | some hr => exact .some hr

end Rel

namespace NodeKind

variable {k l : NodeKind}

theorem exists_reference_of_unnumbered_eq {name : String} {target : Option NodeId}
    (h : k.unnumbered = l.unnumbered) (hk : k = .reference name target) :
    ∃ target', l = .reference name target' := by
  subst hk
  cases l with
  | reference name' target' =>
    obtain ⟨rfl, -⟩ := reference.inj h
    exact ⟨target', rfl⟩
  | _ => cases h

theorem exists_choice_of_unnumbered_eq {options : List NodeId} {weights escapes : Distribution}
    (h : k.unnumbered = l.unnumbered) (hk : k = .choice options weights escapes) :
    ∃ options' weights' escapes', l = .choice options' weights' escapes' := by
  subst hk
  cases l with
  | choice options' weights' escapes' => exact ⟨options', weights', escapes', rfl⟩
  | _ => cases h

theorem forall₂_written {R : NodeId → NodeId → Prop} (h : k.unnumbered = l.unnumbered)
    (hchildren : List.Forall₂ R k.children l.children) : List.Forall₂ R k.written l.written := by
  cases k <;> cases l <;> first | exact hchildren | exact .nil | cases h

def escapes? : NodeKind → Option Distribution
  | choice _ _ escapes => some escapes
  | _ => none

theorem escapes?_eq_none (h : ∀ options weights escapes, k ≠ choice options weights escapes) :
    k.escapes? = none := by
  cases k with
  | choice options weights escapes => exact absurd rfl (h options weights escapes)
  | _ => rfl

end NodeKind

/-- The node that is come to by going down to a child time and again. -/
def Graph.descend (g : Graph) (id : NodeId) : List Nat → Option NodeId
  | [] => some id
  | i :: path => (g.node id).kind.children[i]?.bind fun c => g.descend c path

theorem Graph.exists_descend {g : Graph} {root id : NodeId}
    (h : Relation.ReflTransGen g.HasChild root id) : ∃ path, g.descend root path = some id := by
  induction h using Relation.ReflTransGen.head_induction_on with
  | refl => exact ⟨[], rfl⟩
  | head hc _ ih =>
    obtain ⟨path, hpath⟩ := ih
    obtain ⟨i, hi⟩ := List.getElem?_of_mem hc
    exact ⟨i :: path, by rw [descend, hi, Option.bind_some, hpath]⟩

namespace Grammar

/-- The node at a place of a rule. -/
def nodeAt (g : Grammar) (rule : String) (path : List Nat) : Option NodeId :=
  (g.rules.lookup rule).bind fun root => g.graph.descend root path

/-- The escapes of the alternative at a place of a rule. -/
def escapesAt (g : Grammar) (rule : String) (path : List Nat) : Option Distribution :=
  (g.nodeAt rule path).bind fun id => (g.graph.node id).kind.escapes?

structure IsRenaming (g g' : Grammar) (R : NodeId → NodeId → Prop) : Prop where
  root (rule : String) : Option.Rel R (g.rules.lookup rule) (g'.rules.lookup rule)
  kind {id id' : NodeId} : R id id' →
    (g.graph.node id).kind.unnumbered = (g'.graph.node id').kind.unnumbered
  children {id id' : NodeId} : R id id' →
    List.Forall₂ R (g.graph.node id).kind.children (g'.graph.node id').kind.children

namespace IsRenaming

variable {g g' : Grammar} {R : NodeId → NodeId → Prop}

theorem symm (h : g.IsRenaming g' R) : g'.IsRenaming g (flip R) where
  root rule := rel_swap (h.root rule)
  kind hr := (h.kind hr).symm
  children hr := (h.children hr).flip

theorem exists_path (h : g.IsRenaming g' R) {id id' x : NodeId} (hr : R id id')
    (hpath : Relation.ReflTransGen g.graph.Writes id x) :
    ∃ x', Relation.ReflTransGen g'.graph.Writes id' x' ∧ R x x' := by
  induction hpath with
  | refl => exact ⟨id', .refl, hr⟩
  | tail _ hlast ih =>
    obtain ⟨y', hpath', hy⟩ := ih
    have hwritten := NodeKind.forall₂_written (h.kind hy) (h.children hy)
    obtain ⟨c', hc', hc⟩ := exists_mem_of_forall₂ hwritten hlast
    exact ⟨c', hpath'.tail hc', hc⟩

theorem refers (h : g.IsRenaming g' R) {rule rule' : String}
    (href : g.Refers g.graph.Writes rule rule') : g'.Refers g'.graph.Writes rule rule' := by
  obtain ⟨root, id, target, hroot, hpath, hk⟩ := href
  obtain ⟨root', hroot', hr⟩ := exists_of_rel_some (hroot ▸ h.root rule)
  obtain ⟨id', hpath', hid⟩ := h.exists_path hr hpath
  obtain ⟨target', hk'⟩ := NodeKind.exists_reference_of_unnumbered_eq (h.kind hid) hk
  exact ⟨root', id', target', hroot', hpath', hk'⟩

theorem isFiniteRule_iff (h : g.IsRenaming g' R) (rule : String) :
    g.IsFiniteRule rule ↔ g'.IsFiniteRule rule := by
  have hsame : g.Refers g.graph.Writes = g'.Refers g'.graph.Writes := by
    funext rule rule'
    exact propext ⟨h.refers, h.symm.refers⟩
  unfold IsFiniteRule
  rw [hsame]

theorem recurses (h : g.IsRenaming g' R) {o o' : NodeId} (hr : R o o') (ho : g.Recurses o) :
    g'.Recurses o' := by
  obtain ⟨x, rule, target, hpath, hk, hinfinite⟩ := ho
  obtain ⟨x', hpath', hx⟩ := h.exists_path hr hpath
  obtain ⟨target', hk'⟩ := NodeKind.exists_reference_of_unnumbered_eq (h.kind hx) hk
  refine ⟨x', rule, target', hpath', hk', fun hfinite => hinfinite ?_⟩
  exact (h.isFiniteRule_iff rule).2 hfinite

theorem isFinite_eq (h : g.IsRenaming g' R) (hg : g.IsPrepared) (hg' : g'.IsPrepared)
    (rule : String) : (g.rules.lookup rule).map g.graph.isFinite =
      (g'.rules.lookup rule).map g'.graph.isFinite := by
  refine map_eq_of_rel (h.root rule) fun root root' hroot hroot' _ => Bool.eq_iff_iff.2 ?_
  calc g.graph.isFinite root = true ↔ g.IsFiniteRule rule := hg.isFinite_iff hroot
    _ ↔ g'.IsFiniteRule rule := h.isFiniteRule_iff rule
    _ ↔ g'.graph.isFinite root' = true := (hg'.isFinite_iff hroot').symm

theorem isPotentiallyRecursive_eq (h : g.IsRenaming g' R) (hg : g.IsPrepared) (hg' : g'.IsPrepared)
    {o o' : Nat} (ho : o < g.graph.size) (ho' : o' < g'.graph.size) (hr : R o o') :
    g.graph.isPotentiallyRecursive o = g'.graph.isPotentiallyRecursive o' := by
  refine Bool.eq_iff_iff.2 ?_
  calc g.graph.isPotentiallyRecursive o = true ↔ g.Recurses o := hg.isPotentiallyRecursive_iff ho
    _ ↔ g'.Recurses o' := ⟨h.recurses hr, h.symm.recurses hr⟩
    _ ↔ g'.graph.isPotentiallyRecursive o' = true := (hg'.isPotentiallyRecursive_iff ho').symm

theorem escapes_eq (h : g.IsRenaming g' R) (hg : g.IsPrepared) (hg' : g'.IsPrepared)
    {id id' : NodeId} (hr : R id id') :
    (g.graph.node id).kind.escapes? = (g'.graph.node id').kind.escapes? := by
  by_cases hchoice : ∃ options weights escapes,
      (g.graph.node id).kind = .choice options weights escapes
  · obtain ⟨options, weights, escapes, hk⟩ := hchoice
    obtain ⟨options', weights', escapes', hk'⟩ :=
      NodeKind.exists_choice_of_unnumbered_eq (h.kind hr) hk
    have hoptions := h.children hr
    have hinside : ∀ o ∈ (g.graph.node id).kind.children, o < g.graph.size :=
      fun _ ho => (hg.linked.child ho).2
    have hinside' : ∀ o ∈ (g'.graph.node id').kind.children, o < g'.graph.size :=
      fun _ ho => (hg'.linked.child ho).2
    rw [hk] at hoptions hinside
    rw [hk'] at hoptions hinside'
    have hmarks : options.map (fun o => !g.graph.isPotentiallyRecursive o) =
        options'.map fun o => !g'.graph.isPotentiallyRecursive o := by
      refine List.ext_getElem? fun i => ?_
      rw [List.getElem?_map, List.getElem?_map]
      refine map_eq_of_rel (rel_getElem? hoptions i) fun o o' ho ho' hr => congrArg not ?_
      exact h.isPotentiallyRecursive_eq hg hg' (hinside o (List.mem_of_getElem? ho))
        (hinside' o' (List.mem_of_getElem? ho')) hr
    rw [hk, hk', hg.escapes hk, hg'.escapes hk', hmarks]
    rfl
  · have hother : ∀ options weights escapes,
        (g'.graph.node id').kind ≠ .choice options weights escapes :=
      fun options weights escapes hk' =>
        hchoice (NodeKind.exists_choice_of_unnumbered_eq (h.kind hr).symm hk')
    rw [NodeKind.escapes?_eq_none fun o w e hk => hchoice ⟨o, w, e, hk⟩,
      NodeKind.escapes?_eq_none hother]

theorem rel_descend (h : g.IsRenaming g' R) (path : List Nat) {id id' : NodeId} (hr : R id id') :
    Option.Rel R (g.graph.descend id path) (g'.graph.descend id' path) := by
  induction path generalizing id id' with
  | nil => exact .some hr
  | cons i path ih =>
    exact rel_bind (rel_getElem? (h.children hr) i) fun c c' hc => ih hc

theorem rel_nodeAt (h : g.IsRenaming g' R) (rule : String) (path : List Nat) :
    Option.Rel R (g.nodeAt rule path) (g'.nodeAt rule path) :=
  rel_bind (h.root rule) fun _ _ hr => h.rel_descend path hr

theorem escapesAt_eq (h : g.IsRenaming g' R) (hg : g.IsPrepared) (hg' : g'.IsPrepared) :
    g.escapesAt = g'.escapesAt := by
  funext rule path
  exact bind_eq_of_rel (h.rel_nodeAt rule path) fun _ _ hr => h.escapes_eq hg hg' hr

end IsRenaming

end Grammar

end Ebnf
