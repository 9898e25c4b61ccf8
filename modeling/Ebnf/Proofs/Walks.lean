import Ebnf.Proofs.Linked
import Mathlib.Data.Fintype.EquivFin
import Mathlib.Data.Fintype.Sets
import Mathlib.Data.Finset.Card
import Mathlib.Logic.Relation
import Mathlib.Order.WellFounded

/-! Walks over the graph of a grammar. A walk goes down to children, and from a reference to the
node of its rule. Going down to children ends, so a walk that never ends would lead some rule back
to itself by its references. Where that cannot be, every node has a rank: the number of nodes that
can still be walked to. -/

namespace Ebnf

theorem wellFounded_of_irrefl {α : Type} [Finite α] {r : α → α → Prop}
    (h : ∀ a, ¬Relation.TransGen r a a) : WellFounded fun b a => r a b := by
  let below : α → α → Prop := fun b a => Relation.TransGen r a b
  have htrans : IsTrans α below := ⟨fun _ _ _ h₁ h₂ => h₂.trans h₁⟩
  have hirrefl : Std.Irrefl below := ⟨h⟩
  have hwf : WellFounded below := Finite.wellFounded_of_trans_of_irrefl below
  exact Subrelation.wf (fun hr => Relation.TransGen.single hr) hwf

namespace Grammar

variable {g : Grammar} {child step : NodeId → NodeId → Prop}

def Refers (g : Grammar) (child : NodeId → NodeId → Prop) (rule rule' : String) : Prop :=
  ∃ root id target, g.rules.lookup rule = some root ∧ Relation.ReflTransGen child root id ∧
    (g.graph.node id).kind = .reference rule' target

/-- Every step goes down to a child or from a reference to the node of its rule. -/
structure IsWalk (g : Grammar) (child step : NodeId → NodeId → Prop) : Prop where
  down {id c : NodeId} : child id c → c ∈ (g.graph.node id).kind.children
  step {id c : NodeId} : step id c → child id c ∨ ∃ rule target,
    (g.graph.node id).kind = .reference rule target ∧ g.rules.lookup rule = some c

/-- From a node down to a child, or from a reference to the node of its rule. -/
inductive Leads (g : Grammar) : NodeId → NodeId → Prop
  | child {id c : NodeId} : c ∈ (g.graph.node id).kind.children → Leads g id c
  | reference {id target : NodeId} {rule : String} {link : Option NodeId} :
      (g.graph.node id).kind = .reference rule link → g.rules.lookup rule = some target →
      Leads g id target

def Reachable (g : Grammar) : NodeId → NodeId → Prop := Relation.ReflTransGen g.Leads

theorem isWalk_leads : g.IsWalk (fun id c => c ∈ (g.graph.node id).kind.children) g.Leads where
  down h := h
  step h := by
    cases h with
    | child hc => exact .inl hc
    | reference hk hroot => exact .inr ⟨_, _, hk, hroot⟩

abbrev Named (g : Grammar) := { rule : String // rule ∈ g.ruleNames }

theorem mem_ruleNames {rule : String} {id : NodeId} (h : g.rules.lookup rule = some id) :
    rule ∈ g.ruleNames := by
  obtain ⟨before, after, heq, -⟩ := List.lookup_eq_some_iff.1 h
  simp [ruleNames, heq]

theorem exists_lookup {rule : String} (h : rule ∈ g.ruleNames) :
    ∃ root, g.rules.lookup rule = some root := by
  cases hroot : g.rules.lookup rule with
  | some root => exact ⟨root, rfl⟩
  | none =>
    obtain ⟨p, hp, rfl⟩ := List.mem_map.1 h
    have hne := List.lookup_eq_none_iff.1 hroot p hp
    simp at hne

theorem wellFounded_refers (h : ∀ rule, ¬Relation.TransGen (g.Refers child) rule rule) :
    WellFounded fun r' r : g.Named => g.Refers child r.1 r'.1 :=
  wellFounded_of_irrefl fun r hcycle => h r.1 (hcycle.lift Subtype.val fun _ _ hrefers => hrefers)

theorem acc_of_irrefl {P : NodeId → Prop} (hin : ∀ id : Nat, P id → id < g.graph.size)
    (hclosed : ∀ id c, P id → step id c → P c)
    (hirrefl : ∀ id, P id → ¬Relation.TransGen step id id) {id : NodeId} (hid : P id) :
    Acc (fun b a => step a b) id := by
  have hfinite : Finite { id : NodeId // P id } :=
    Finite.of_injective (fun x => (⟨x.1, hin x.1 x.2⟩ : Fin g.graph.size)) fun x y heq =>
      Subtype.ext (congrArg Fin.val heq)
  have hwf : WellFounded fun b a : { id : NodeId // P id } => step a.1 b.1 :=
    wellFounded_of_irrefl fun x hcycle =>
      hirrefl x.1 x.2 (hcycle.lift Subtype.val fun _ _ hstep => hstep)
  have hall : ∀ x : { id : NodeId // P id }, Acc (fun b a => step a b) x.1 := by
    intro x
    induction x using hwf.induction with
    | _ x ih => exact ⟨_, fun c hc => ih ⟨c, hclosed x.1 c x.2 hc⟩ hc⟩
  exact hall ⟨id, hid⟩

namespace IsWalk

theorem inside_of_path (hg : g.IsLinked) (h : g.IsWalk child step) {root id : Nat}
    (hpath : Relation.ReflTransGen child root id) (hroot : root < g.graph.size) :
    id < g.graph.size := by
  induction hpath with
  | refl => exact hroot
  | tail _ hlast _ => exact (hg.child (h.down hlast)).2

theorem inside (hg : g.IsLinked) (h : g.IsWalk child step) {id c : Nat} (hstep : step id c) :
    c < g.graph.size := by
  rcases h.step hstep with hchild | ⟨rule, target, -, hroot⟩
  · exact (hg.child (h.down hchild)).2
  · exact (hg.root hroot).1

theorem leads (h : g.IsWalk child step) {id c : NodeId} (hstep : step id c) : g.Leads id c := by
  rcases h.step hstep with hchild | ⟨rule, target, hk, hroot⟩
  · exact .child (h.down hchild)
  · exact .reference hk hroot

theorem exists_root (hg : g.IsLinked) (h : g.IsWalk child step) {rule rule' : String}
    (href : g.Refers child rule rule') : ∃ root, g.rules.lookup rule' = some root := by
  obtain ⟨root, id, target, hroot, hpath, hk⟩ := href
  have hid := h.inside_of_path hg hpath (hg.root hroot).1
  obtain ⟨root', -, hroot'⟩ := hg.reference hid hk
  exact ⟨root', hroot'⟩

theorem acc_of_references (hg : g.IsLinked) (h : g.IsWalk child step) {start : Nat}
    (href : ∀ id rule target root, Relation.ReflTransGen child start id →
      (g.graph.node id).kind = .reference rule target → g.rules.lookup rule = some root →
      step id root → Acc (fun b a => step a b) root) : Acc (fun b a => step a b) start := by
  have hall : ∀ id, Relation.ReflTransGen child start id → Acc (fun b a => step a b) id := by
    intro id
    induction id using hg.down.induction with
    | _ id ih =>
      intro hpath
      refine ⟨_, fun c hc => ?_⟩
      rcases h.step hc with hchild | ⟨rule, target, hk, hroot⟩
      · exact ih c (h.down hchild) (hpath.tail hchild)
      · exact href id rule target c hpath hk hroot hc
  exact hall start .refl

theorem acc_of_root (hg : g.IsLinked) (h : g.IsWalk child step)
    (hacyclic : ∀ rule, ¬Relation.TransGen (g.Refers child) rule rule) {rule : String}
    {root : NodeId} (hroot : g.rules.lookup rule = some root) :
    Acc (fun b a => step a b) root := by
  have hall : ∀ r : g.Named, ∀ root, g.rules.lookup r.1 = some root →
      Acc (fun b a => step a b) root := by
    intro r
    induction r using (wellFounded_refers hacyclic).induction with
    | _ r ih =>
      intro root hroot
      refine h.acc_of_references hg fun id rule' target root' hpath hk hroot' _ => ?_
      exact ih ⟨rule', mem_ruleNames hroot'⟩ ⟨root, id, target, hroot, hpath, hk⟩ root' hroot'
  exact hall ⟨rule, mem_ruleNames hroot⟩ root hroot

theorem wellFounded (hg : g.IsLinked) (h : g.IsWalk child step)
    (hacyclic : ∀ rule, ¬Relation.TransGen (g.Refers child) rule rule) :
    WellFounded fun b a => step a b :=
  ⟨fun _ => h.acc_of_references hg fun _ _ _ _ _ _ hroot _ => h.acc_of_root hg hacyclic hroot⟩

end IsWalk

open scoped Classical in
noncomputable def within (g : Grammar) (step : NodeId → NodeId → Prop) (id : NodeId) :
    Finset NodeId :=
  (Finset.range g.graph.size).filter (Relation.ReflTransGen step id)

noncomputable def rank (g : Grammar) (step : NodeId → NodeId → Prop) (id : NodeId) : Nat :=
  (g.within step id).card

theorem mem_within {id x : NodeId} : x ∈ g.within step id ↔
    x < g.graph.size ∧ Relation.ReflTransGen step id x := by
  classical
  rw [within, Finset.mem_filter, Finset.mem_range]

theorem rank_le (id : NodeId) : g.rank step id ≤ g.graph.size := by
  classical
  calc g.rank step id ≤ (Finset.range g.graph.size).card :=
        Finset.card_le_card (Finset.filter_subset _ _)
    _ = g.graph.size := Finset.card_range _

theorem rank_pos {id : NodeId} (hid : id < g.graph.size) : 0 < g.rank step id :=
  Finset.card_pos.2 ⟨id, mem_within.2 ⟨hid, .refl⟩⟩

theorem rank_lt (hwf : WellFounded fun b a => step a b) {id c : NodeId} (hid : id < g.graph.size)
    (h : step id c) : g.rank step c < g.rank step id := by
  refine Finset.card_lt_card (Finset.ssubset_iff_subset_ne.2 ⟨fun x hx => ?_, fun heq => ?_⟩)
  · obtain ⟨hlt, hpath⟩ := mem_within.1 hx
    exact mem_within.2 ⟨hlt, .head h hpath⟩
  · -- the node itself cannot be walked to from `c`
    have hself : id ∈ g.within step c := heq ▸ mem_within.2 ⟨hid, .refl⟩
    have hloop : Relation.TransGen step id id := .head' h (mem_within.1 hself).2
    exact hwf.transGen.irrefl.irrefl id (Relation.transGen_swap.2 hloop)

end Grammar

end Ebnf
