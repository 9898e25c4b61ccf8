import Ebnf.Proofs.LaidOut
import Mathlib.Data.List.Forall2
import Mathlib.Logic.Relation

/-! The graph of a grammar shows the trees of its rules: below the node of a rule stand the nodes of
its items, in order and each with its kind, its tag and its own parts. -/

namespace Ebnf

namespace NodeKind

/-- A kind without the numbers in it, and without what is worked out from them. -/
def unnumbered : NodeKind → NodeKind
  | reference name _ => reference name none
  | group _ => group []
  | choice _ _ _ => choice [] (.uniform 0) (.uniform 0)
  | rule name _ => rule name []
  | lookAhead positive _ => lookAhead positive none
  | kind => kind

@[simp] theorem isChoice_unnumbered (k : NodeKind) : k.unnumbered.isChoice = k.isChoice := by
  cases k <;> rfl

end NodeKind

def Tree.sort : Tree → NodeKind
  | leaf l _ => l.kind fun _ => none
  | group _ _ => .group []
  | choice _ _ => .choice [] (.uniform 0) (.uniform 0)
  | lookAhead positive _ _ => .lookAhead positive none

def Node.IsTagged (n : Node) (tag : Tag) : Prop :=
  n.position = tag.position ∧ n.repetition = tag.repetition ∧ n.label = tag.label

/-- The second node is among the children of the first one. -/
def Graph.HasChild (g : Graph) (id c : NodeId) : Prop := c ∈ (g.node id).kind.children

namespace Grammar

mutual

def Shows (g : Grammar) : Tree → NodeId → Prop
  | .leaf l tag, id => (g.graph.node id).kind = l.kind (fun rule => g.rules.lookup rule) ∧
      (g.graph.node id).IsTagged tag
  | .group items tag, id => ∃ ids, (g.graph.node id).kind = .group ids ∧
      (g.graph.node id).IsTagged tag ∧ ShowsAll g items ids
  | .choice options position, id => ∃ ids weights escapes,
      (g.graph.node id).kind = .choice ids weights escapes ∧
        (g.graph.node id).IsTagged (.bare position) ∧ ShowsAll g options ids
  | .lookAhead positive operand position, id => ∃ o,
      (g.graph.node id).kind = .lookAhead positive (some o) ∧
        (g.graph.node id).IsTagged (.bare position) ∧ Shows g operand o

def ShowsAll (g : Grammar) : List Tree → List NodeId → Prop
  | [], ids => ids = []
  | t :: ts, ids => ∃ id rest, ids = id :: rest ∧ Shows g t id ∧ ShowsAll g ts rest

end

def ShowsRule (g : Grammar) (entry : String × NodeId) (r : RuleTree) : Prop :=
  entry.1 = r.name ∧ ∃ ids, (g.graph.node entry.2).kind = .rule r.name ids ∧
    (g.graph.node entry.2).IsTagged ⟨r.position, .once, some r.name⟩ ∧ g.ShowsAll r.items ids

theorem Shows.unnumbered_eq {g : Grammar} {t : Tree} {id : NodeId} (h : g.Shows t id) :
    (g.graph.node id).kind.unnumbered = t.sort := by
  cases t with
  | leaf l =>
    rw [h.1]
    cases l <;> rfl
  | group =>
    obtain ⟨ids, hk, -⟩ := h
    rw [hk]
    rfl
  | choice =>
    obtain ⟨ids, weights, escapes, hk, -⟩ := h
    rw [hk]
    rfl
  | lookAhead =>
    obtain ⟨o, hk, -⟩ := h
    rw [hk]
    rfl

theorem ShowsAll.forall₂ {g : Grammar} {ts : List Tree} {ids : List NodeId}
    (h : g.ShowsAll ts ids) : List.Forall₂ g.Shows ts ids := by
  induction ts generalizing ids with
  | nil =>
    obtain rfl := h
    exact .nil
  | cons t ts ih =>
    obtain ⟨id, rest, rfl, hfirst, hrest⟩ := h
    exact .cons hfirst (ih hrest)

theorem ShowsRule.children {g : Grammar} {entry : String × NodeId} {r : RuleTree}
    (h : g.ShowsRule entry r) :
    List.Forall₂ g.Shows r.items (g.graph.node entry.2).kind.children := by
  obtain ⟨-, ids, hk, -, hitems⟩ := h
  rw [hk]
  exact hitems.forall₂

theorem Shows.children {g : Grammar} {t : Tree} {id : NodeId} (h : g.Shows t id) :
    List.Forall₂ g.Shows t.parts (g.graph.node id).kind.children := by
  cases t with
  | leaf l tag =>
    rw [h.1]
    cases l <;> exact .nil
  | group =>
    obtain ⟨ids, hk, -, hitems⟩ := h
    rw [hk]
    exact hitems.forall₂
  | choice =>
    obtain ⟨ids, weights, escapes, hk, -, hoptions⟩ := h
    rw [hk]
    exact hoptions.forall₂
  | lookAhead =>
    obtain ⟨o, hk, -, hoperand⟩ := h
    rw [hk]
    exact .cons hoperand .nil

theorem Shows.exists_part {g : Grammar} {t : Tree} {id c : NodeId} {i : Nat} (h : g.Shows t id)
    (hc : (g.graph.node id).kind.children[i]? = some c) :
    ∃ p, t.parts[i]? = some p ∧ g.Shows p c := by
  have hparts := List.forall₂_iff_get.1 h.children
  obtain ⟨hi, rfl⟩ := List.getElem?_eq_some_iff.1 hc
  exact ⟨_, List.getElem?_eq_getElem (hparts.1 ▸ hi), hparts.2 i _ hi⟩

def Carries (g : Grammar) (start : Nat) (nodes : List Node) : Prop :=
  ∀ j n, nodes[j]? = some n → (g.graph.node (start + j)).Alike n

variable {g : Grammar} {start : Nat}

theorem Carries.append {as bs : List Node} (h : g.Carries start (as ++ bs)) :
    g.Carries start as ∧ g.Carries (start + as.length) bs := by
  constructor
  · intro j n hj
    have hlt := (List.getElem?_eq_some_iff.1 hj).1
    exact h j n (by rw [List.getElem?_append_left hlt, hj])
  · intro j n hj
    rw [Nat.add_assoc]
    refine h _ n ?_
    rw [List.getElem?_append_right (Nat.le_add_right ..), Nat.add_sub_cancel_left, hj]

theorem Carries.cons {n : Node} {ns : List Node} (h : g.Carries start (n :: ns)) :
    (g.graph.node start).Alike n ∧ g.Carries (start + 1) ns := by
  refine ⟨h 0 n rfl, fun j m hj => ?_⟩
  rw [Nat.add_assoc, Nat.add_comm 1 j]
  exact h (j + 1) m hj

section

variable {targets : String → Option NodeId} {parent : Option NodeId} {first next p : Nat}
  {t : Tree} {ts : List Tree}

theorem Carries.parts (h : g.Carries first (t.layout targets parent first)) :
    g.Carries first (Tree.layoutAll targets (t.top first) first t.lead) ∧
      (g.graph.node (t.top first)).Alike (t.head targets parent first) ∧
        g.Carries (t.top first + 1)
          (Tree.layoutAll targets (t.top first) (t.top first + 1) t.rest) := by
  rw [Tree.layout_eq] at h
  obtain ⟨hlead, hbehind⟩ := h.append
  rw [Tree.length_layoutAll, ← Tree.top_eq] at hbehind
  exact ⟨hlead, hbehind.cons⟩

theorem Carries.row (h : g.Carries next (Tree.layoutAll targets p next (t :: ts))) :
    g.Carries next (t.layout targets (some p) next) ∧
      g.Carries (next + t.size) (Tree.layoutAll targets p (next + t.size) ts) := by
  obtain ⟨hfirst, hrest⟩ := h.append
  rw [Tree.length_layout] at hrest
  exact ⟨hfirst, hrest⟩

theorem Carries.exists_of_mem_ids (h : g.Carries next (Tree.layoutAll targets p next ts)) {c : Nat}
    (hc : c ∈ Tree.ids next ts) :
    ∃ t ∈ ts, ∃ first : Nat,
      c = t.top first ∧ g.Carries first (t.layout targets (some p) first) := by
  induction ts generalizing next with
  | nil => cases hc
  | cons t ts ih =>
    obtain ⟨hfirst, hrest⟩ := h.row
    rcases List.mem_cons.1 hc with rfl | hc
    · exact ⟨t, List.mem_cons_self, next, rfl, hfirst⟩
    · obtain ⟨u, hu, first, hcarried⟩ := ih hrest hc
      exact ⟨u, List.mem_cons_of_mem _ hu, first, hcarried⟩

theorem Carries.children (h : g.Carries first (t.layout targets parent first)) :
    (g.graph.node (t.top first)).kind.children = t.kids first := by
  rw [h.parts.2.1.children, Tree.children_head]

theorem Carries.exists_part (h : g.Carries first (t.layout targets parent first)) {c : Nat}
    (hc : g.graph.HasChild (t.top first) c) : ∃ p ∈ t.parts, ∃ first' : Nat, c = p.top first' ∧
      g.Carries first' (p.layout targets (some (t.top first)) first') := by
  rw [Graph.HasChild, h.children] at hc
  obtain ⟨hlead, -, hrest⟩ := h.parts
  rcases List.mem_append.1 hc with hc | hc
  · obtain ⟨p, hp, hcarried⟩ := hlead.exists_of_mem_ids hc
    exact ⟨p, Tree.mem_parts.2 (.inl hp), hcarried⟩
  · obtain ⟨p, hp, hcarried⟩ := hrest.exists_of_mem_ids hc
    exact ⟨p, Tree.mem_parts.2 (.inr hp), hcarried⟩

/-- Every node of a row is that of a tree within it, and going down from one of the row's own
numbers leads there. -/
theorem Carries.exists_within (h : g.Carries next (Tree.layoutAll targets p next ts)) {x : Nat}
    (hle : next ≤ x) (hlt : x < next + Tree.sizes ts) :
    ∃ t ∈ ts, ∃ (s : Tree) (q first : Nat), Tree.Within s t ∧ x = s.top first ∧
      g.Carries first (s.layout targets (some q) first) ∧
        ∃ top ∈ Tree.ids next ts, Relation.ReflTransGen g.graph.HasChild top x := by
  induction ts using Tree.row_induction generalizing next p with
  | nil => exact absurd hlt (Nat.not_lt.2 hle)
  | cons t ts hlead hrest hts =>
    obtain ⟨hfirst, hbehind⟩ := h.row
    obtain ⟨hleading, -, hresting⟩ := hfirst.parts
    have hsize := t.size_eq
    have htop := t.top_eq next
    have hself : t.top next ∈ Tree.ids next (t :: ts) := List.mem_cons_self
    -- what stands below a part stands below the tree
    have below : ∀ {top : Nat}, top ∈ t.kids next → Relation.ReflTransGen g.graph.HasChild top x →
        Relation.ReflTransGen g.graph.HasChild (t.top next) x := by
      intro top hmem hpath
      refine .head ?_ hpath
      rwa [Graph.HasChild, hfirst.children]
    simp only [Tree.sizes] at hlt
    by_cases hx : x < next + t.size
    · rcases Nat.lt_trichotomy x (t.top next) with hless | rfl | hmore
      · obtain ⟨u, hu, s, q, first, hs, hid, hcarried, top, hmem, hpath⟩ :=
          hlead hleading hle (by omega)
        exact ⟨t, List.mem_cons_self, s, q, first, .part (Tree.mem_parts.2 (.inl hu)) hs, hid,
          hcarried, _, hself, below (List.mem_append_left _ hmem) hpath⟩
      · exact ⟨t, List.mem_cons_self, t, p, next, .refl, rfl, hfirst, _, hself, .refl⟩
      · obtain ⟨u, hu, s, q, first, hs, hid, hcarried, top, hmem, hpath⟩ :=
          hrest hresting hmore (by omega)
        exact ⟨t, List.mem_cons_self, s, q, first, .part (Tree.mem_parts.2 (.inr hu)) hs, hid,
          hcarried, _, hself, below (List.mem_append_right _ hmem) hpath⟩
    · obtain ⟨u, hu, s, q, first, hs, hid, hcarried, top, hmem, hpath⟩ :=
        hts hbehind (by omega) (by omega)
      exact ⟨u, List.mem_cons_of_mem _ hu, s, q, first, hs, hid, hcarried, top,
        List.mem_cons_of_mem _ hmem, hpath⟩

end

theorem ShowsAll.append {ts us : List Tree} {ids ids' : List NodeId} (h : g.ShowsAll ts ids)
    (h' : g.ShowsAll us ids') : g.ShowsAll (ts ++ us) (ids ++ ids') := by
  induction ts generalizing ids with
  | nil =>
    obtain rfl := h
    exact h'
  | cons t ts ih =>
    obtain ⟨id, rest, rfl, hfirst, hrest⟩ := h
    exact ⟨id, rest ++ ids', rfl, hfirst, ih hrest⟩

section

variable {parent : Option NodeId} {first next p : Nat} {t : Tree} {ts : List Tree}

theorem shows_of_head {id : NodeId}
    (h : (g.graph.node id).Alike (t.head (fun rule => g.rules.lookup rule) parent first))
    (hparts : g.ShowsAll t.parts (t.kids first)) : g.Shows t id := by
  have htagged : ∀ {tag : Tag} {kind : NodeKind},
      t.head (fun rule => g.rules.lookup rule) parent first = tag.node kind parent →
        (g.graph.node id).IsTagged tag := by
    intro tag kind heq
    rw [heq] at h
    exact ⟨h.position, h.repetition, h.label⟩
  cases t with
  | leaf l tag =>
    exact ⟨NodeKind.eq_of_bare_eq h.kind (by cases l <;> rfl), htagged rfl⟩
  | group items tag => exact ⟨_, NodeKind.eq_of_bare_eq h.kind rfl, htagged rfl, hparts⟩
  | choice options position =>
    obtain ⟨weights, escapes, hkind⟩ := NodeKind.exists_of_bare_choice h.kind
    exact ⟨_, weights, escapes, hkind, htagged rfl, hparts⟩
  | lookAhead positive operand position =>
    obtain ⟨o, rest, hkids, hoperand, -⟩ := hparts
    have hkind := NodeKind.eq_of_bare_eq h.kind rfl
    simp only [Tree.head, Tag.node, hkids, List.head?_cons] at hkind
    exact ⟨o, hkind, htagged rfl, hoperand⟩

theorem Carries.showsAll
    (h : g.Carries next (Tree.layoutAll (fun rule => g.rules.lookup rule) p next ts)) :
    g.ShowsAll ts (Tree.ids next ts) := by
  induction ts using Tree.row_induction generalizing next p with
  | nil => rfl
  | cons t ts hlead hrest hts =>
    obtain ⟨hfirst, hbehind⟩ := h.row
    obtain ⟨hleading, hhead, hresting⟩ := hfirst.parts
    have hparts := (hlead hleading).append (hrest hresting)
    rw [Tree.lead_append_rest] at hparts
    exact ⟨_, _, rfl, shows_of_head hhead hparts, hts hbehind⟩

theorem Carries.shows
    (h : g.Carries first (t.layout (fun rule => g.rules.lookup rule) parent first)) :
    g.Shows t (t.top first) := by
  obtain ⟨hlead, hhead, hrest⟩ := h.parts
  have hparts := hlead.showsAll.append hrest.showsAll
  rw [Tree.lead_append_rest] at hparts
  exact shows_of_head hhead hparts

end

theorem Carries.rules {targets : String → Option NodeId} {next : Nat} {r : RuleTree}
    {rules : List RuleTree}
    (h : g.Carries next (RuleTree.layoutAll targets next (r :: rules))) :
    (g.graph.node next).Alike (r.head next) ∧
      g.Carries (next + 1) (Tree.layoutAll targets next (next + 1) r.items) ∧
        g.Carries (next + r.size) (RuleTree.layoutAll targets (next + r.size) rules) := by
  obtain ⟨hfirst, hrest⟩ := h.append
  rw [RuleTree.length_layout] at hrest
  obtain ⟨hnode, hitems⟩ := hfirst.cons
  exact ⟨hnode, hitems, hrest⟩

/-- A node of the rules is that of a rule, or that of a tree in a rule, from whose node it is come
to by going down. -/
theorem Carries.rule_or_part {targets : String → Option NodeId} {next : Nat}
    {rules : List RuleTree} (h : g.Carries next (RuleTree.layoutAll targets next rules)) {x : Nat}
    (hle : next ≤ x) (hlt : x < next + RuleTree.sizes rules) :
    (∃ r ∈ rules, (r.name, x) ∈ RuleTree.index next rules ∧ (g.graph.node x).Alike (r.head x) ∧
      g.Carries (x + 1) (Tree.layoutAll targets x (x + 1) r.items)) ∨
    ∃ r ∈ rules, ∃ t ∈ r.items, ∃ (s : Tree) (q first : Nat), Tree.Within s t ∧
      x = s.top first ∧ g.Carries first (s.layout targets (some q) first) ∧
        ∃ entry ∈ RuleTree.index next rules, Relation.TransGen g.graph.HasChild entry.2 x := by
  induction rules generalizing next with
  | nil => exact absurd hlt (Nat.not_lt.2 hle)
  | cons r rules ih =>
    obtain ⟨hnode, hitems, hrest⟩ := h.rules
    have hself : (r.name, next) ∈ RuleTree.index next (r :: rules) := List.mem_cons_self
    simp only [RuleTree.sizes] at hlt
    by_cases hx : x < next + r.size
    · rcases Nat.eq_or_lt_of_le hle with rfl | hless
      · exact .inl ⟨r, List.mem_cons_self, hself, hnode, hitems⟩
      · rw [RuleTree.size] at hx
        obtain ⟨t, ht, s, q, first, hs, hid, hcarried, top, htop, hpath⟩ :=
          hitems.exists_within hless (by omega)
        have hchild : g.graph.HasChild next top := by
          rw [Graph.HasChild, hnode.children]
          exact htop
        exact .inr ⟨r, List.mem_cons_self, t, ht, s, q, first, hs, hid, hcarried, _, hself,
          .head' hchild hpath⟩
    · rcases ih hrest (by omega) (by omega) with ⟨r', hr', hindex, hcarried⟩ |
        ⟨r', hr', t, ht, s, q, first, hs, hid, hcarried, entry, hentry, hpath⟩
      · exact .inl ⟨r', List.mem_cons_of_mem _ hr', List.mem_cons_of_mem _ hindex, hcarried⟩
      · exact .inr ⟨r', List.mem_cons_of_mem _ hr', t, ht, s, q, first, hs, hid, hcarried, entry,
          List.mem_cons_of_mem _ hentry, hpath⟩

theorem Carries.showsRules {next : Nat} {rules : List RuleTree}
    (h : g.Carries next (RuleTree.layoutAll (fun rule => g.rules.lookup rule) next rules)) :
    List.Forall₂ g.ShowsRule (RuleTree.index next rules) rules := by
  induction rules generalizing next with
  | nil => exact .nil
  | cons r rules ih =>
    obtain ⟨hnode, hitems, hrest⟩ := h.rules
    exact .cons ⟨rfl, _, NodeKind.eq_of_bare_eq hnode.kind rfl,
      ⟨hnode.position, hnode.repetition, hnode.label⟩, hitems.showsAll⟩ (ih hrest)

theorem carries_ofTrees {trees : List RuleTree} {settings : EngineSettings} {g : Grammar}
    (h : ofTrees trees settings = .ok g) :
    g.Carries 0 (RuleTree.layoutAll (fun rule => g.rules.lookup rule) 0 trees) := by
  intro j n hj
  rw [rules_ofTrees h] at hj
  have hlaid : (laidOut trees).node j = n := by
    simp [Graph.node, laidOut, Array.getD_eq_getD_getElem?, hj]
  rw [Nat.zero_add, ← hlaid]
  exact (node_ofTrees h j).1

theorem showsRule_ofTrees {trees : List RuleTree} {settings : EngineSettings} {g : Grammar}
    (h : ofTrees trees settings = .ok g) : List.Forall₂ g.ShowsRule g.rules trees := by
  have hshows := (carries_ofTrees h).showsRules
  rwa [← rules_ofTrees h] at hshows

end Grammar

end Ebnf
