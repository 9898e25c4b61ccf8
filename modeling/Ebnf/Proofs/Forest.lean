import Ebnf.Proofs.Linked
import Ebnf.Proofs.Parents
import Ebnf.Proofs.Syntax.Checked
import Mathlib.Logic.Relation

/-! The graph of a parsed grammar is a forest. Its roots are the nodes of the rules, one for each,
and every other node stands exactly once among the children of the node that it names as its
parent. -/

namespace Ebnf

namespace RuleTree

theorem map_fst_index (next : Nat) (trees : List RuleTree) :
    (index next trees).map Prod.fst = trees.map name := by
  induction trees generalizing next with
  | nil => rfl
  | cons r trees ih => exact congrArg (r.name :: ·) (ih _)

theorem nodup_snd_index (next : Nat) (trees : List RuleTree) :
    ((index next trees).map Prod.snd).Nodup ∧
      ∀ id ∈ (index next trees).map Prod.snd, next ≤ id := by
  induction trees generalizing next with
  | nil => exact ⟨.nil, nofun⟩
  | cons r trees ih =>
    obtain ⟨hnodup, hle⟩ := ih (next + r.size)
    have hpos : 0 < r.size := Nat.lt_of_lt_of_le Nat.zero_lt_one (Nat.le_add_right ..)
    refine ⟨List.nodup_cons.2 ⟨fun hmem => ?_, hnodup⟩, List.forall_mem_cons.2 ⟨Nat.le_refl _, ?_⟩⟩
    · have := hle next hmem
      omega
    · intro id hid
      have := hle id hid
      omega

end RuleTree

theorem lookup_eq_some_of_mem {β : Type} {k : String} {v : β} {l : List (String × β)}
    (hl : (l.map Prod.fst).Nodup) (h : (k, v) ∈ l) : l.lookup k = some v := by
  obtain ⟨before, after, rfl⟩ := List.append_of_mem h
  refine List.lookup_eq_some_iff.2 ⟨before, after, rfl, fun x hx => ?_⟩
  rw [List.map_append, List.nodup_append] at hl
  have hne := hl.2.2 x.1 (List.mem_map_of_mem hx) k List.mem_cons_self
  simpa using hne.symm

theorem mem_of_lookup_eq_some {β : Type} {k : String} {v : β} {l : List (String × β)}
    (h : l.lookup k = some v) : (k, v) ∈ l := by
  obtain ⟨before, after, rfl, -⟩ := List.lookup_eq_some_iff.1 h
  exact List.mem_append_right _ List.mem_cons_self

namespace Grammar

variable {g : Grammar}

theorem Shows.isChoice_eq {t : Tree} {id : NodeId} (h : g.Shows t id) (ht : t.IsOperand) :
    (g.graph.node id).kind.isChoice = false := by
  rw [← NodeKind.isChoice_unnumbered, h.unnumbered_eq]
  cases t with
  | leaf l => cases l <;> rfl
  | group | lookAhead => rfl
  | choice => exact ht.elim

theorem Shows.ne_lookAhead {t : Tree} {id : NodeId} (h : g.Shows t id) (ht : t.IsPrimary)
    (positive : Bool) (operand : Option NodeId) :
    (g.graph.node id).kind ≠ .lookAhead positive operand := by
  intro hk
  have hsort := h.unnumbered_eq
  rw [hk] at hsort
  cases t with
  | leaf l => cases l <;> cases hsort
  | group => cases hsort
  | choice | lookAhead => exact ht.elim

theorem Shows.eq_choice {t : Tree} {id : NodeId} {options : List NodeId}
    {weights escapes : Distribution} (h : g.Shows t id)
    (hk : (g.graph.node id).kind = .choice options weights escapes) :
    ∃ ts position, t = .choice ts position := by
  have hsort := h.unnumbered_eq
  rw [hk] at hsort
  cases t with
  | leaf l => cases l <;> cases hsort
  | group | lookAhead => cases hsort
  | choice ts position => exact ⟨ts, position, rfl⟩

theorem Shows.eq_lookAhead {t : Tree} {id : NodeId} {positive : Bool} {operand : Option NodeId}
    (h : g.Shows t id) (hk : (g.graph.node id).kind = .lookAhead positive operand) :
    ∃ u position, t = .lookAhead positive u position := by
  have hsort := h.unnumbered_eq
  rw [hk] at hsort
  cases t with
  | leaf l => cases l <;> cases hsort
  | group | choice => cases hsort
  | lookAhead _ u position =>
    obtain ⟨rfl, -⟩ := NodeKind.lookAhead.inj hsort
    exact ⟨u, position, rfl⟩

/-- The graph of a grammar as a forest with the nodes of the rules for its roots. -/
structure IsForest (g : Grammar) : Prop where
  names : (g.rules.map Prod.fst).Nodup
  roots : (g.rules.map Prod.snd).Nodup
  rule {rule : String} {id : NodeId} : (rule, id) ∈ g.rules ↔
    id < g.graph.size ∧ ∃ children, (g.graph.node id).kind = .rule rule children
  root {id : NodeId} : id < g.graph.size →
    ((g.graph.node id).parent = none ↔ ∃ rule, (rule, id) ∈ g.rules)
  child {id c : NodeId} : g.graph.HasChild id c → id < g.graph.size ∧ c < g.graph.size
  /-- A node stands once among the children of its parent, and nowhere else. -/
  parent {p c : NodeId} : (g.graph.node c).parent = some p ↔ g.graph.HasChild p c
  count {p c : NodeId} : g.graph.HasChild p c → (g.graph.node p).kind.children.count c = 1
  existsUnique_root {id : NodeId} : id < g.graph.size →
    ∃! root, (∃ rule, (rule, root) ∈ g.rules) ∧ Relation.ReflTransGen g.graph.HasChild root id
  acyclic (id : NodeId) : ¬Relation.TransGen g.graph.HasChild id id
  reference {id : NodeId} {rule : String} {target : Option NodeId} : id < g.graph.size →
    (g.graph.node id).kind = .reference rule target →
      ∃ root, target = some root ∧ (rule, root) ∈ g.rules
  /-- An alternative stands in a group or in a rule. -/
  choice {id : NodeId} {options : List NodeId} {weights escapes : Distribution} :
    (g.graph.node id).kind = .choice options weights escapes →
      options ≠ [] ∧ (g.graph.node id).label = none ∧ (g.graph.node id).repetition = .once ∧
        ∃ p children, g.graph.HasChild p id ∧ ((g.graph.node p).kind = .group children ∨
          ∃ rule, (g.graph.node p).kind = .rule rule children)
  /-- A look-ahead is about one node, which is no alternative and no look-ahead. -/
  lookAhead {id : NodeId} {positive : Bool} {operand : Option NodeId} :
    (g.graph.node id).kind = .lookAhead positive operand →
      (g.graph.node id).repetition = .once ∧ ∃ o, operand = some o ∧
        (g.graph.node o).kind.isChoice = false ∧
          ∀ positive operand, (g.graph.node o).kind ≠ .lookAhead positive operand
  repetition (id : NodeId) : (g.graph.node id).repetition.IsProper

section Parse

variable {source : String} {settings : EngineSettings}

theorem ruleNames_ofTrees {trees : List RuleTree} (h : ofTrees trees settings = .ok g) :
    g.ruleNames = trees.map RuleTree.name := by
  rw [ruleNames, rules_ofTrees h, RuleTree.map_fst_index]

theorem nodup_ruleNames (h : parse source settings = .ok g) : g.ruleNames.Nodup := by
  obtain ⟨trees, hparse, htrees⟩ := exists_trees h
  rw [ruleNames_ofTrees htrees]
  exact RuleTree.nodup_names_parse hparse

theorem mem_rules_iff (h : parse source settings = .ok g) {rule : String} {id : NodeId} :
    (rule, id) ∈ g.rules ↔ g.rules.lookup rule = some id :=
  ⟨lookup_eq_some_of_mem (nodup_ruleNames h), mem_of_lookup_eq_some⟩

/-- A node is that of a rule, or it shows a tree and is come to by going down from a rule's node. -/
theorem placed_parse (h : parse source settings = .ok g) {id : Nat} (hid : id < g.graph.size) :
    (∃ rule, (rule, id) ∈ g.rules) ∨ (∃ s : Tree, s.HoldsOperands ∧ g.Shows s id) ∧
      ∃ rule root, (rule, root) ∈ g.rules ∧ Relation.TransGen g.graph.HasChild root id := by
  obtain ⟨trees, hparse, htrees⟩ := exists_trees h
  have hholds := RuleTree.everywhere_parse Tree.keeps_holdsOperands hparse
  rw [size_ofTrees htrees] at hid
  rw [rules_ofTrees htrees]
  rcases (carries_ofTrees htrees).rule_or_part (Nat.zero_le _) (by rwa [Nat.zero_add]) with
    ⟨r, -, hindex, -⟩ | ⟨r, hr, t, ht, s, q, first, hs, rfl, hcarried, entry, hentry, hpath⟩
  · exact .inl ⟨r.name, hindex⟩
  · exact .inr ⟨⟨s, hholds r hr t ht s hs, hcarried.shows⟩, entry.1, entry.2, hentry, hpath⟩

theorem rule_or_child (h : parse source settings = .ok g) {id : Nat} (hid : id < g.graph.size) :
    (∃ rule, (rule, id) ∈ g.rules) ∨
      (∃ s : Tree, s.HoldsOperands ∧ g.Shows s id) ∧ ∃ p, g.graph.HasChild p id := by
  refine (placed_parse h hid).imp_right fun ⟨hshows, _, _, _, hpath⟩ => ⟨hshows, ?_⟩
  obtain ⟨p, -, hp⟩ := Relation.TransGen.tail'_iff.1 hpath
  exact ⟨p, hp⟩

theorem parent_of_hasChild (h : parse source settings = .ok g) {p c : NodeId}
    (hc : g.graph.HasChild p c) : (g.graph.node c).parent = some p :=
  (parented_parse h p c hc).parent

theorem parent_of_mem_rules (h : parse source settings = .ok g) {rule : String} {id : NodeId}
    (hr : (rule, id) ∈ g.rules) : (g.graph.node id).parent = none := by
  obtain ⟨trees, -, htrees⟩ := exists_trees h
  obtain ⟨-, r, -, -, hnode⟩ := exists_head htrees ((mem_rules_iff h).1 hr)
  rw [(node_ofTrees htrees id).1.parent, hnode]
  rfl

theorem not_hasChild_of_mem_rules (h : parse source settings = .ok g) {rule : String}
    {p id : NodeId} (hr : (rule, id) ∈ g.rules) : ¬g.graph.HasChild p id := by
  intro hc
  have hparent := parent_of_hasChild h hc
  rw [parent_of_mem_rules h hr] at hparent
  cases hparent

theorem hasChild_iff_parent (h : parse source settings = .ok g) {p c : NodeId} :
    (g.graph.node c).parent = some p ↔ g.graph.HasChild p c := by
  refine ⟨fun hparent => ?_, parent_of_hasChild h⟩
  by_cases hc : c < g.graph.size
  · rcases rule_or_child h hc with ⟨rule, hr⟩ | ⟨-, q, hq⟩
    · rw [parent_of_mem_rules h hr] at hparent
      cases hparent
    · obtain rfl := Option.some.inj (hparent.symm.trans (parent_of_hasChild h hq))
      exact hq
  · rw [Graph.node_of_size_le (Nat.not_lt.1 hc)] at hparent
    cases hparent

theorem nodup_children (h : parse source settings = .ok g) (id : NodeId) :
    (g.graph.node id).kind.children.Nodup := by
  obtain ⟨trees, -, htrees⟩ := exists_trees h
  by_cases hid : id < g.graph.size
  · rw [(node_ofTrees htrees id).1.children]
    exact (exists_laid htrees hid).nodup_children
  · rw [Graph.node_of_size_le (Nat.not_lt.1 hid)]
    exact .nil

/-- Going up from a node, which leaves no choice, leads to the node of one rule. -/
theorem eq_of_paths (h : parse source settings = .ok g) {rule rule' : String}
    {root root' id : NodeId} (hr : (rule, root) ∈ g.rules) (hr' : (rule', root') ∈ g.rules)
    (hpath : Relation.ReflTransGen g.graph.HasChild root id)
    (hpath' : Relation.ReflTransGen g.graph.HasChild root' id) : root = root' := by
  induction hpath with
  | refl =>
    rcases hpath'.cases_tail with heq | ⟨p, -, hp⟩
    · exact heq
    · exact absurd hp (not_hasChild_of_mem_rules h hr)
  | tail _ hp ih =>
    rcases hpath'.cases_tail with rfl | ⟨q, hpath', hq⟩
    · exact absurd hp (not_hasChild_of_mem_rules h hr')
    · have hsame := (parent_of_hasChild h hq).symm.trans (parent_of_hasChild h hp)
      obtain rfl := Option.some.inj hsame
      exact ih hpath'

theorem existsUnique_root (h : parse source settings = .ok g) {id : Nat}
    (hid : id < g.graph.size) : ∃! root, (∃ rule, (rule, root) ∈ g.rules) ∧
      Relation.ReflTransGen g.graph.HasChild root id := by
  obtain ⟨rule, root, hr, hpath⟩ : ∃ rule root, (rule, root) ∈ g.rules ∧
      Relation.ReflTransGen g.graph.HasChild root id := by
    rcases placed_parse h hid with ⟨rule, hr⟩ | ⟨-, rule, root, hr, hpath⟩
    · exact ⟨rule, id, hr, .refl⟩
    · exact ⟨rule, root, hr, hpath.to_reflTransGen⟩
  refine ⟨root, ⟨⟨rule, hr⟩, hpath⟩, ?_⟩
  rintro root' ⟨⟨rule', hr'⟩, hpath'⟩
  exact eq_of_paths h hr' hr hpath' hpath

theorem shows_of_not_rule (h : parse source settings = .ok g) {id : NodeId}
    (hid : id < g.graph.size) (hrule : (g.graph.node id).kind.isRule = false) :
    (∃ s : Tree, s.HoldsOperands ∧ g.Shows s id) ∧ ∃ p, g.graph.HasChild p id := by
  refine (rule_or_child h hid).resolve_left fun ⟨rule, hr⟩ => ?_
  obtain ⟨-, -, children, hk⟩ := (isLinked_parse h).root ((mem_rules_iff h).1 hr)
  rw [hk] at hrule
  cases hrule

theorem inside_of_kind {id : NodeId} (hne : (g.graph.node id).kind ≠ .reference "" none) :
    id < g.graph.size := by
  refine Nat.lt_of_not_le fun hle => hne ?_
  rw [Graph.node_of_size_le hle]
  rfl

theorem isChoice_of_hasChild (h : parse source settings = .ok g) {p c : NodeId}
    (hc : g.graph.HasChild p c) (hrule : (g.graph.node p).kind.isRule = false)
    (hgroup : ∀ children, (g.graph.node p).kind ≠ .group children) :
    (g.graph.node c).kind.isChoice = false := by
  have hp := ((isLinked_parse h).child hc).1
  obtain ⟨⟨s, hholds, hshows⟩, -⟩ := shows_of_not_rule h hp hrule
  obtain ⟨i, hi⟩ := List.getElem?_of_mem hc
  obtain ⟨part, hpart, hshown⟩ := hshows.exists_part hi
  have hmem : part ∈ s.parts := List.mem_of_getElem? hpart
  cases s with
  | leaf => cases hmem
  | group items tag =>
    obtain ⟨ids, hk, -⟩ := hshows
    exact absurd hk (hgroup ids)
  | choice options position => exact hshown.isChoice_eq (hholds part hmem)
  | lookAhead positive operand position =>
    obtain rfl := List.mem_singleton.1 hmem
    exact hshown.isChoice_eq hholds.isOperand

theorem choice_parse (h : parse source settings = .ok g) {id : NodeId} {options : List NodeId}
    {weights escapes : Distribution}
    (hk : (g.graph.node id).kind = .choice options weights escapes) :
    (g.graph.node id).label = none ∧ (g.graph.node id).repetition = .once ∧
      ∃ p children, g.graph.HasChild p id ∧ ((g.graph.node p).kind = .group children ∨
        ∃ rule, (g.graph.node p).kind = .rule rule children) := by
  have hid : id < g.graph.size := inside_of_kind (by rw [hk]; exact nofun)
  obtain ⟨⟨s, -, hshows⟩, p, hp⟩ := shows_of_not_rule h hid (by rw [hk]; rfl)
  obtain ⟨ts, position, rfl⟩ := hshows.eq_choice hk
  obtain ⟨ids, _, _, -, ⟨-, hrepetition, hlabel⟩, -⟩ := hshows
  refine ⟨hlabel, hrepetition, p, ?_⟩
  have hself : (g.graph.node id).kind.isChoice = true := by rw [hk]; rfl
  by_cases hgroup : ∃ children, (g.graph.node p).kind = .group children
  · obtain ⟨children, hgroup⟩ := hgroup
    exact ⟨children, hp, .inl hgroup⟩
  · cases hrule : (g.graph.node p).kind.isRule with
    | false =>
      have hnone := isChoice_of_hasChild h hp hrule fun children hk => hgroup ⟨children, hk⟩
      exact absurd (hself.symm.trans hnone) nofun
    | true =>
      cases hkind : (g.graph.node p).kind with
      | rule rule children => exact ⟨children, hp, .inr ⟨rule, rfl⟩⟩
      | _ =>
        rw [hkind] at hrule
        cases hrule

theorem lookAhead_parse (h : parse source settings = .ok g) {id : NodeId} {positive : Bool}
    {operand : Option NodeId} (hk : (g.graph.node id).kind = .lookAhead positive operand) :
    (g.graph.node id).repetition = .once ∧ ∃ o, operand = some o ∧
      (g.graph.node o).kind.isChoice = false ∧
        ∀ positive operand, (g.graph.node o).kind ≠ .lookAhead positive operand := by
  have hid : id < g.graph.size := inside_of_kind (by rw [hk]; exact nofun)
  obtain ⟨⟨s, hholds, hshows⟩, -⟩ := shows_of_not_rule h hid (by rw [hk]; rfl)
  obtain ⟨t, position, rfl⟩ := hshows.eq_lookAhead hk
  obtain ⟨o, hlook, ⟨-, hrepetition, -⟩, hoperand⟩ := hshows
  obtain ⟨-, rfl⟩ := NodeKind.lookAhead.inj (hk.symm.trans hlook)
  exact ⟨hrepetition, o, rfl, hoperand.isChoice_eq hholds.isOperand, hoperand.ne_lookAhead hholds⟩

theorem isForest_parse (h : parse source settings = .ok g) : g.IsForest where
  names := nodup_ruleNames h
  roots := by
    obtain ⟨trees, -, htrees⟩ := exists_trees h
    rw [rules_ofTrees htrees]
    exact (RuleTree.nodup_snd_index 0 trees).1
  rule {rule id} := by
    constructor
    · intro hr
      obtain ⟨hid, -, children, hk⟩ := (isLinked_parse h).root ((mem_rules_iff h).1 hr)
      exact ⟨hid, children, hk⟩
    · rintro ⟨hid, children, hk⟩
      rcases rule_or_child h hid with ⟨rule', hr⟩ | ⟨-, p, hp⟩
      · obtain ⟨-, -, _, hk'⟩ := (isLinked_parse h).root ((mem_rules_iff h).1 hr)
        obtain ⟨rfl, -⟩ := NodeKind.rule.inj (hk.symm.trans hk')
        exact hr
      · have hrule := (parented_parse h p id hp).isRule
        rw [hk] at hrule
        cases hrule
  root {id} hid := by
    constructor
    · intro hparent
      refine (rule_or_child h hid).resolve_right fun ⟨_, p, hp⟩ => ?_
      rw [parent_of_hasChild h hp] at hparent
      cases hparent
    · rintro ⟨rule, hr⟩
      exact parent_of_mem_rules h hr
  child hc := (isLinked_parse h).child hc
  parent := hasChild_iff_parent h
  count hc := List.count_eq_one_of_mem (nodup_children h _) hc
  existsUnique_root hid := existsUnique_root h hid
  acyclic id hcycle :=
    (isLinked_parse h).down.transGen.irrefl.irrefl id (Relation.transGen_swap.2 hcycle)
  reference hid hk := by
    obtain ⟨root, hsome, hroot⟩ := (isLinked_parse h).reference hid hk
    exact ⟨root, hsome, (mem_rules_iff h).2 hroot⟩
  choice hk := ⟨(isFresh_parse h _).choice hk, choice_parse h hk⟩
  lookAhead := lookAhead_parse h
  repetition id := (isFresh_parse h id).repetition

end Parse

end Grammar

end Ebnf
