import Ebnf.Proofs.Shape

/-! What holds of the graph of every parsed grammar: going down to children comes to an end,
references point at the rules they name, look-aheads have operands, and a rule's node is matched and
written exactly once. -/

namespace Ebnf

namespace Grammar

/-- The facts about a grammar's graph that every walk over it relies on. -/
structure IsLinked (g : Grammar) : Prop where
  child {id c : Nat} : c ∈ (g.graph.node id).kind.children → id < g.graph.size ∧ c < g.graph.size
  down : WellFounded fun c id => g.graph.HasChild id c
  reference {id : Nat} {rule : String} {target : Option NodeId} : id < g.graph.size →
    (g.graph.node id).kind = .reference rule target →
      ∃ root, target = some root ∧ g.rules.lookup rule = some root
  operand {id : Nat} {positive : Bool} {operand : Option NodeId} :
    (g.graph.node id).kind = .lookAhead positive operand → ∃ o, operand = some o
  root {rule : String} {id : Nat} : g.rules.lookup rule = some id →
    id < g.graph.size ∧ (g.graph.node id).repetition = .once ∧
      ∃ children, (g.graph.node id).kind = .rule rule children

section Down

variable {g : Grammar} {targets : String → Option NodeId} {next : Nat}

theorem Carries.acc {parent : Option NodeId} {t : Tree}
    (h : g.Carries next (t.layout targets parent next)) :
    Acc (fun c id => g.graph.HasChild id c) (t.top next) := by
  have hall : ∀ (n : Nat) (t : Tree) (parent : Option NodeId) (next : Nat), t.size ≤ n →
      g.Carries next (t.layout targets parent next) →
        Acc (fun c id => g.graph.HasChild id c) (t.top next) := by
    intro n
    induction n with
    | zero =>
      intro t parent next hn
      exact absurd t.size_pos (Nat.not_lt.2 hn)
    | succ n ih =>
      intro t parent next hn h
      refine ⟨_, fun c hc => ?_⟩
      obtain ⟨p, hp, first, rfl, hcarried⟩ := h.exists_part hc
      exact ih p _ first (Nat.le_of_lt_succ (Nat.lt_of_lt_of_le (Tree.size_lt_of_mem_parts hp) hn))
        hcarried
  exact hall t.size t parent next (Nat.le_refl _) h

theorem Carries.acc_rules {rules : List RuleTree}
    (h : g.Carries next (RuleTree.layoutAll targets next rules)) {x : Nat} (hle : next ≤ x)
    (hlt : x < next + RuleTree.sizes rules) : Acc (fun c id => g.graph.HasChild id c) x := by
  rcases h.rule_or_part hle hlt with ⟨r, -, -, hnode, hitems⟩ |
    ⟨_, -, _, -, s, q, first, -, rfl, hcarried, -⟩
  · refine ⟨_, fun c hc => ?_⟩
    rw [Graph.HasChild, hnode.children] at hc
    obtain ⟨t, -, first, rfl, hcarried⟩ := hitems.exists_of_mem_ids hc
    exact hcarried.acc
  · exact hcarried.acc

end Down

section OfTrees

variable {trees : List RuleTree} {settings : EngineSettings} {g : Grammar}

theorem isLinked_ofTrees (h : ofTrees trees settings = .ok g) : g.IsLinked where
  child {id c} hc := by
    by_cases hid : id < g.graph.size
    · rw [(node_ofTrees h id).1.children] at hc
      exact ⟨hid, (exists_laid h hid).child_lt hc⟩
    · rw [Graph.node_of_size_le (Nat.not_lt.1 hid)] at hc
      cases hc
  down := by
    refine ⟨fun id => ?_⟩
    by_cases hid : id < g.graph.size
    · rw [size_ofTrees h] at hid
      exact (carries_ofTrees h).acc_rules (Nat.zero_le _) (by rwa [Nat.zero_add])
    · refine ⟨_, fun c hc => ?_⟩
      rw [Graph.HasChild, Graph.node_of_size_le (Nat.not_lt.1 hid)] at hc
      cases hc
  reference {id rule target} hid hk := by
    obtain ⟨rfl, r, hr, position, hx⟩ := (exists_laid h hid).reference (kind_laidOut h hk rfl)
    have hnamed := (ofTrees_eq_ok h).1 r hr _ hx
    rw [← rules_ofTrees h] at hnamed
    obtain ⟨root, hroot⟩ := Option.isSome_iff_exists.1 hnamed
    exact ⟨root, hroot, hroot⟩
  operand {id positive operand} hk := by
    by_cases hid : id < g.graph.size
    · exact (exists_laid h hid).operand (kind_laidOut h hk rfl)
    · rw [Graph.node_of_size_le (Nat.not_lt.1 hid)] at hk
      cases hk
  root {rule id} hr := by
    obtain ⟨hid, r, -, rfl, hnode⟩ := exists_head h hr
    have halike := (node_ofTrees h id).1
    rw [hnode] at halike
    exact ⟨hid, halike.repetition, _, NodeKind.eq_of_bare_eq halike.kind rfl⟩

end OfTrees

theorem isLinked_parse {source : String} {settings : EngineSettings} {g : Grammar}
    (h : parse source settings = .ok g) : g.IsLinked := by
  obtain ⟨trees, -, htrees⟩ := exists_trees h
  exact isLinked_ofTrees htrees

end Grammar

end Ebnf
