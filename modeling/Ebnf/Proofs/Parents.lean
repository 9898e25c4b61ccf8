import Ebnf.Proofs.Shape

/-! The parents of nodes. Every child knows the node that it is a child of, and no rule is anyone's
child. -/

namespace Ebnf

namespace NodeKind

def isRule : NodeKind → Bool
  | rule _ _ => true
  | terminal _ | charClass _ | reference _ _ | group _ | choice _ _ _ | lookAhead _ _ | cut => false

theorem isRule_eq_of_bare_eq {k l : NodeKind} (h : k.bare = l.bare) : k.isRule = l.isRule := by
  cases k <;> cases l <;> first | rfl | cases h

end NodeKind

namespace Grammar

/-- The second node is part of the first one, and knows it. -/
structure IsPart (g : Grammar) (id c : NodeId) : Prop where
  parent : (g.graph.node c).parent = some id
  isRule : (g.graph.node c).kind.isRule = false

def Parented (g : Grammar) (id : NodeId) : Prop :=
  ∀ c ∈ (g.graph.node id).kind.children, g.IsPart id c

section

variable {g : Grammar} {targets : String → Option NodeId} {next p : Nat}

theorem Carries.isPart {t : Tree} (h : g.Carries next (t.layout targets (some p) next)) :
    g.IsPart p (t.top next) := by
  have hhead := h.parts.2.1
  have hnode : (t.head targets (some p) next).parent = some p ∧
      (t.head targets (some p) next).kind.isRule = false := by
    cases t with
    | leaf l => cases l <;> exact ⟨rfl, rfl⟩
    | group | choice | lookAhead => exact ⟨rfl, rfl⟩
  exact ⟨hhead.parent.trans hnode.1, (NodeKind.isRule_eq_of_bare_eq hhead.kind).trans hnode.2⟩

theorem Carries.parented {rules : List RuleTree}
    (h : g.Carries next (RuleTree.layoutAll targets next rules)) {x : Nat} (hle : next ≤ x)
    (hlt : x < next + RuleTree.sizes rules) : g.Parented x := by
  intro c hc
  rcases h.rule_or_part hle hlt with ⟨r, -, -, hnode, hitems⟩ |
    ⟨_, -, _, -, s, q, first, -, rfl, hcarried, -⟩
  · rw [hnode.children] at hc
    obtain ⟨t, -, first, rfl, hpart⟩ := hitems.exists_of_mem_ids hc
    exact hpart.isPart
  · obtain ⟨t, -, first', rfl, hpart⟩ := hcarried.exists_part hc
    exact hpart.isPart

end

theorem parented_parse {source : String} {settings : EngineSettings} {g : Grammar}
    (h : parse source settings = .ok g) (id : Nat) : g.Parented id := by
  obtain ⟨trees, -, htrees⟩ := exists_trees h
  by_cases hid : id < g.graph.size
  · rw [size_ofTrees htrees] at hid
    exact (carries_ofTrees htrees).parented (Nat.zero_le _) (by rwa [Nat.zero_add])
  · intro c hc
    rw [Graph.node_of_size_le (Nat.not_lt.1 hid)] at hc
    cases hc

end Grammar

end Ebnf
