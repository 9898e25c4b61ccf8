import Ebnf.Proofs.Layout

/-! The graph of a grammar next to the nodes that are laid out for its rules. The passes that follow
change nothing but distributions. -/

namespace Ebnf

theorem toOption_eq_some {ε α : Type} {x : Except ε α} {a : α} :
    x.toOption = some a ↔ x = .ok a := by
  cases x <;> simp [Except.toOption]

namespace Graph

theorem node_of_size_le {g : Graph} {id : Nat} (h : g.size ≤ id) : g.node id = .absent := by
  simp [node, show ¬id < g.nodes.size from Nat.not_lt.2 h]

theorem bare_distributed (g : Graph) (k : NodeKind) : (g.distributed k).bare = k.bare := by
  cases k <;> rfl

@[simp] theorem size_withDistributions (g : Graph) : g.withDistributions.size = g.size := by
  simp [withDistributions, size]

theorem node_withDistributions (g : Graph) (id : NodeId) :
    g.withDistributions.node id =
      { g.node id with kind := g.distributed (g.node id).kind } := by
  by_cases h : id < g.nodes.size
  · simp [node, withDistributions, h]
  · simp [node, withDistributions, h, Node.absent, Node.ofKind, distributed]

@[simp] theorem size_withFiniteRules (g : Graph) (rules : List NodeId) :
    (g.withFiniteRules rules).size = g.size := rfl

@[simp] theorem node_withFiniteRules (g : Graph) (rules : List NodeId) (id : NodeId) :
    (g.withFiniteRules rules).node id = g.node id := rfl

end Graph

/-- Two nodes that differ at most in how often they are written and in their distributions. -/
structure Node.Alike (m n : Node) : Prop where
  kind : m.kind.bare = n.kind.bare
  position : m.position = n.position
  repetition : m.repetition = n.repetition
  label : m.label = n.label
  parent : m.parent = n.parent

theorem Node.Alike.refl (n : Node) : n.Alike n := ⟨rfl, rfl, rfl, rfl, rfl⟩

theorem Node.Alike.children {m n : Node} (h : m.Alike n) : m.kind.children = n.kind.children := by
  rw [← NodeKind.children_bare, h.kind, NodeKind.children_bare]

namespace Grammar

/-- The nodes of a list of rules before their finite rules and distributions are known. -/
def laidOut (trees : List RuleTree) : Graph :=
  ⟨(RuleTree.layoutAll (fun rule => (RuleTree.index 0 trees).lookup rule) 0 trees).toArray, []⟩

section OfTrees

variable {trees : List RuleTree} {settings : EngineSettings} {g : Grammar}

theorem ofTrees_eq_ok (h : ofTrees trees settings = .ok g) :
    (∀ r ∈ trees, ∀ x ∈ r.references, ((RuleTree.index 0 trees).lookup x.2).isSome) ∧
      g = ⟨((laidOut trees).withFiniteRules
          ((RuleTree.index 0 trees).map Prod.snd)).withDistributions, RuleTree.index 0 trees,
        settings,
        (laidOut trees).looseCuts.map fun id => ⟨((laidOut trees).node id).position⟩⟩ := by
  simp only [ofTrees] at h
  split at h
  · cases h
  · next hnone =>
    refine ⟨fun r hr x hx => ?_, (Except.ok.inj h).symm⟩
    have := List.find?_eq_none.1 hnone x (List.mem_flatMap.2 ⟨r, hr, hx⟩)
    simpa [Option.isSome_iff_ne_none] using this

theorem rules_ofTrees (h : ofTrees trees settings = .ok g) : g.rules = RuleTree.index 0 trees := by
  rw [(ofTrees_eq_ok h).2]

theorem size_ofTrees (h : ofTrees trees settings = .ok g) :
    g.graph.size = RuleTree.sizes trees := by
  rw [(ofTrees_eq_ok h).2]
  rw [Graph.size_withDistributions, Graph.size_withFiniteRules]
  simp [laidOut, Graph.size, RuleTree.length_layoutAll]

theorem node_ofTrees (h : ofTrees trees settings = .ok g) (id : NodeId) :
    (g.graph.node id).Alike ((laidOut trees).node id) ∧
      (g.graph.node id).yield = ((laidOut trees).node id).yield := by
  rw [(ofTrees_eq_ok h).2]
  rw [Graph.node_withDistributions, Graph.node_withFiniteRules]
  exact ⟨⟨Graph.bare_distributed _ _, rfl, rfl, rfl, rfl⟩, rfl⟩

theorem exists_laid (h : ofTrees trees settings = .ok g) {id : Nat} (hid : id < g.graph.size) :
    RuleTree.Laid (fun rule => g.rules.lookup rule) trees g.graph.size id
      ((laidOut trees).node id) := by
  rw [size_ofTrees h] at hid ⊢
  rw [rules_ofTrees h]
  obtain ⟨n, hget, hn⟩ := @RuleTree.layoutAll_getElem?
    (fun rule => (RuleTree.index 0 trees).lookup rule) trees 0 id hid
  have hnode : (laidOut trees).node id = n := by
    simp [Graph.node, laidOut, Array.getD_eq_getD_getElem?, hget]
  rw [hnode]
  simpa using hn

theorem exists_head (h : ofTrees trees settings = .ok g) {rule : String} {id : Nat}
    (hr : g.rules.lookup rule = some id) :
    id < g.graph.size ∧ ∃ r ∈ trees, r.name = rule ∧ (laidOut trees).node id = r.head id := by
  rw [rules_ofTrees h] at hr
  have hmem : (rule, id) ∈ RuleTree.index 0 trees := by
    obtain ⟨before, after, heq, -⟩ := List.lookup_eq_some_iff.1 hr
    simp [heq]
  obtain ⟨r, hr, hname, -, hlt, hget⟩ := @RuleTree.mem_index
    (fun rule => (RuleTree.index 0 trees).lookup rule) trees 0 id rule hmem
  refine ⟨by rw [size_ofTrees h]; omega, r, hr, hname, ?_⟩
  simpa [Graph.node, laidOut, Array.getD_eq_getD_getElem?] using congrArg (·.getD .absent) hget

theorem kind_laidOut (h : ofTrees trees settings = .ok g) {id : Nat} {kind : NodeKind}
    (hk : (g.graph.node id).kind = kind) (hc : kind.isChoice = false) :
    ((laidOut trees).node id).kind = kind := by
  have hbare := (node_ofTrees h id).1.kind
  rw [hk] at hbare
  exact NodeKind.eq_of_bare_eq hbare.symm hc

end OfTrees

theorem exists_trees {source : String} {settings : EngineSettings} {g : Grammar}
    (h : parse source settings = .ok g) :
    ∃ trees, RuleTree.parse source = .ok trees ∧ ofTrees trees settings = .ok g := by
  cases ht : RuleTree.parse source with
  | error e => simp [parse, ht, bind, Except.bind] at h
  | ok trees => exact ⟨trees, rfl, by simpa [parse, ht, bind, Except.bind] using h⟩

end Grammar

end Ebnf
