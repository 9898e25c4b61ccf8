import Ebnf.Proofs.Searches

/-! The cuts that no alternative of their own rule encloses. Whether one does is found by going up
from parent to parent, which in a forest ends at the node of the rule. The warnings of a parsed
grammar are about just these cuts, in the order of their numbers. -/

namespace Ebnf

namespace NodeKind

theorem isCut_iff {k : NodeKind} : k.isCut = true ↔ k = .cut := by
  cases k with
  | cut => exact iff_of_true rfl rfl
  | _ => exact iff_of_false Bool.false_ne_true NodeKind.noConfusion

theorem isCut_eq_of_bare_eq {k l : NodeKind} (h : k.bare = l.bare) : k.isCut = l.isCut := by
  cases k <;> cases l <;> first | rfl | cases h

theorem isChoice_eq_of_bare_eq {k l : NodeKind} (h : k.bare = l.bare) :
    k.isChoice = l.isChoice := by
  cases k <;> cases l <;> first | rfl | cases h

end NodeKind

/-- The first node is the nearest alternative on the way up from the second one. -/
inductive Graph.Encloses (g : Graph) (a : NodeId) : NodeId → Prop
  | parent {id : NodeId} : (g.node id).parent = some a → (g.node a).kind.isChoice = true →
    Encloses g a id
  | above {id p : NodeId} : (g.node id).parent = some p → (g.node p).kind.isChoice = false →
    Encloses g a p → Encloses g a id

/-- A cut on the way up from which there is no alternative. -/
structure Graph.IsLooseCut (g : Graph) (id : NodeId) : Prop where
  kind : (g.node id).kind = .cut
  loose : ∀ a, ¬g.Encloses a id

namespace Graph

variable {g : Graph} {a id p : NodeId}

theorem encloses_iff (hp : (g.node id).parent = some p) :
    g.Encloses a id ↔ if (g.node p).kind.isChoice then a = p else g.Encloses a p := by
  constructor
  · intro h
    cases h with
    | parent ha hchoice =>
      obtain rfl := Option.some.inj (hp.symm.trans ha)
      rw [if_pos hchoice]
    | above hq hchoice h =>
      obtain rfl := Option.some.inj (hp.symm.trans hq)
      rwa [if_neg (by simp [hchoice])]
  · split
    · next hchoice =>
      rintro rfl
      exact .parent hp hchoice
    · next hchoice => exact .above hp (by simpa using hchoice)

theorem not_encloses_of_root (hp : (g.node id).parent = none) : ¬g.Encloses a id := by
  intro h
  cases h with
  | parent ha | above ha =>
    rw [hp] at ha
    cases ha

theorem isEnclosed_iff (h : g.SearchesEnd) : g.isEnclosed id = true ↔ ∃ a, g.Encloses a id := by
  induction id using h.up.induction with
  | _ id ih =>
    have hstep : g.isEnclosed id = g.enclosedAt g.isEnclosed id := h.enclosure.step id
    rw [hstep, enclosedAt]
    cases hp : (g.node id).parent with
    | none =>
      refine iff_of_false Bool.false_ne_true ?_
      rintro ⟨a, ha⟩
      exact not_encloses_of_root hp ha
    | some p =>
      dsimp only
      rw [Bool.or_eq_true, ih p hp]
      simp only [encloses_iff hp]
      by_cases hchoice : (g.node p).kind.isChoice = true
      · simp only [if_pos hchoice]
        exact iff_of_true (.inl hchoice) ⟨p, rfl⟩
      · simp only [if_neg hchoice]
        exact or_iff_right hchoice

theorem mem_looseCuts (h : g.SearchesEnd) :
    id ∈ g.looseCuts ↔ id < g.size ∧ g.IsLooseCut id := by
  rw [looseCuts, List.mem_filter, List.mem_range, Bool.and_eq_true, NodeKind.isCut_iff,
    Bool.not_eq_true', ← Bool.not_eq_true, isEnclosed_iff h, not_exists]
  exact and_congr_right fun _ => ⟨fun h => ⟨h.1, h.2⟩, fun h => ⟨h.kind, h.loose⟩⟩

theorem sorted_looseCuts (g : Graph) : g.looseCuts.Pairwise (· < ·) :=
  List.Pairwise.filter _ List.pairwise_lt_range

section Alike

variable {g' : Graph}

theorem isEnclosedWithin_congr (h : ∀ id, (g.node id).Alike (g'.node id)) (fuel : Nat)
    (id : NodeId) : g.isEnclosedWithin fuel id = g'.isEnclosedWithin fuel id := by
  induction fuel generalizing id with
  | zero => rfl
  | succ fuel ih =>
    rw [isEnclosedWithin, isEnclosedWithin, (h id).parent]
    cases (g'.node id).parent with
    | none => rfl
    | some p =>
      dsimp only
      rw [ih, NodeKind.isChoice_eq_of_bare_eq (h p).kind]

theorem looseCuts_congr (h : ∀ id, (g.node id).Alike (g'.node id)) (hsize : g.size = g'.size) :
    g.looseCuts = g'.looseCuts := by
  have hsame : ∀ id, ((g.node id).kind.isCut && !g.isEnclosed id) =
      ((g'.node id).kind.isCut && !g'.isEnclosed id) := by
    intro id
    rw [NodeKind.isCut_eq_of_bare_eq (h id).kind, isEnclosed, isEnclosed, hsize,
      isEnclosedWithin_congr h]
  unfold looseCuts
  rw [hsize, List.filter_congr fun id _ => hsame id]

end Alike

end Graph

namespace Grammar

theorem warnings_parse {source : String} {settings : EngineSettings} {g : Grammar}
    (h : parse source settings = .ok g) :
    g.warnings = g.graph.looseCuts.map fun id => ⟨(g.graph.node id).position⟩ := by
  obtain ⟨trees, -, htrees⟩ := exists_trees h
  have halike : ∀ id, (g.graph.node id).Alike ((laidOut trees).node id) :=
    fun id => (node_ofTrees htrees id).1
  have hsize : g.graph.size = (laidOut trees).size := by
    rw [(ofTrees_eq_ok htrees).2, Graph.size_withDistributions, Graph.size_withFiniteRules]
  have hwarnings : g.warnings = (laidOut trees).looseCuts.map fun id =>
      ⟨((laidOut trees).node id).position⟩ := by
    rw [(ofTrees_eq_ok htrees).2]
  rw [hwarnings, Graph.looseCuts_congr halike hsize]
  exact List.map_congr_left fun id _ => by rw [(halike id).position]

theorem mem_looseCuts_parse {source : String} {settings : EngineSettings} {g : Grammar}
    (h : parse source settings = .ok g) (id : NodeId) :
    id ∈ g.graph.looseCuts ↔ g.graph.IsLooseCut id := by
  rw [Graph.mem_looseCuts (isForest_parse h).searchesEnd]
  exact and_iff_right_of_imp fun hcut =>
    inside_of_kind (by rw [hcut.kind]; exact NodeKind.noConfusion)

end Grammar

end Ebnf
