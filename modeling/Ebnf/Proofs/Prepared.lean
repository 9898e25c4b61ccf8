import Ebnf.Proofs.FiniteRules

/-! What parsing works out stays right. Which rules are finite and which options are escapes hangs
on the shape of a grammar alone, and settings change nothing in it but bounds and weights. -/

namespace Ebnf

namespace NodeKind

/-- A kind without the weights of its choice. Its escapes stay. -/
def unweighted : NodeKind → NodeKind
  | choice options _ escapes => choice options (.uniform 0) escapes
  | kind => kind

theorem bare_unweighted (k : NodeKind) : k.unweighted.bare = k.bare := by
  cases k <;> rfl

theorem bare_eq_of_unweighted_eq {k l : NodeKind} (h : k.unweighted = l.unweighted) :
    k.bare = l.bare := by
  have hbare := congrArg bare h
  rwa [bare_unweighted, bare_unweighted] at hbare

theorem exists_of_unweighted_choice {k : NodeKind} {options : List NodeId}
    {weights escapes : Distribution}
    (h : k.unweighted = (choice options weights escapes).unweighted) :
    ∃ weights', k = choice options weights' escapes := by
  cases k with
  | choice =>
    obtain ⟨rfl, -, rfl⟩ := choice.inj h
    exact ⟨_, rfl⟩
  | _ => cases h

end NodeKind

namespace Graph

variable {g g' : Graph}

theorem referencesWithin_congr (h : ∀ id, (g.node id).kind.bare = (g'.node id).kind.bare)
    (fuel id : Nat) : g.referencesWithin fuel id = g'.referencesWithin fuel id := by
  induction fuel generalizing id with
  | zero => rfl
  | succ fuel ih =>
    have hsame : g.referencesWithin fuel = g'.referencesWithin fuel := funext ih
    have hbare := h id
    unfold referencesWithin
    rw [hsame]
    revert hbare
    cases (g.node id).kind <;> cases (g'.node id).kind <;> intro hbare <;> cases hbare <;> rfl

theorem recursesWithin_congr (h : ∀ id, (g.node id).kind.bare = (g'.node id).kind.bare)
    (hfinite : g.finiteRules = g'.finiteRules) (fuel id : Nat) :
    g.recursesWithin fuel id = g'.recursesWithin fuel id := by
  have hisFinite : g.isFinite = g'.isFinite := by
    unfold isFinite
    rw [hfinite]
  induction fuel generalizing id with
  | zero => rfl
  | succ fuel ih =>
    have hsame : g.recursesWithin fuel = g'.recursesWithin fuel := funext ih
    have hbare := h id
    unfold recursesWithin
    rw [hsame, hisFinite]
    revert hbare
    cases (g.node id).kind <;> cases (g'.node id).kind <;> intro hbare <;> cases hbare <;> rfl

theorem referencedRules_congr (hsize : g.size = g'.size)
    (h : ∀ id, (g.node id).kind.bare = (g'.node id).kind.bare) :
    g.referencedRules = g'.referencedRules := by
  funext id
  unfold referencedRules
  rw [hsize]
  exact referencesWithin_congr h _ id

theorem isPotentiallyRecursive_congr (hsize : g.size = g'.size)
    (h : ∀ id, (g.node id).kind.bare = (g'.node id).kind.bare)
    (hfinite : g.finiteRules = g'.finiteRules) :
    g.isPotentiallyRecursive = g'.isPotentiallyRecursive := by
  funext id
  unfold isPotentiallyRecursive
  rw [hsize]
  exact recursesWithin_congr h hfinite _ id

theorem occurrence_bare (once repeated : NodeId → Attempt) (id : NodeId) (k : NodeKind) :
    occurrence once repeated id k.bare = occurrence once repeated id k := by
  cases k <;> rfl

theorem attempt_congr (h : ∀ id, (g.node id).kind.bare = (g'.node id).kind.bare)
    (hrepetition : ∀ id, (g.node id).repetition = (g'.node id).repetition) (fuel : Nat) :
    g.attempt fuel = g'.attempt fuel := by
  induction fuel with
  | zero => rfl
  | succ fuel ih =>
    funext id c s
    unfold attempt
    simp only [ih, hrepetition]
    rw [← occurrence_bare, h id, occurrence_bare]

theorem matchText_congr (hsize : g.size = g'.size)
    (h : ∀ id, (g.node id).kind.bare = (g'.node id).kind.bare)
    (hrepetition : ∀ id, (g.node id).repetition = (g'.node id).repetition) :
    g.matchText = g'.matchText := by
  have hnode : g.matchNode = g'.matchNode := by
    funext fuel id
    unfold matchNode
    rw [hrepetition id, attempt_congr h hrepetition fuel]
  funext root text trace
  unfold matchText enough
  rw [hsize, hnode]

theorem bare_withDistributions (g : Graph) (id : NodeId) :
    (g.withDistributions.node id).kind.bare = (g.node id).kind.bare := by
  rw [node_withDistributions]
  exact bare_distributed g _

theorem finiteRules_withFiniteRules_congr {rules : List NodeId}
    (h : g.referencedRules = g'.referencedRules) :
    (g.withFiniteRules rules).finiteRules = (g'.withFiniteRules rules).finiteRules := by
  unfold withFiniteRules
  rw [h]

theorem choice_withDistributions {id : NodeId} {options : List NodeId}
    {weights escapes : Distribution}
    (h : (g.withDistributions.node id).kind = .choice options weights escapes) :
    weights = .uniform options.length ∧
      escapes = .indicator (options.map fun o => !g.isPotentiallyRecursive o) := by
  rw [node_withDistributions] at h
  dsimp only at h
  cases hk : (g.node id).kind with
  | choice =>
    rw [hk] at h
    obtain ⟨rfl, rfl, rfl⟩ := NodeKind.choice.inj h
    exact ⟨rfl, rfl⟩
  | _ =>
    rw [hk] at h
    cases h

theorem finiteRules_withDistributions (g : Graph) (rules : List NodeId) :
    (g.withFiniteRules rules).withDistributions.finiteRules =
      ((g.withFiniteRules rules).withDistributions.withFiniteRules rules).finiteRules := by
  have hsize : g.size = (g.withFiniteRules rules).withDistributions.size := by
    rw [size_withDistributions, size_withFiniteRules]
  have hreferenced := referencedRules_congr hsize fun id =>
    (bare_withDistributions (g.withFiniteRules rules) id).symm
  exact finiteRules_withFiniteRules_congr hreferenced

/-- Two graphs that differ at most in bounds for generating and in weights. -/
structure Reweighs (g fresh : Graph) : Prop where
  size : g.size = fresh.size
  finiteRules : g.finiteRules = fresh.finiteRules
  kind (id : NodeId) : (g.node id).kind.unweighted = (fresh.node id).kind.unweighted

namespace Reweighs

variable {fresh : Graph}

theorem refl (g : Graph) : g.Reweighs g := ⟨rfl, rfl, fun _ => rfl⟩

theorem modify (h : g.Reweighs fresh) (id : NodeId) {f : Node → Node}
    (hf : ∀ n, (f n).kind.unweighted = n.kind.unweighted) : (g.modify id f).Reweighs fresh := by
  refine ⟨?_, h.finiteRules, fun other => ?_⟩
  · rw [← h.size]
    exact Array.size_modify
  · rcases node_modify g id f other with heq | ⟨-, heq⟩
    · rw [heq]
      exact h.kind other
    · rw [heq, hf]
      exact h.kind other

theorem setYield (h : g.Reweighs fresh) (u : NodeUpdate) : (g.setYield u).Reweighs fresh :=
  h.modify u.id fun _ => rfl

theorem setWeightsOf (h : g.Reweighs fresh) (u : NodeUpdate) :
    (g.setWeightsOf u).Reweighs fresh := by
  unfold Graph.setWeightsOf
  split
  · refine h.modify _ fun n => ?_
    cases n.kind <;> rfl
  · exact h

theorem update (h : g.Reweighs fresh) (updates : List NodeUpdate) :
    (g.update updates).Reweighs fresh := by
  have hyields : (updates.foldl Graph.setYield g).Reweighs fresh :=
    List.foldlRecOn (motive := fun g => g.Reweighs fresh) updates Graph.setYield h
      fun g hg u _ => hg.setYield u
  exact List.foldlRecOn (motive := fun g => g.Reweighs fresh) updates Graph.setWeightsOf hyields
    fun g hg u _ => hg.setWeightsOf u

theorem bare (h : g.Reweighs fresh) (id : NodeId) :
    (g.node id).kind.bare = (fresh.node id).kind.bare :=
  NodeKind.bare_eq_of_unweighted_eq (h.kind id)

end Reweighs

end Graph

namespace Grammar

theorem IsLinked.of_isSetFrom {g fresh : Grammar} (hfresh : fresh.IsLinked)
    (hset : g.IsSetFrom fresh) (hsize : g.graph.size = fresh.graph.size) : g.IsLinked := by
  have hbare : ∀ id, (fresh.graph.node id).kind.bare = (g.graph.node id).kind.bare :=
    fun id => (hset.graph id).alike.kind.symm
  constructor
  · intro id c hc
    rw [(hset.graph id).alike.children] at hc
    rw [hsize]
    exact hfresh.child hc
  · refine Subrelation.wf (fun {c id} hc => ?_) hfresh.down
    rwa [Graph.HasChild, (hset.graph id).alike.children] at hc
  · intro id rule target hid hk
    rw [hsize] at hid
    rw [hset.rules]
    exact hfresh.reference hid (NodeKind.eq_of_bare_eq ((hbare id).trans (congrArg _ hk)) rfl)
  · intro id positive operand hk
    exact hfresh.operand (NodeKind.eq_of_bare_eq ((hbare id).trans (congrArg _ hk)) rfl)
  · intro rule id hroot
    rw [hset.rules] at hroot
    obtain ⟨hid, hrepetition, children, hk⟩ := hfresh.root hroot
    refine ⟨hsize ▸ hid, (hset.graph id).alike.repetition.trans hrepetition, children, ?_⟩
    exact NodeKind.eq_of_bare_eq ((hbare id).symm.trans (congrArg _ hk)) rfl

theorem isPrepared_ofTrees {trees : List RuleTree} {settings : EngineSettings} {g : Grammar}
    (h : ofTrees trees settings = .ok g) : g.IsPrepared := by
  have hlinked := isLinked_ofTrees h
  obtain ⟨-, rfl⟩ := ofTrees_eq_ok h
  have hbare := Graph.bare_withDistributions
    ((laidOut trees).withFiniteRules ((RuleTree.index 0 trees).map Prod.snd))
  refine ⟨hlinked, ?_, fun {id options weights escapes} hk => ?_⟩
  · exact Graph.finiteRules_withDistributions (laidOut trees) _
  · have hrecursive := Graph.isPotentiallyRecursive_congr (Graph.size_withDistributions _) hbare rfl
    rw [hrecursive]
    exact (Graph.choice_withDistributions hk).2

theorem isPrepared_parse {source : String} {settings : EngineSettings} {g : Grammar}
    (h : parse source settings = .ok g) : g.IsPrepared := by
  obtain ⟨trees, -, htrees⟩ := exists_trees h
  exact isPrepared_ofTrees htrees

theorem IsPrepared.of_isSetFrom {g fresh : Grammar} (hfresh : fresh.IsPrepared)
    (hset : g.IsSetFrom fresh) (h : g.graph.Reweighs fresh.graph) : g.IsPrepared := by
  refine ⟨hfresh.linked.of_isSetFrom hset h.size, ?_, fun {id options weights escapes} hk => ?_⟩
  · have hreferenced := Graph.referencedRules_congr h.size h.bare
    rw [h.finiteRules, hfresh.finiteRules, hset.rules]
    exact (Graph.finiteRules_withFiniteRules_congr hreferenced).symm
  · have hkind := h.kind id
    rw [hk] at hkind
    obtain ⟨weights', hfreshKind⟩ := NodeKind.exists_of_unweighted_choice hkind.symm
    rw [Graph.isPotentiallyRecursive_congr h.size h.bare h.finiteRules]
    exact hfresh.escapes hfreshKind

theorem reweighs_configure {g g' : Grammar} {rule : String} {settings : RuleSettings}
    (h : g.configure rule settings = .ok g') {fresh : Graph} (hg : g.graph.Reweighs fresh) :
    g'.graph.Reweighs fresh := by
  unfold Grammar.configure at h
  obtain ⟨root, -, h⟩ := bind_eq_ok.1 h
  obtain ⟨updates, -, h⟩ := bind_eq_ok.1 h
  cases h
  exact hg.update updates

end Grammar

namespace Engine

theorem reweighs_callAll (e : Engine) (calls : List Call) :
    (e.callAll calls).grammar.graph.Reweighs e.grammar.graph := by
  refine List.foldlRecOn (motive := fun e' => e'.grammar.graph.Reweighs e.grammar.graph) calls call
    (.refl _) fun e' he' c _ => ?_
  cases c with
  | configure rule settings =>
    simp only [call]
    split
    · next hok =>
      obtain ⟨g, hg, heq⟩ := map_eq_ok.1 hok
      cases heq
      exact Grammar.reweighs_configure hg he'
    · exact he'
  | setSettings settings => exact he'

theorem grammar_parse {source : String} {settings : EngineSettings} {e : Engine}
    (h : parse source settings = .ok e) : Grammar.parse source settings = .ok e.grammar := by
  obtain ⟨g, hg, heq⟩ := bind_eq_ok.1 h
  cases heq
  exact hg

/-- However a grammar was set up, its finite rules and its escapes are those that its shape
demands. -/
theorem isPrepared_callAll {source : String} {settings : EngineSettings} {e : Engine}
    (h : parse source settings = .ok e) (calls : List Call) :
    (e.callAll calls).grammar.IsPrepared :=
  (Grammar.isPrepared_parse (grammar_parse h)).of_isSetFrom (isSetFrom_callAll h calls)
    (reweighs_callAll e calls)

end Engine

end Ebnf
