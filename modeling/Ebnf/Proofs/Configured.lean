import Ebnf.Engine
import Ebnf.Proofs.Syntax.Checked

/-! Grammars in use. Whatever is set, and whatever is refused, the nodes stay those of the source:
only their bounds for generating and the weights of their alternatives change, and the bounds stay
inside those that the grammar declares. -/

namespace Ebnf

theorem bind_eq_ok {ε α β : Type} {x : Except ε α} {f : α → Except ε β} {b : β} :
    x >>= f = .ok b ↔ ∃ a, x = .ok a ∧ f a = .ok b := by
  cases x <;> simp [bind, Except.bind]

theorem exists_of_mapM {ε α β : Type} {f : α → Except ε β} {as : List α} {bs : List β}
    (h : as.mapM f = .ok bs) : ∀ b ∈ bs, ∃ a ∈ as, f a = .ok b := by
  induction as generalizing bs with
  | nil =>
    cases h
    exact nofun
  | cons a as ih =>
    rw [List.mapM_cons] at h
    obtain ⟨b, hb, h⟩ := bind_eq_ok.1 h
    obtain ⟨rest, hrest, h⟩ := bind_eq_ok.1 h
    cases h
    refine List.forall_mem_cons.2 ⟨⟨a, List.mem_cons_self, hb⟩, fun c hc => ?_⟩
    obtain ⟨a', ha', hc⟩ := ih hrest c hc
    exact ⟨a', List.mem_cons_of_mem _ ha', hc⟩

structure Yield.Narrows (y : Yield) (declared : Repetition) : Prop where
  min : declared.min ≤ y.min
  max {bound : Nat} : declared.max = some bound → ∃ max ≤ bound, y.max = some max
  proper {max : Nat} : y.max = some max → y.min ≤ max

/-- Two nodes that differ at most in their bounds for generating, which stay inside those declared,
and in their distributions. -/
structure Node.IsSetFrom (n fresh : Node) : Prop where
  alike : n.Alike fresh
  yield : n.yield.Narrows fresh.repetition

theorem Node.IsFresh.isSetFrom {n : Node} (h : n.IsFresh) : n.IsSetFrom n := by
  refine ⟨.refl n, ?_⟩
  rw [h.yield]
  exact ⟨Nat.le_refl _, fun hmax => ⟨_, Nat.le_refl _, hmax⟩, fun hmax => h.repetition _ hmax⟩

namespace NodeSettings

theorem maxWithin_eq_ok {declared max : Option Nat} {wanted : Int}
    (h : maxWithin declared wanted = .ok max) {bound : Nat} (hdeclared : declared = some bound) :
    ∃ m ≤ bound, max = some m := by
  subst hdeclared
  cases wanted with
  | negSucc n => cases h
  | ofNat m =>
    simp only [maxWithin] at h
    split at h
    · cases h
    · next hle =>
      cases h
      exact ⟨m, Nat.not_lt.1 hle, rfl⟩

theorem withMin_eq_ok {min : Option Nat} {declared : Repetition} {bounds y : Yield}
    (h : withMin min declared bounds = .ok y) (hmin : declared.min ≤ bounds.min) :
    declared.min ≤ y.min ∧ y.max = bounds.max := by
  unfold withMin at h
  split at h
  · cases h
    exact ⟨hmin, rfl⟩
  · split at h
    · cases h
    · next hle =>
      cases h
      exact ⟨Nat.not_lt.1 hle, rfl⟩

theorem withMax_eq_ok {max : Option Int} {declared : Repetition} {bounds y : Yield}
    (h : withMax max declared bounds = .ok y)
    (hmax : ∀ {bound}, declared.max = some bound → ∃ m ≤ bound, bounds.max = some m) :
    y.min = bounds.min ∧ ∀ {bound}, declared.max = some bound → ∃ m ≤ bound, y.max = some m := by
  unfold withMax at h
  split at h
  · cases h
    exact ⟨rfl, hmax⟩
  · obtain ⟨m, hwithin, heq⟩ := map_eq_ok.1 h
    cases heq
    exact ⟨rfl, maxWithin_eq_ok hwithin⟩

theorem inOrder_eq_ok {bounds y : Yield} (h : inOrder bounds = .ok y) :
    y = bounds ∧ ∀ {max}, bounds.max = some max → bounds.min ≤ max := by
  unfold inOrder at h
  split at h
  · next hnone =>
    cases h
    exact ⟨rfl, fun hsome => absurd (hnone.symm.trans hsome) nofun⟩
  · next hsome =>
    split at h
    · cases h
    · next hle =>
      cases h
      refine ⟨rfl, fun hmax => ?_⟩
      obtain rfl := Option.some.inj (hsome.symm.trans hmax)
      exact Nat.not_lt.1 hle

theorem withPow_eq_ok {pow : Option Double} {bounds y : Yield} (h : withPow pow bounds = .ok y) :
    y.min = bounds.min ∧ y.max = bounds.max := by
  unfold withPow at h
  split at h
  · cases h
    exact ⟨rfl, rfl⟩
  · split at h <;> cases h
    exact ⟨rfl, rfl⟩

theorem narrows_yieldFor {s : NodeSettings} {n : Node} {y : Yield} (h : s.yieldFor n = .ok y)
    (hn : n.yield.Narrows n.repetition) : y.Narrows n.repetition := by
  unfold yieldFor at h
  obtain ⟨lower, hlower, hrest⟩ := bind_eq_ok.1 h
  obtain ⟨upper, hupper, hlast⟩ := bind_eq_ok.1 hrest
  obtain ⟨both, hboth, hpow⟩ := bind_eq_ok.1 hlast
  obtain ⟨hmin, hsame⟩ := withMin_eq_ok hlower hn.min
  obtain ⟨hkept, hmax⟩ := withMax_eq_ok hupper fun hbound => hsame ▸ hn.max hbound
  obtain ⟨rfl, hproper⟩ := inOrder_eq_ok hboth
  obtain ⟨hymin, hymax⟩ := withPow_eq_ok hpow
  refine ⟨?_, fun hbound => ?_, fun hbound => ?_⟩
  · rw [hymin, hkept]
    exact hmin
  · rw [hymax]
    exact hmax hbound
  · rw [hymin]
    exact hproper (hymax ▸ hbound)

theorem updateFor_eq_ok {s : NodeSettings} {g : Graph} {id : NodeId} {u : NodeUpdate}
    (h : s.updateFor g id = .ok u) : u.id = id ∧ s.yieldFor (g.node id) = .ok u.yield := by
  unfold updateFor at h
  obtain ⟨y, hy, h⟩ := bind_eq_ok.1 h
  split at h
  · cases h
    exact ⟨rfl, hy⟩
  · split at h
    · cases h
    · obtain ⟨d, -, heq⟩ := map_eq_ok.1 h
      cases heq
      exact ⟨rfl, hy⟩

end NodeSettings

namespace Graph

theorem node_modify (g : Graph) (id : NodeId) (f : Node → Node) (other : NodeId) :
    (g.modify id f).node other = g.node other ∨
      other = id ∧ (g.modify id f).node other = f (g.node other) := by
  by_cases hid : other < g.nodes.size
  · by_cases heq : id = other
    · exact .inr ⟨heq.symm, by simp [node, modify, hid, heq, Array.getElem_modify_self]⟩
    · exact .inl (by simp [node, modify, hid, Array.getElem_modify_of_ne heq])
  · exact .inl (by simp [node, modify, hid])

def IsSetFrom (g fresh : Graph) : Prop := ∀ id, (g.node id).IsSetFrom (fresh.node id)

variable {g fresh : Graph}

theorem IsSetFrom.setYield (h : g.IsSetFrom fresh) {u : NodeUpdate}
    (hu : u.yield.Narrows (fresh.node u.id).repetition) : (g.setYield u).IsSetFrom fresh := by
  intro id
  rcases node_modify g u.id (fun n => { n with yield := u.yield }) id with heq | ⟨rfl, heq⟩
  · unfold Graph.setYield
    rw [heq]
    exact h id
  · unfold Graph.setYield
    rw [heq]
    obtain ⟨hkind, hposition, hrepetition, hlabel, hparent⟩ := (h u.id).alike
    exact ⟨⟨hkind, hposition, hrepetition, hlabel, hparent⟩, hu⟩

theorem IsSetFrom.setWeightsOf (h : g.IsSetFrom fresh) (u : NodeUpdate) :
    (g.setWeightsOf u).IsSetFrom fresh := by
  unfold Graph.setWeightsOf
  split
  · next target d _ =>
    intro id
    rcases node_modify g target _ id with heq | ⟨rfl, heq⟩
    · unfold setWeights modifyKind
      rw [heq]
      exact h id
    · unfold setWeights modifyKind
      rw [heq]
      obtain ⟨⟨hkind, hposition, hrepetition, hlabel, hparent⟩, hyield⟩ := h id
      refine ⟨⟨?_, hposition, hrepetition, hlabel, hparent⟩, hyield⟩
      rw [← hkind]
      cases (g.node id).kind <;> rfl
  · exact h

theorem IsSetFrom.update {updates : List NodeUpdate} (h : g.IsSetFrom fresh)
    (hupdates : ∀ u ∈ updates, u.yield.Narrows (fresh.node u.id).repetition) :
    (g.update updates).IsSetFrom fresh := by
  -- all bounds are set before any weights
  have hyields : (updates.foldl Graph.setYield g).IsSetFrom fresh :=
    List.foldlRecOn (motive := fun g => g.IsSetFrom fresh) updates Graph.setYield h
      fun g hg u hu => hg.setYield (hupdates u hu)
  exact List.foldlRecOn (motive := fun g => g.IsSetFrom fresh) updates Graph.setWeightsOf hyields
    fun g hg u _ => hg.setWeightsOf u

end Graph

namespace Grammar

/-- A grammar in use: the rules of another one, with its nodes set anew. -/
structure IsSetFrom (g fresh : Grammar) : Prop where
  rules : g.rules = fresh.rules
  graph : g.graph.IsSetFrom fresh.graph

theorem exists_entry_of_updatesFor {g : Grammar} {rule : String} {root : NodeId}
    {settings : RuleSettings} {updates : List NodeUpdate}
    (h : g.updatesFor rule root settings = .ok updates) : ∀ u ∈ updates,
      ∃ entry ∈ settings.entries, ∃ id, g.graph.findLabelled root entry.1 = some id ∧
        entry.2.updateFor g.graph id = .ok u := by
  intro u hu
  obtain ⟨⟨label, s⟩, hentry, hupdate⟩ := exists_of_mapM h u hu
  simp only at hupdate
  split at hupdate
  · cases hupdate
  · next id hfound =>
    refine ⟨_, hentry, id, hfound, ?_⟩
    cases hs : s.updateFor g.graph id <;> simp_all [Except.mapError]

theorem IsSetFrom.configure {g g' fresh : Grammar} {rule : String} {settings : RuleSettings}
    (h : g.configure rule settings = .ok g') (hg : g.IsSetFrom fresh) : g'.IsSetFrom fresh := by
  unfold Grammar.configure at h
  obtain ⟨root, -, h⟩ := bind_eq_ok.1 h
  obtain ⟨updates, hupdates, h⟩ := bind_eq_ok.1 h
  cases h
  refine ⟨hg.rules, hg.graph.update fun u hu => ?_⟩
  obtain ⟨⟨label, s⟩, -, id, -, hmade⟩ := exists_entry_of_updatesFor hupdates u hu
  obtain ⟨rfl, hyield⟩ := NodeSettings.updateFor_eq_ok hmade
  have hset := hg.graph u.id
  rw [← hset.alike.repetition]
  exact NodeSettings.narrows_yieldFor hyield (hset.alike.repetition ▸ hset.yield)

end Grammar

inductive Call where
  | configure (rule : String) (settings : RuleSettings)
  | setSettings (settings : EngineSettings)

namespace Engine

def call (e : Engine) : Call → Engine
  | .configure rule settings =>
    match e.configure rule settings with
    | .ok e' => e'
    | .error _ => e
  | .setSettings settings => e.setSettings settings

def callAll (e : Engine) (calls : List Call) : Engine := calls.foldl call e

theorem isSetFrom_call {e : Engine} {fresh : Grammar} (h : e.grammar.IsSetFrom fresh) (c : Call) :
    (e.call c).grammar.IsSetFrom fresh := by
  cases c with
  | configure rule settings =>
    simp only [call]
    split
    · next hok =>
      obtain ⟨g, hg, heq⟩ := map_eq_ok.1 hok
      cases heq
      exact h.configure hg
    · exact h
  | setSettings settings => exact ⟨h.rules, h.graph⟩

/-- However a grammar was set up, its nodes are those of its source, and they are written within the
bounds declared there. -/
theorem isSetFrom_callAll {source : String} {settings : EngineSettings} {e : Engine}
    (h : parse source settings = .ok e) (calls : List Call) :
    (e.callAll calls).grammar.IsSetFrom e.grammar := by
  obtain ⟨g, hg, heq⟩ := bind_eq_ok.1 h
  cases heq
  refine List.foldlRecOn (motive := fun e => e.grammar.IsSetFrom g) calls call ?_
    fun e he c _ => isSetFrom_call he c
  exact ⟨rfl, fun id => (Grammar.isFresh_parse hg id).isSetFrom⟩

end Engine

end Ebnf
