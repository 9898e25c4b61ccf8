import Ebnf.Proofs.Generated
import Ebnf.Proofs.Nesting

/-! Grammars with a way out. Past the depth limit an alternative takes an option below which only
finite rules are referred to. What is still to be expanded then was reached without an alternative,
and where such walks come to an end, they do so before twice the limit. -/

namespace Ebnf

variable {σ : Type}

namespace Grammar

def FreeChild (g : Grammar) (id c : NodeId) : Prop :=
  g.graph.Writes id c ∧ (g.graph.node id).kind.isChoice = false

def WeighsEqually (g : Grammar) : Prop :=
  ∀ {id options weights escapes}, (g.graph.node id).kind = .choice options weights escapes →
    weights = .uniform options.length

section

variable {g : Grammar}

theorem Recurses.of_writes {id c : NodeId} (hc : g.graph.Writes id c) (h : g.Recurses c) :
    g.Recurses id := by
  obtain ⟨x, rule, target, hpath, hk, hinfinite⟩ := h
  exact ⟨x, rule, target, .head hc hpath, hk, hinfinite⟩

theorem IsFiniteRule.not_recurses {rule : String} {root : NodeId} (h : g.IsFiniteRule rule)
    (hroot : g.rules.lookup rule = some root) : ¬g.Recurses root := by
  rintro ⟨x, rule', target, hpath, hk, hinfinite⟩
  exact hinfinite (h.inv ⟨root, x, target, hroot, hpath, hk⟩)

theorem weighsEqually_parse {source : String} {settings : EngineSettings}
    (h : parse source settings = .ok g) : g.WeighsEqually := by
  obtain ⟨trees, -, htrees⟩ := exists_trees h
  obtain ⟨-, rfl⟩ := ofTrees_eq_ok htrees
  exact fun hk => (Graph.choice_withDistributions hk).1

theorem IsPrepared.mem_marks (hg : g.IsPrepared) {id : Nat} {options : List NodeId}
    {weights escapes : Distribution} (hk : (g.graph.node id).kind = .choice options weights escapes)
    {o : NodeId} (ho : o ∈ options) (hescape : ¬g.Recurses o) :
    true ∈ options.map fun o => !g.graph.isPotentiallyRecursive o := by
  have hchild : o ∈ (g.graph.node id).kind.children := by
    rw [hk]
    exact ho
  refine List.mem_map.2 ⟨o, ho, ?_⟩
  rw [Bool.not_eq_true', Bool.eq_false_iff]
  exact fun h => hescape ((hg.isPotentiallyRecursive_iff (hg.linked.child hchild).2).1 h)

end

end Grammar

def Writer.Completes (write : Writer σ) : Prop :=
  ∀ d d', write d = some d' → d'.overflows = d.overflows

namespace Writer.Completes

theorem times {write : Writer σ} (h : write.Completes) (count : Nat) :
    (Writer.times write count).Completes := by
  induction count with
  | zero =>
    intro d d' hd
    cases hd
    rfl
  | succ count ih =>
    intro d d' hd
    rw [Writer.times] at hd
    split at hd
    · next d₁ hfirst => exact (ih d₁ d' hd).trans (h d d₁ hfirst)
    · cases hd

theorem inTurn {write : NodeId → Writer σ} {ids : List NodeId}
    (h : ∀ id ∈ ids, (write id).Completes) : (Writer.inTurn write ids).Completes := by
  induction ids with
  | nil =>
    intro d d' hd
    cases hd
    rfl
  | cons id ids ih =>
    intro d d' hd
    obtain ⟨hid, hids⟩ := List.forall_mem_cons.1 h
    rw [Writer.inTurn] at hd
    split at hd
    · next d₁ hfirst => exact (ih hids d₁ d' hd).trans (hid d d₁ hfirst)
    · cases hd

end Writer.Completes

namespace Graph

section

variable {g : Grammar} {settings : EngineSettings} {chance : Chance σ}

theorem completes_repeated {once : NodeId → Writer σ} {id : NodeId} (h : (once id).Completes) :
    (g.graph.writeRepeated settings chance once id).Completes := by
  intro d d' hd
  have htimes := h.times _ _ d' hd
  exact htimes

theorem completes_occurrence {depth id : Nat} {once repeated : NodeId → Writer σ}
    (hg : g.IsPrepared) (hid : id < g.graph.size)
    (honce : ∀ {rule target root}, (g.graph.node id).kind = .reference rule target →
      g.rules.lookup rule = some root →
      (g.IsFiniteRule rule ∨ depth ≤ 2 * settings.depthLimit) ∧ (once root).Completes)
    (hfree : ∀ c, g.FreeChild id c → (repeated c).Completes)
    (hoption : ∀ {options weights escapes},
      (g.graph.node id).kind = .choice options weights escapes → ∀ state, ∃ i o,
        (chance.item (if settings.depthLimit < depth then escapes else weights) state).1 = some i ∧
          options[i]? = some o ∧ (repeated o).Completes) :
    Writer.Completes (g.graph.writeOccurrence settings chance depth once repeated
      (g.graph.node id).kind) := by
  intro d d' hd
  unfold Grammar.FreeChild Writes at hfree
  cases hk : (g.graph.node id).kind with
  | terminal literal =>
    rw [hk] at hd
    cases hd
    rfl
  | charClass set =>
    rw [hk] at hd
    simp only [writeOccurrence] at hd
    split at hd
    · cases hd
    · cases hd
      rfl
  | reference rule target =>
    rw [hk] at hd
    obtain ⟨root, rfl, hroot⟩ := hg.linked.reference hid hk
    obtain ⟨hfollowed, hcompletes⟩ := honce hk hroot
    simp only [writeOccurrence] at hd
    split at hd
    · next hblocked =>
      rw [Bool.and_eq_true, Bool.not_eq_true', decide_eq_true_eq] at hblocked
      rcases hfollowed with hfinite | hdepth
      · rw [(hg.isFinite_iff hroot).2 hfinite] at hblocked
        cases hblocked.1
      · omega
    · exact hcompletes d d' hd
  | group children | rule name children =>
    rw [hk] at hd hfree
    exact Writer.Completes.inTurn (fun c hc => hfree c ⟨hc, rfl⟩) d d' hd
  | choice options weights escapes =>
    rw [hk] at hd
    obtain ⟨i, o, hi, ho, hcompletes⟩ := hoption hk d.chance
    simp only [writeOccurrence, hi, Option.bind_some, ho] at hd
    have hwritten := hcompletes _ d' hd
    exact hwritten
  | lookAhead positive operand | cut =>
    rw [hk] at hd
    cases hd
    rfl

end

end Graph

namespace Engine

theorem exists_of_generate {e e' : Engine} {chance : Chance σ} {rule : String} {state state' : σ}
    {sample : Sample} (h : e.generate chance rule state = .ok (some (sample, state', e'))) :
    ∃ root, e.grammar.rules.lookup rule = some root ∧
      e.grammar.graph.generate e.grammar.settings chance
        (e.grammar.graph.enoughToWrite e.grammar.settings) root state = some (sample, state') := by
  obtain ⟨root, hroot, hgenerate⟩ := map_eq_ok.1 (grammar_generate h).1
  exact ⟨root, Grammar.root_eq_ok hroot, hgenerate⟩

theorem complete_of_completes {source : String} {settings : EngineSettings} {e : Engine}
    (h : parse source settings = .ok e) (calls : List Call) {chance : Chance σ} {rule : String}
    {root : NodeId} (hlookup : (e.callAll calls).grammar.rules.lookup rule = some root)
    (honce : ∀ fuel, ((e.callAll calls).grammar.graph.writeOnce (e.callAll calls).grammar.settings
      chance fuel 1 root).Completes) (state : σ) :
    (∀ sample state' e'', (e.callAll calls).generate chance rule state =
      .ok (some (sample, state', e'')) → sample.overflows = 0) ∧
    ((e.callAll calls).grammar.CharsReturn chance → ∃ sample state' e'',
      (e.callAll calls).generate chance rule state = .ok (some (sample, state', e'')) ∧
        sample.overflows = 0) := by
  have hcomplete : ∀ sample state' e'', (e.callAll calls).generate chance rule state =
      .ok (some (sample, state', e'')) → sample.overflows = 0 := by
    intro sample state' e'' hgen
    obtain ⟨root', hroot, hgenerate⟩ := exists_of_generate hgen
    obtain rfl := Option.some.inj (hlookup.symm.trans hroot)
    obtain ⟨d, hwrite, heq⟩ := Option.map_eq_some_iff.1 hgenerate
    cases heq
    exact Graph.completes_repeated (honce _) _ d hwrite
  refine ⟨hcomplete, fun hchars => ?_⟩
  have hg := isPrepared_callAll h calls
  have hroot : (e.callAll calls).grammar.root rule = .ok root := by rw [Grammar.root, hlookup]
  obtain ⟨sample, state', -, -, hgenerate, -⟩ := Graph.exists_generateMetered hg hchars
    (hg.linked.root hlookup).1 (Nat.le_refl _) (Nat.le_refl _) state
  have hgen := generate_eq_ok hroot hgenerate
  exact ⟨sample, state', _, hgen, hcomplete _ _ _ hgen⟩

end Engine

end Ebnf
