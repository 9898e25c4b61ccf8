import Ebnf.Proofs.InPlace
import Ebnf.Proofs.Prepared

/-! Grammars through calls. What calls write are bounds, which stay inside those that the grammar
declares, and weights, one for each option. Everything else is as it was parsed, and so is what
matches. -/

namespace Ebnf

@[simp] theorem Distribution.size_uniform (n : Nat) : (uniform n).size = n := by
  simp [uniform, indicator, size]

/-- The weights of an alternative are one for each option. They are equal, or they were set. -/
structure Distribution.Weighs (d : Distribution) (set : List Float → Prop) (options : Nat) :
    Prop where
  size : d.size = options
  source : d = .uniform options ∨ set d.weights

def Call.sets (calls : List Call) (weights : List Float) : Prop :=
  ∃ rule settings, .configure rule settings ∈ calls ∧ ∃ entry ∈ settings.entries,
    ∃ ws, entry.2.weights = some ws ∧ weights = ws.map Double.toFloat

namespace Graph

def Weighs (g : Graph) (set : List Float → Prop) : Prop :=
  ∀ id options weights escapes, (g.node id).kind = .choice options weights escapes →
    weights.Weighs set options.length

def Fits (g : Graph) (set : List Float → Prop) (u : NodeUpdate) : Prop :=
  ∀ target d, u.weights = some (target, d) → set d.weights ∧
    ∀ options weights escapes, (g.node target).kind = .choice options weights escapes →
      d.size = options.length

variable {g fresh : Graph} {set : List Float → Prop}

theorem Weighs.setYield (h : g.Weighs set) (u : NodeUpdate) : (g.setYield u).Weighs set := by
  intro id options weights escapes hk
  refine h id options weights escapes ?_
  rcases node_modify g u.id (fun n => { n with yield := u.yield }) id with heq | ⟨-, heq⟩
  · rwa [Graph.setYield, heq] at hk
  · rwa [Graph.setYield, heq] at hk

theorem Weighs.setWeightsOf (h : g.Weighs set) (hg : g.Reweighs fresh) {u : NodeUpdate}
    (hu : fresh.Fits set u) : (g.setWeightsOf u).Weighs set := by
  unfold Graph.setWeightsOf
  split
  · next target d hweights =>
    obtain ⟨hset, hsize⟩ := hu target d hweights
    intro id options weights escapes hk
    unfold setWeights modifyKind at hk
    rcases node_modify g target _ id with heq | ⟨rfl, heq⟩
    · rw [heq] at hk
      exact h id options weights escapes hk
    · rw [heq] at hk
      dsimp only at hk
      cases hold : (g.node id).kind with
      | choice options' weights' escapes' =>
        rw [hold] at hk
        obtain ⟨rfl, rfl, rfl⟩ := NodeKind.choice.inj hk
        -- an alternative has the options that it had before any call
        have hkind := hg.kind id
        rw [hold] at hkind
        obtain ⟨freshWeights, hfresh⟩ := NodeKind.exists_of_unweighted_choice hkind.symm
        exact ⟨hsize _ _ _ hfresh, .inr hset⟩
      | _ =>
        rw [hold] at hk
        cases hk
  · exact h

theorem Weighs.update (h : g.Weighs set) {updates : List NodeUpdate}
    (hupdates : ∀ u ∈ updates, g.Fits set u) : (g.update updates).Weighs set := by
  have hyields : (updates.foldl Graph.setYield g).Reweighs g ∧
      (updates.foldl Graph.setYield g).Weighs set :=
    List.foldlRecOn (motive := fun g' => g'.Reweighs g ∧ g'.Weighs set) updates Graph.setYield
      ⟨.refl g, h⟩ fun g' hg' u _ => ⟨hg'.1.setYield u, hg'.2.setYield u⟩
  have hweights : (g.update updates).Reweighs g ∧ (g.update updates).Weighs set :=
    List.foldlRecOn (motive := fun g' => g'.Reweighs g ∧ g'.Weighs set) updates Graph.setWeightsOf
      hyields fun g' hg' u hu =>
        ⟨hg'.1.setWeightsOf u, hg'.2.setWeightsOf hg'.1 (hupdates u hu)⟩
  exact hweights.2

end Graph

namespace NodeSettings

theorem distributionOf_eq_ok {weights : List Float} {options : Nat} {d : Distribution}
    (h : distributionOf weights options = .ok d) : d.weights = weights ∧ d.size = options := by
  unfold distributionOf at h
  split at h
  · cases h
  · next hlength =>
    have hmade : Distribution.ofWeights? weights = some d := by
      split at h
      · cases h
      · dsimp only at h
        split at h
        · cases h
        · split at h
          · next hsome =>
            cases h
            exact hsome
          · cases h
    unfold Distribution.ofWeights? at hmade
    split at hmade
    · cases hmade
      exact ⟨rfl, not_not.1 hlength⟩
    · cases hmade

theorem choiceFor_eq_some {g : Graph} {id target : NodeId} {count : Nat}
    (h : choiceFor g id = some (target, count)) :
    ∃ options weights escapes, (g.node target).kind = .choice options weights escapes ∧
      options.length = count := by
  obtain ⟨candidate, -, hfound⟩ := List.exists_of_findSome?_eq_some h
  split at hfound
  · next options weights escapes hk =>
    cases hfound
    exact ⟨options, weights, escapes, hk, rfl⟩
  · cases hfound

theorem fits_updateFor {s : NodeSettings} {g : Graph} {id : NodeId} {u : NodeUpdate}
    (h : s.updateFor g id = .ok u) {set : List Float → Prop}
    (hset : ∀ ws, s.weights = some ws → set (ws.map Double.toFloat)) : g.Fits set u := by
  intro target d hweights
  unfold updateFor at h
  obtain ⟨y, -, h⟩ := bind_eq_ok.1 h
  split at h
  · cases h
    cases hweights
  · next ws hws =>
    split at h
    · cases h
    · next target' count hchoice =>
      obtain ⟨d', hd, heq⟩ := map_eq_ok.1 h
      cases heq
      cases hweights
      obtain ⟨hitems, hsize⟩ := distributionOf_eq_ok hd
      obtain ⟨options, weights, escapes, hk, rfl⟩ := choiceFor_eq_some hchoice
      refine ⟨hitems ▸ hset ws hws, fun options' _ _ hk' => ?_⟩
      obtain ⟨rfl, -, -⟩ := NodeKind.choice.inj (hk.symm.trans hk')
      exact hsize

end NodeSettings

namespace Grammar

variable {g g' : Grammar} {rule : String} {settings : RuleSettings} {calls : List Call}

theorem weighs_parse {source : String} {settings : EngineSettings} {set : List Float → Prop}
    (h : parse source settings = .ok g) : g.graph.Weighs set := by
  obtain ⟨trees, -, htrees⟩ := exists_trees h
  obtain ⟨-, rfl⟩ := ofTrees_eq_ok htrees
  intro id options weights escapes hk
  obtain ⟨rfl, -⟩ := Graph.choice_withDistributions hk
  exact ⟨Distribution.size_uniform _, .inl rfl⟩

theorem weighs_configure {set : List Float → Prop} (h : g.configure rule settings = .ok g')
    (hset : ∀ entry ∈ settings.entries, ∀ ws, entry.2.weights = some ws →
      set (ws.map Double.toFloat)) (hg : g.graph.Weighs set) : g'.graph.Weighs set := by
  unfold configure at h
  obtain ⟨root, -, h⟩ := bind_eq_ok.1 h
  obtain ⟨updates, hupdates, h⟩ := bind_eq_ok.1 h
  cases h
  refine hg.update fun u hu => ?_
  obtain ⟨entry, hentry, id, -, hmade⟩ := exists_entry_of_updatesFor hupdates u hu
  exact NodeSettings.fits_updateFor hmade (hset entry hentry)

theorem warnings_configure (h : g.configure rule settings = .ok g') : g'.warnings = g.warnings := by
  unfold configure at h
  obtain ⟨root, -, h⟩ := bind_eq_ok.1 h
  obtain ⟨updates, -, h⟩ := bind_eq_ok.1 h
  cases h
  rfl

/-- A grammar in use, next to the one that was parsed. Only bounds for generating and weights may
differ. -/
structure IsKept (g fresh : Grammar) (calls : List Call) : Prop where
  rules : g.rules = fresh.rules
  warnings : g.warnings = fresh.warnings
  size : g.graph.size = fresh.graph.size
  finiteRules : g.graph.finiteRules = fresh.graph.finiteRules
  kind (id : NodeId) : (g.graph.node id).kind.unweighted = (fresh.graph.node id).kind.unweighted
  position (id : NodeId) : (g.graph.node id).position = (fresh.graph.node id).position
  repetition (id : NodeId) : (g.graph.node id).repetition = (fresh.graph.node id).repetition
  label (id : NodeId) : (g.graph.node id).label = (fresh.graph.node id).label
  parent (id : NodeId) : (g.graph.node id).parent = (fresh.graph.node id).parent
  bounds (id : NodeId) : (g.graph.node id).yield.Narrows (fresh.graph.node id).repetition
  weights : g.graph.Weighs (Call.sets calls)

theorem IsKept.matchText (h : g.IsKept g' calls) : g.graph.matchText = g'.graph.matchText :=
  Graph.matchText_congr h.size (fun id => NodeKind.bare_eq_of_unweighted_eq (h.kind id))
    h.repetition

end Grammar

namespace Engine

variable {source : String} {settings : EngineSettings} {e : Engine}

theorem isKept_callAll (h : parse source settings = .ok e) (calls : List Call) :
    (e.callAll calls).grammar.IsKept e.grammar calls := by
  have hset := isSetFrom_callAll h calls
  have hkinds := reweighs_callAll e calls
  have hrest : (e.callAll calls).grammar.warnings = e.grammar.warnings ∧
      (e.callAll calls).grammar.graph.Weighs (Call.sets calls) := by
    refine List.foldlRecOn (motive := fun e' : Engine => e'.grammar.warnings = e.grammar.warnings ∧
      e'.grammar.graph.Weighs (Call.sets calls)) calls call
        ⟨rfl, Grammar.weighs_parse (grammar_parse h)⟩ fun e' ⟨hwarnings, hweighs⟩ c hc => ?_
    cases c with
    | configure rule settings =>
      simp only [call]
      split
      · next hok =>
        obtain ⟨g, hg, heq⟩ := map_eq_ok.1 hok
        cases heq
        refine ⟨(Grammar.warnings_configure hg).trans hwarnings, ?_⟩
        refine Grammar.weighs_configure hg (fun entry hentry ws hws => ?_) hweighs
        exact ⟨rule, settings, hc, entry, hentry, ws, hws, rfl⟩
      · exact ⟨hwarnings, hweighs⟩
    | setSettings settings => exact ⟨hwarnings, hweighs⟩
  exact {
    rules := hset.rules
    warnings := hrest.1
    size := hkinds.size
    finiteRules := hkinds.finiteRules
    kind := hkinds.kind
    position := fun id => (hset.graph id).alike.position
    repetition := fun id => (hset.graph id).alike.repetition
    label := fun id => (hset.graph id).alike.label
    parent := fun id => (hset.graph id).alike.parent
    bounds := fun id => (hset.graph id).yield
    weights := hrest.2 }

theorem grammar_call (e : Engine) (rule : String) (settings : RuleSettings) :
    (e.call (.configure rule settings)).grammar =
      ((Grammar.configureInPlace rule settings).after e.grammar).2 := by
  rw [Grammar.after_configureInPlace]
  simp only [call, configure]
  cases e.grammar.configure rule settings <;> rfl

/-- Whatever is called, and whatever of it is refused, a grammar stays within what was parsed and
matches what it matched. A call is refused if any of its entries is at fault, and then it leaves the
grammar as it was. -/
theorem callAll_keeps (h : parse source settings = .ok e) (calls : List Call) :
    (e.callAll calls).grammar.IsKept e.grammar calls ∧
    (∀ rule text, ∀ settings' : EngineSettings,
      settings'.traceMatches = (e.callAll calls).grammar.settings.traceMatches →
        (e.callAll calls).matchRule rule text = (e.setSettings settings').matchRule rule text) ∧
    ∀ rule settings answer g,
      (Grammar.configureInPlace rule settings).after (e.callAll calls).grammar = (answer, g) →
        (e.callAll (calls ++ [.configure rule settings])).grammar = g ∧
        (∀ err, answer = .error err → g = (e.callAll calls).grammar) ∧
        ((∃ err, answer = .error err) ↔ e.grammar.rules.lookup rule = none ∨
          ∃ root, e.grammar.rules.lookup rule = some root ∧ ∃ entry ∈ settings.entries,
            ∃ err, (e.callAll calls).grammar.updateOf rule root entry = .error err) := by
  have hkept := isKept_callAll h calls
  refine ⟨hkept, fun rule text settings' htrace => ?_, fun rule settings answer g hafter => ?_⟩
  · unfold matchRule Grammar.matchRule Grammar.root
    rw [hkept.rules, hkept.matchText, ← htrace]
    rfl
  · have hcall : (e.callAll (calls ++ [.configure rule settings])).grammar = g := by
      rw [callAll, List.foldl_append]
      have hlast := grammar_call (e.callAll calls) rule settings
      rw [hafter] at hlast
      exact hlast
    rw [Grammar.after_configureInPlace] at hafter
    rw [← hkept.rules, ← Grammar.configure_eq_error]
    refine ⟨hcall, ?_, ?_⟩
    · rintro err rfl
      cases hconfigure : (e.callAll calls).grammar.configure rule settings <;>
        rw [hconfigure] at hafter <;> cases hafter
      rfl
    · cases hconfigure : (e.callAll calls).grammar.configure rule settings <;>
        rw [hconfigure] at hafter <;> cases hafter <;> simp

/-- The last call would lift a minimum above the maximum that the first one has set. -/
theorem callAll_keeps_refused : ∃ e,
    parse "R ::= \"a\"\x7b2,5\x7d.run (\"x\" | \"y\").pick \"b\"*.tail" .standard = .ok e ∧
      ∃ e' : Engine, e.callAll [.configure "R" (Table.ofList
          [("run", ⟨none, some 3, none, none⟩), ("tail", ⟨some 1, some (-1), none, none⟩)]),
          .setSettings ⟨2, 40, true⟩] = e' ∧
        (e'.grammar.graph.node 1).yield.max = some 3 ∧ e'.grammar.IsKept e.grammar
          [.configure "R" (Table.ofList
            [("run", ⟨none, some 3, none, none⟩), ("tail", ⟨some 1, some (-1), none, none⟩)]),
            .setSettings ⟨2, 40, true⟩] ∧
        e'.matchRule "R" "aaaay" = (e.setSettings ⟨128, 128, true⟩).matchRule "R" "aaaay" ∧
        ∃ err, (Grammar.configureInPlace "R" (Table.ofList
          [("pick", ⟨none, some 1, none, none⟩), ("run", ⟨some 4, none, none, none⟩)])).after
            e'.grammar = (.error err, e'.grammar) := by
  let calls : List Call := [.configure "R" (Table.ofList
    [("run", ⟨none, some 3, none, none⟩), ("tail", ⟨some 1, some (-1), none, none⟩)]),
    .setSettings ⟨2, 40, true⟩]
  let last : RuleSettings := Table.ofList
    [("pick", ⟨none, some 1, none, none⟩), ("run", ⟨some 4, none, none, none⟩)]
  have hfacts : (parse "R ::= \"a\"\x7b2,5\x7d.run (\"x\" | \"y\").pick \"b\"*.tail"
      .standard).toOption.any (fun e =>
        ((e.callAll calls).grammar.graph.node 1).yield.max = some 3 &&
          (e.callAll calls).grammar.settings.traceMatches &&
          ((Grammar.configureInPlace "R" last).after
            (e.callAll calls).grammar).1.toOption.isNone) := by
    decide +kernel
  obtain ⟨e, hparse, hfacts⟩ := (Option.any_eq_true _ _).1 hfacts
  simp only [Bool.and_eq_true, decide_eq_true_eq] at hfacts
  obtain ⟨⟨hmax, htrace⟩, hrefused⟩ := hfacts
  have hparse := toOption_eq_some.1 hparse
  obtain ⟨hkept, hmatch, hcalls⟩ := callAll_keeps hparse calls
  refine ⟨e, hparse, _, rfl, hmax, hkept, hmatch "R" "aaaay" _ htrace.symm, ?_⟩
  cases hafter : (Grammar.configureInPlace "R" last).after (e.callAll calls).grammar with
  | mk answer g =>
    rw [hafter] at hrefused
    cases answer with
    | ok => cases hrefused
    | error err =>
      obtain rfl := (hcalls "R" last _ g hafter).2.1 err rfl
      exact ⟨err, rfl⟩

end Engine

end Ebnf
