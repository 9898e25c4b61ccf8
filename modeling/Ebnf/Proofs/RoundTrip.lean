import Ebnf.Proofs.Forecasts
import Ebnf.Proofs.Generated
import Ebnf.Proofs.Prepared

/-! What is generated matches, where one character decides. A text without placeholders is derived
from its rule, the matcher reads just that text where it stands, and nothing stands behind it. What
was set in between changes neither which texts are derived nor which match. Only something left
recursive can keep the matcher from coming to an end, and only if no text has a part of it: else two
of its options would start with the same character. -/

namespace Ebnf

namespace Grammar

variable {g : Grammar} {root : NodeId}

theorem IsLL1.isMatch (hg : g.IsLinked) (hproper : ∀ id, (g.graph.node id).repetition.IsProper)
    (hll : g.IsLL1 root) (hroot : root < g.graph.size) {text : String}
    (htext : Derives g (.whole root) text.toList 0) {trace : Bool} {outcome : Outcome}
    (hmatch : g.graph.matchText root text trace = some outcome) : outcome.isMatch = true := by
  have hspec := g.graph.matchText_spec root text trace
  cases hread : g.graph.readNode text.toList (g.graph.enough text.toList) root 0 with
  | none =>
    rw [hread, hmatch] at hspec
    cases hspec
  | some answer =>
    rw [hread] at hspec
    obtain ⟨outcome', houtcome, hiff⟩ := hspec
    obtain rfl := Option.some.inj (hmatch.symm.trans houtcome)
    have hreplays := hll.replays hg hproper (reads_whole hg hroot hread)
    have hend := hreplays.whole .top htext (by rw [List.drop_zero, List.append_nil])
    rw [Nat.zero_add] at hend
    exact hiff.2 hend

theorem IsLL1.exists_outcome (hg : g.IsLinked)
    (hproper : ∀ id, (g.graph.node id).repetition.IsProper) (hll : g.IsLL1 root)
    (hroot : root < g.graph.size) (hoccurs : ∀ id, g.Loops root id → g.Occurs root id)
    (text : String) (trace : Bool) :
    ∃ outcome, g.graph.matchText root text trace = some outcome := by
  have hreadable : Readable g text.toList (.whole root) 0 :=
    hll.readable hg hproper hoccurs hroot (Nat.zero_le _) .refl
  obtain ⟨e, raised, hread⟩ := hreadable
  have hspec := g.graph.matchText_spec root text trace
  rw [(readNode_enough_iff hg hroot (Nat.zero_le _) e raised).2 hread] at hspec
  obtain ⟨outcome, houtcome, -⟩ := hspec
  exact ⟨outcome, houtcome⟩

end Grammar

namespace Graph

/-- What an attempt at a node asks for first, at its own place. -/
def asksFirst (g : Graph) (id : NodeId) : Option NodeId :=
  match (g.node id).kind with
  | .reference _ target => target
  | kind => kind.children.head?

theorem repeated_eq_none {attempt : Attempt} {r : Repetition} {fuel : Nat} {c : Cursor}
    {s : Session} (hroom : r.hasRoom 0 = true) (h : attempt c s = none) :
    Attempt.repeated attempt r fuel 0 c s = none := by
  cases fuel with
  | zero => rfl
  | succ fuel => rw [Attempt.repeated, if_pos hroom, h]

theorem attempt_eq_none {g : Graph} {P : NodeId → Prop}
    (h : ∀ id, P id → ∃ c, g.asksFirst id = some c ∧ P c ∧
      (g.node c).repetition.hasRoom 0 = true) (fuel : Nat) {id : NodeId} (hid : P id) (c : Cursor)
    (s : Session) : g.attempt fuel id c s = none := by
  induction fuel generalizing id c s with
  | zero => rfl
  | succ fuel ih =>
    obtain ⟨first, hfirst, hP, hroom⟩ := h id hid
    have honce : ∀ c s, g.attempt fuel first c s = none := ih hP
    have hrepeated : ∀ c s, Attempt.repeated (g.attempt fuel first)
        (g.node first).repetition fuel 0 c s = none :=
      fun c s => repeated_eq_none hroom (honce c s)
    rw [asksFirst] at hfirst
    rw [attempt]
    cases hk : (g.node id).kind with
    | terminal | charClass | cut =>
      rw [hk] at hfirst
      cases hfirst
    | reference rule target =>
      rw [hk] at hfirst
      obtain rfl : target = some first := hfirst
      simp only [occurrence, honce]
    | group children | rule _ children =>
      rw [hk] at hfirst
      obtain ⟨rest, rfl⟩ := List.head?_eq_some_iff.1 (show children.head? = some first from hfirst)
      simp only [occurrence, Attempt.inTurn, hrepeated]
    | choice options =>
      rw [hk] at hfirst
      obtain ⟨rest, rfl⟩ := List.head?_eq_some_iff.1 (show options.head? = some first from hfirst)
      simp only [occurrence, Attempt.firstOf, hrepeated]
    | lookAhead positive operand =>
      rw [hk] at hfirst
      cases operand with
      | none => cases hfirst
      | some operand =>
        obtain rfl := Option.some.inj (show some operand = some first from hfirst)
        simp only [occurrence, Attempt.lookAhead, hrepeated]

end Graph

namespace Engine

theorem matchRule_callAll {source : String} {settings : EngineSettings} {e : Engine}
    (h : parse source settings = .ok e) (calls : List Call) {rule : String} {root : NodeId}
    (hroot : e.grammar.rules.lookup rule = some root) (text : String) :
    (e.callAll calls).matchRule rule text = .ok (e.grammar.graph.matchText root text
      (e.callAll calls).grammar.settings.traceMatches) := by
  have hset := isSetFrom_callAll h calls
  rw [← hset.rules] at hroot
  refine Grammar.matchRule_eq_ok.2 ⟨root, hroot, ?_⟩
  rw [Graph.matchText_congr (reweighs_callAll e calls).size
    (fun id => (hset.graph id).alike.kind) fun id => (hset.graph id).alike.repetition]

/-- Where one character decides, and everything left recursive below the rule has a part in some of
its texts, a sample without placeholders matches the rule that it was generated for, whatever was
set before and whatever is drawn. -/
theorem generate_matches {source : String} {settings : EngineSettings} {e : Engine}
    (h : parse source settings = .ok e) (calls : List Call) (words : Words)
    (count : Nat → Nat → Float → Nat → Nat × Nat)
    (hcount : ∀ id, ((e.callAll calls).grammar.graph.node id).yield.CountsWithin
      (e.callAll calls).grammar.settings.repetitionLimit count)
    {rule : String} {root : NodeId} (hroot : e.grammar.rules.lookup rule = some root)
    (hll : e.grammar.IsLL1 root)
    (hoccurs : ∀ id, e.grammar.Loops root id → e.grammar.Occurs root id)
    {used used' : Nat} {sample : Sample} {e' : Engine}
    (hgen : (e.callAll calls).generate { Chance.ofWords words with count } rule used =
      .ok (some (sample, used', e'))) (hcomplete : sample.overflows = 0) :
    ∃ outcome, e'.matchRule rule sample.text = .ok (some outcome) ∧ outcome.isMatch = true := by
  have hparse := grammar_parse h
  have hg := Grammar.isLinked_parse hparse
  have hproper := fun id => (Grammar.isFresh_parse hparse id).repetition
  obtain ⟨hgenerate, hkept⟩ := grammar_generate hgen
  have hchars : e.grammar.CharsWithin { Chance.ofWords words with count } := fun hk _ _ _ hdraw =>
    CharClass.contains_of_draw ((Grammar.isFresh_parse hparse _).charClass hk) hdraw
  obtain ⟨root', hroot', htext⟩ :=
    Grammar.derivable_generate (isSetFrom_callAll h calls) hg hchars hcount hgenerate
  obtain rfl := Option.some.inj (hroot.symm.trans hroot')
  rw [hcomplete] at htext
  have hin := (hg.root hroot).1
  have hmatch : e'.matchRule rule sample.text = .ok (e.grammar.graph.matchText root sample.text
      (e.callAll calls).grammar.settings.traceMatches) := by
    rw [← matchRule_callAll h calls hroot sample.text, matchRule, matchRule, hkept]
  obtain ⟨outcome, houtcome⟩ := hll.exists_outcome hg hproper hin hoccurs sample.text
    (e.callAll calls).grammar.settings.traceMatches
  exact ⟨outcome, by rw [hmatch, houtcome], hll.isMatch hg hproper hin htext houtcome⟩

/-- Lists of letters, where the end of a list is an empty option. The words choose the second option
wherever a list is not to go on, and every run of letters is as short as it may be. -/
theorem generate_matches_lists : ∃ e e' : Engine,
    parse "S ::= (\"[\" S T \"]\") | [x-z]+.run  T ::= (\",\" S T) | \"\"" .standard = .ok e ∧
      e.callAll [.configure "S" (Table.ofList [("run", ⟨some 2, some 3, none, none⟩)]),
        .setSettings ⟨128, 40, true⟩] = e' ∧
      e.grammar.rules.lookup "S" = some 0 ∧ e.grammar.IsLL1 0 ∧
      (∀ id, e.grammar.Loops 0 id → e.grammar.Occurs 0 id) ∧
      ∃ sample used e'', e'.generate
        { Chance.ofWords fun i => if [1, 8, 14].contains i then 0xffffffffffffffff else 0 with
          count := fun lo _ _ used => (lo, used + 1) } "S" 0 = .ok (some (sample, used, e'')) ∧
        sample = ⟨"[xx,xx]", 0⟩ ∧
        ∃ outcome, e''.matchRule "S" sample.text = .ok (some outcome) ∧ outcome.isMatch = true := by
  let words : Words := fun i => if [1, 8, 14].contains i then 0xffffffffffffffff else 0
  let lowest : Nat → Nat → Float → Nat → Nat × Nat := fun lo _ _ used => (lo, used + 1)
  let calls : List Call :=
    [.configure "S" (Table.ofList [("run", ⟨some 2, some 3, none, none⟩)]),
      .setSettings ⟨128, 40, true⟩]
  let s := ['[', 'x', 'y', 'z']
  let more := [',', ']']
  let t : Forecast :=
    { nodes := List.range 15
      empty id := [4, 8, 12, 13, 14].contains id
      first id := [s, ['['], ['['], s, [','], [']'], s, ['x', 'y', 'z'], [','], [','], [','], s,
        [','], [','], []].getD id []
      follow id := [[], more, s, more, [']'], more, more, more, [], [']'], s, more, [']'], [']'],
        [']']].getD id []
      behind id := [more, more, s, more, [']'], more, more, [',', ']', 'x', 'y', 'z'], [']'], [']'],
        s, more, [']'], [']'], [']']].getD id []
      rank id := [3, 1, 0, 4, 4, 0, 2, 0, 3, 1, 0, 4, 4, 2, 0].getD id 0 }
  have hfacts : (parse "S ::= (\"[\" S T \"]\") | [x-z]+.run  T ::= (\",\" S T) | \"\""
      .standard).toOption.any (fun e => e.grammar.rules.lookup "S" = some 0 &&
        decide (t.Check e.grammar 0) && decide (t.Ranks e.grammar) && ((e.callAll calls).generate
          { Chance.ofWords words with count := lowest } "S" 0).toOption.any fun result =>
            result.any fun p => p.1 = ⟨"[xx,xx]", 0⟩) := by
    decide +kernel
  obtain ⟨e, hparse, hfacts⟩ := (Option.any_eq_true _ _).1 hfacts
  simp only [Bool.and_eq_true, decide_eq_true_eq] at hfacts
  obtain ⟨⟨⟨hroot, hcheck⟩, hranks⟩, hresult⟩ := hfacts
  obtain ⟨result, hgenerate, hsome⟩ := (Option.any_eq_true _ _).1 hresult
  obtain ⟨⟨sample, used, e''⟩, rfl, hsample⟩ := (Option.any_eq_true _ _).1 hsome
  have hparse := toOption_eq_some.1 hparse
  have hgenerate := toOption_eq_some.1 hgenerate
  have hsample : sample = ⟨"[xx,xx]", 0⟩ := of_decide_eq_true hsample
  have hcount : ∀ id, ((e.callAll calls).grammar.graph.node id).yield.CountsWithin
      (e.callAll calls).grammar.settings.repetitionLimit lowest :=
    fun _ _ hlt => ⟨Nat.le_refl _, Nat.le_of_lt hlt⟩
  have hfresh := Grammar.isFresh_parse (grammar_parse hparse)
  have hoccurs : ∀ id, e.grammar.Loops 0 id → e.grammar.Occurs 0 id := fun id hloops =>
    absurd hloops (Forecast.not_loops (Grammar.isLinked_parse (grammar_parse hparse))
      (fun id => (hfresh id).repetition) hcheck hranks id)
  have hmatch := generate_matches hparse calls words lowest hcount hroot (Forecast.isLL1 hcheck)
    hoccurs hgenerate (by rw [hsample])
  exact ⟨e, _, hparse, rfl, hroot, Forecast.isLL1 hcheck, hoccurs, sample, used, e'', hgenerate,
    hsample, hmatch⟩

/-- The texts of `L` start with no character, as there are none, so one character decides. The
second option is generated, but the first one is tried before it, and that never ends. -/
theorem matchRule_endless_option : ∃ (e : Engine) (used : Nat) (e' : Engine),
    parse "S ::= L | \"a\"  L ::= L \"x\"" .standard = .ok e ∧
      e.grammar.rules.lookup "S" = some 0 ∧ e.grammar.IsLL1 0 ∧
      e.generate (Chance.ofWords fun _ => 0xffffffffffffffff) "S" 0 =
        .ok (some (⟨"a", 0⟩, used, e')) ∧
      e'.matchRule "S" "a" = .ok none ∧
      ∀ fuel s, e'.grammar.graph.matchNode fuel 0 (.ofString "a") s = none := by
  let t : Forecast :=
    { nodes := List.range 7
      empty _ := false
      first id := [['a'], [], ['a'], ['a'], [], [], ['x']].getD id []
      follow id := [[], [], [], [], ['x'], ['x'], ['x']].getD id []
      behind id := [[], [], [], [], ['x'], ['x'], ['x']].getD id []
      rank _ := 0 }
  let endless : List NodeId := [0, 1, 2, 4, 5]
  have hfacts : (parse "S ::= L | \"a\"  L ::= L \"x\"" .standard).toOption.any (fun e =>
      e.grammar.rules.lookup "S" = some 0 && decide (t.Check e.grammar 0) &&
        ((0 :: endless).all fun id => (e.grammar.graph.node id).repetition.hasRoom 0) &&
        (endless.all fun id => (e.grammar.graph.asksFirst id).any endless.contains) &&
        (e.generate (Chance.ofWords fun _ => 0xffffffffffffffff) "S" 0).toOption.any fun result =>
          result.any fun p => p.1 = ⟨"a", 0⟩) := by
    decide +kernel
  obtain ⟨e, hparse, hfacts⟩ := (Option.any_eq_true _ _).1 hfacts
  simp only [Bool.and_eq_true, decide_eq_true_eq, List.all_eq_true] at hfacts
  obtain ⟨⟨⟨⟨hroot, hcheck⟩, hroom⟩, hasks⟩, hresult⟩ := hfacts
  obtain ⟨result, hgenerate, hsome⟩ := (Option.any_eq_true _ _).1 hresult
  obtain ⟨⟨sample, used, e'⟩, rfl, hsample⟩ := (Option.any_eq_true _ _).1 hsome
  obtain rfl : sample = ⟨"a", 0⟩ := of_decide_eq_true hsample
  have hparse := toOption_eq_some.1 hparse
  have hgenerate := toOption_eq_some.1 hgenerate
  obtain ⟨-, hkept⟩ := grammar_generate hgenerate
  have hnever : ∀ fuel s, e.grammar.graph.matchNode fuel 0 (.ofString "a") s = none := by
    intro fuel s
    refine Graph.repeated_eq_none (hroom 0 List.mem_cons_self) ?_
    refine Graph.attempt_eq_none (P := (· ∈ endless)) (fun id hid => ?_) fuel
      List.mem_cons_self _ s
    obtain ⟨c, hc, hmem⟩ := (Option.any_eq_true _ _).1 (hasks id hid)
    have hmem := List.contains_iff_mem.1 hmem
    exact ⟨c, hc, hmem, hroom c (List.mem_cons_of_mem _ hmem)⟩
  have hmatch : e.grammar.matchRule "S" "a" = .ok none := by
    refine Grammar.matchRule_eq_ok.2 ⟨0, hroot, ?_⟩
    simp only [Graph.matchText, hnever]
  refine ⟨e, used, e', hparse, hroot, Forecast.isLL1 hcheck, hgenerate, ?_, ?_⟩
  · rw [matchRule, hkept, hmatch]
  · rw [hkept]
    exact hnever

end Engine

end Ebnf
