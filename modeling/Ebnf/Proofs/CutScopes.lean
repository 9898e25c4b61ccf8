import Ebnf.Proofs.Attempts
import Ebnf.Proofs.LooseCuts

/-! The scope of a cut. The matcher knows nothing but a stack of flags, which all rules share; yet
where an alternative encloses a cut in its own rule, the flag that the cut raises is that of the
attempt at the nearest such alternative. Other cuts raise the flag of an alternative in a rule that
led to theirs, or none. -/

namespace Ebnf

def NodeKind.isReference : NodeKind → Bool
  | reference _ _ => true
  | terminal _ | charClass _ | group _ | choice _ _ _ | rule _ _ | lookAhead _ _ | cut => false

namespace Graph

section

variable (g : Graph) (under : List Ongoing)

def innermost : Option Ongoing := under.find? fun f => (g.node f.node).kind.isChoice

def ownRule : List Ongoing := under.takeWhile fun f => !(g.node f.node).kind.isReference

/-- On top of the flags with which the innermost alternative began lies its own flag, and no other
one. Where no alternative is tried there are no flags. -/
def TopFlag (cuts : List Bool) : Prop :=
  match g.innermost under with
  | some f => ∃ flag, cuts = flag :: f.cuts
  | none => cuts = []

end

variable {g : Graph} {under : List Ongoing} {f : Ongoing} {cuts : List Bool}

theorem innermost_cons_of_isChoice (h : (g.node f.node).kind.isChoice = true) :
    g.innermost (f :: under) = some f := List.find?_cons_of_pos h

theorem innermost_cons_of_not_isChoice (h : (g.node f.node).kind.isChoice = false) :
    g.innermost (f :: under) = g.innermost under := List.find?_cons_of_neg (by simp [h])

theorem innermost_of_ownRule (h : g.innermost (g.ownRule under) = some f) :
    g.innermost under = some f := (List.takeWhile_prefix _).find?_eq_some h

theorem ownRule_cons_of_isReference (h : (g.node f.node).kind.isReference = true) :
    g.ownRule (f :: under) = [] := List.takeWhile_cons_of_neg (by simp [h])

theorem ownRule_cons_of_not_isReference (h : (g.node f.node).kind.isReference = false) :
    g.ownRule (f :: under) = f :: g.ownRule under := List.takeWhile_cons_of_pos (by simp [h])

theorem TopFlag.keeps {s t : Session} (h : g.TopFlag under s.cuts) (hkeeps : s.Keeps t) :
    g.TopFlag under t.cuts := by
  obtain ⟨raised, hcuts⟩ := hkeeps.cuts
  rw [TopFlag] at h ⊢
  rw [hcuts]
  split at h
  · obtain ⟨flag, h⟩ := h
    exact ⟨_, by rw [h, raiseCut]⟩
  · rw [h, raiseCut]

variable {fuel₀ fuel : Nat} {root id : NodeId} {c₀ c : Cursor} {s₀ s : Session}

theorem Tries.topFlag (h : g.Tries fuel₀ root c₀ s₀ under fuel id c s) (hs₀ : s₀.cuts = []) :
    g.TopFlag under s.cuts := by
  induction h with
  | root hmade =>
    have hstart : g.TopFlag [] s₀.cuts := hs₀
    exact hstart.keeps (keeps_of_made hmade)
  | @part under fuel id x c d e s t u _ hbegins hmade ih =>
    refine TopFlag.keeps ?_ (keeps_of_made hmade)
    have hkeeps := hbegins.keeps
    cases hchoice : (g.node id).kind.isChoice with
    | true =>
      rw [if_pos hchoice] at hkeeps
      refine TopFlag.keeps ?_ hkeeps
      rw [TopFlag, innermost_cons_of_isChoice hchoice]
      exact ⟨false, rfl⟩
    | false =>
      rw [if_neg (by simp [hchoice])] at hkeeps
      refine TopFlag.keeps ?_ hkeeps
      rw [TopFlag, innermost_cons_of_not_isChoice hchoice]
      exact ih
  | @reference under fuel id target rule c s _ hk ih =>
    rw [TopFlag, innermost_cons_of_not_isChoice (by rw [hk]; rfl)]
    exact ih

/-- What a cut does to a run in which other attempts go on. -/
structure CutScope (g : Graph) (id : NodeId) (under : List Ongoing) (s s' : Session) : Prop where
  /-- The nearest alternative above the cut is being tried in the same rule, and its flag is raised
  on the flags that it began with. -/
  enclosed {a : NodeId} : g.Encloses a id → ∃ f flag, g.innermost (g.ownRule under) = some f ∧
    f.node = a ∧ s.cuts = flag :: f.cuts ∧ s'.cuts = true :: f.cuts
  /-- Where there is no alternative above the cut, none is tried in the same rule. -/
  loose : (∀ a, ¬g.Encloses a id) → g.innermost (g.ownRule under) = none
  /-- The innermost alternative that is tried in any rule has its flag raised. -/
  outer {f : Ongoing} : g.innermost under = some f →
    ∃ flag, s.cuts = flag :: f.cuts ∧ s'.cuts = true :: f.cuts
  /-- Without one the cut changes nothing. -/
  idle : g.innermost under = none →
    s.cuts = [] ∧ s'.cuts = [] ∧ s'.failures = s.failures ∧ s'.depth = s.depth

end Graph

namespace Grammar

variable {g : Grammar} {rule : String} {fuel₀ fuel : Nat} {root id : NodeId} {c₀ c : Cursor}
  {s₀ s : Session} {under : List Ongoing}

theorem not_encloses_of_rule (hg : g.IsForest) (hr : (rule, id) ∈ g.rules) (a : NodeId) :
    ¬g.graph.Encloses a id :=
  Graph.not_encloses_of_root ((hg.root (hg.rule.1 hr).1).2 ⟨rule, hr⟩)

theorem encloses_iff_innermost (hg : g.IsForest) (hroot : (rule, root) ∈ g.rules)
    (h : g.graph.Tries fuel₀ root c₀ s₀ under fuel id c s) (a : NodeId) :
    g.graph.Encloses a id ↔ ∃ f, g.graph.innermost (g.graph.ownRule under) = some f ∧
      f.node = a := by
  induction h with
  | root hmade =>
    refine iff_of_false (not_encloses_of_rule hg hroot a) ?_
    rintro ⟨f, hf, -⟩
    cases hf
  | @part under fuel id x c d e s t u _ hbegins hmade ih =>
    have hchild := hbegins.hasChild
    have hreference : (g.graph.node id).kind.isReference = false := by
      rw [Graph.HasChild] at hchild
      cases hk : (g.graph.node id).kind with
      | reference =>
        rw [hk] at hchild
        cases hchild
      | _ => rfl
    rw [Graph.encloses_iff (hg.parent.2 hchild), Graph.ownRule_cons_of_not_isReference hreference]
    cases hchoice : (g.graph.node id).kind.isChoice with
    | true =>
      rw [if_pos rfl, Graph.innermost_cons_of_isChoice hchoice]
      simp [eq_comm]
    | false =>
      rw [if_neg Bool.false_ne_true, Graph.innermost_cons_of_not_isChoice hchoice, ih]
  | @reference under fuel id target rule' c s _ hk ih =>
    -- above the node of a rule there is nothing, and nothing of this rule is tried yet
    have hid : id < g.graph.size := inside_of_kind (by simp [hk])
    obtain ⟨_, heq, hr⟩ := hg.reference hid hk
    obtain rfl := Option.some.inj heq
    refine iff_of_false (not_encloses_of_rule hg hr a) ?_
    rw [Graph.ownRule_cons_of_isReference (by rw [hk]; rfl)]
    rintro ⟨f, hf, -⟩
    cases hf

theorem cutScope_of_tries (hg : g.IsForest) (hroot : (rule, root) ∈ g.rules) (hs₀ : s₀.cuts = [])
    (h : g.graph.Tries fuel₀ root c₀ s₀ under (fuel + 1) id c s)
    (hk : (g.graph.node id).kind = .cut) :
    ∃ s', g.graph.attempt (fuel + 1) id c s = some (some c, s') ∧
      g.graph.CutScope id under s s' := by
  have hans : g.graph.attempt (fuel + 1) id c s =
      some (some c, ((s.enter id c.position).cut).leave id true) := by
    rw [Graph.attempt, hk]
    rfl
  have hflag := h.topFlag hs₀
  have hcuts : (((s.enter id c.position).cut).leave id true).cuts = raiseCut true s.cuts := by
    rw [Session.cuts_leave, Session.cuts_cut, Session.cuts_enter]
  have houter : ∀ {f}, g.graph.innermost under = some f → ∃ flag, s.cuts = flag :: f.cuts ∧
      (((s.enter id c.position).cut).leave id true).cuts = true :: f.cuts := by
    intro f hf
    rw [Graph.TopFlag, hf] at hflag
    obtain ⟨flag, hflag⟩ := hflag
    exact ⟨flag, hflag, by rw [hcuts, hflag, raiseCut, Bool.or_true]⟩
  refine ⟨_, hans, ?_, ?_, houter, ?_⟩
  · intro a ha
    obtain ⟨f, hf, hnode⟩ := (encloses_iff_innermost hg hroot h a).1 ha
    obtain ⟨flag, hbefore, hafter⟩ := houter (Graph.innermost_of_ownRule hf)
    exact ⟨f, flag, hf, hnode, hbefore, hafter⟩
  · intro hnone
    rw [← Option.not_isSome_iff_eq_none, Option.isSome_iff_exists]
    rintro ⟨f, hf⟩
    exact hnone f.node ((encloses_iff_innermost hg hroot h f.node).2 ⟨f, hf, rfl⟩)
  · intro hnone
    rw [Graph.TopFlag, hnone] at hflag
    have hempty : s.cuts = [] := hflag
    have hsame : (s.enter id c.position).cut = s.enter id c.position := by
      rw [Session.cut, Session.cuts_enter, hempty]
    have hdepth := (Graph.keeps_attempt _ id c s _ _ hans).depth
    refine ⟨hempty, by rw [hcuts, hempty, raiseCut], ?_, hdepth⟩
    rw [hsame]
    rfl

/-- Whenever a match of a grammar that is built from a source comes to a cut, it does what its scope
says, and every cut that the log shows is come to like this. The cuts that no alternative of their
own rule encloses are those that the grammar warns of, each once and in the order in which they are
allocated. -/
theorem parse_cutScopes {source : String} {settings : EngineSettings} {g : Grammar}
    (h : parse source settings = .ok g) :
    (∀ fuel, source.toList.length < fuel → build fuel source settings = some (.ok g)) ∧
    (∀ rule text under fuel id c s, g.Tries rule text under (fuel + 1) id c s →
      (g.graph.node id).kind = .cut → ∃ s', g.graph.attempt (fuel + 1) id c s = some (some c, s') ∧
        g.graph.CutScope id under s s') ∧
    (∀ rule text outcome, g.matchRule rule text = .ok (some outcome) → ∀ line ∈ outcome.trace,
      ∀ position, line.event = .tried position → ∃ under fuel c s,
        g.Tries rule text under (fuel + 1) line.node c s ∧ c.position = position ∧
          line.depth = under.length) ∧
    g.warnings = g.graph.looseCuts.map (fun id => ⟨(g.graph.node id).position⟩) ∧
      g.graph.looseCuts.Pairwise (· < ·) ∧
        ∀ id, id ∈ g.graph.looseCuts ↔
          (g.graph.node id).kind = .cut ∧ ∀ a, ¬g.graph.Encloses a id := by
  refine ⟨fun _ => build_of_parse h, ?_, ?_, ?_⟩
  · rintro rule text under fuel id c s ⟨root, log, fuel₀, hroot, htries⟩ hk
    exact cutScope_of_tries (isForest_parse h) ((mem_rules_iff h).2 hroot) rfl htries hk
  · intro rule text outcome hmatch line hline position hevent
    exact tries_of_mem_trace hmatch hline hevent
  · refine ⟨warnings_parse h, g.graph.sorted_looseCuts, fun id => ?_⟩
    rw [mem_looseCuts_parse h]
    exact ⟨fun hcut => ⟨hcut.kind, hcut.loose⟩, fun hcut => ⟨hcut.1, hcut.2⟩⟩

/-- The cuts of `S` and of `B` are loose and that of `A` is not. Each text comes to two of the
three: to that of `S` while no alternative is tried, to the other one while that of `A` is. -/
theorem parse_cutScopes_loose : ∃ g,
    build 48 "S ::= ~ A  A ::= (B \"c\") | (~ \"b\")  B ::= \"a\" ~"
      { EngineSettings.standard with traceMatches := true } = some (.ok g) ∧
    g.warnings.map (fun w => w.position.index) = [6, 46] ∧
    ∀ text id depth, (text, id, depth) ∈ [("ac", 1, 1), ("ac", 13, 7), ("b", 1, 1), ("b", 9, 5)] →
      ∃ under fuel c s s', g.Tries "S" text under (fuel + 1) id c s ∧ depth = under.length ∧
        g.graph.attempt (fuel + 1) id c s = some (some c, s') ∧ g.graph.CutScope id under s s' := by
  have hfacts : (parse "S ::= ~ A  A ::= (B \"c\") | (~ \"b\")  B ::= \"a\" ~"
      { EngineSettings.standard with traceMatches := true }).toOption.any (fun g =>
        g.warnings.map (fun w => w.position.index) = [6, 46] &&
        [("ac", 1, 1), ("ac", 13, 7), ("b", 1, 1), ("b", 9, 5)].all fun (text, id, depth) =>
          (g.graph.node id).kind.isCut &&
            (g.matchRule "S" text).toOption.any fun answer => answer.any fun outcome =>
              outcome.trace.any fun line => line.node = id && line.depth = depth &&
                match line.event with | .tried _ => true | .ended _ => false) := by
    decide +kernel
  obtain ⟨g, hparse, hfacts⟩ := (Option.any_eq_true _ _).1 hfacts
  rw [Bool.and_eq_true, decide_eq_true_eq, List.all_eq_true] at hfacts
  obtain ⟨hbuild, hscope, hlog, -⟩ := parse_cutScopes (toOption_eq_some.1 hparse)
  refine ⟨g, hbuild 48 (by decide), hfacts.1, fun text id depth hmem => ?_⟩
  have hcut := hfacts.2 _ hmem
  simp only [Bool.and_eq_true] at hcut
  obtain ⟨hkind, hcut⟩ := hcut
  obtain ⟨answer, hanswer, hcut⟩ := (Option.any_eq_true _ _).1 hcut
  obtain ⟨outcome, houtcome, hcut⟩ := (Option.any_eq_true _ _).1 hcut
  obtain ⟨line, hline, hcut⟩ := List.any_eq_true.1 hcut
  simp only [Bool.and_eq_true, decide_eq_true_eq] at hcut
  obtain ⟨⟨rfl, rfl⟩, hevent⟩ := hcut
  have hmatch := toOption_eq_some.1 (hanswer.trans (congrArg some houtcome))
  cases hev : line.event with
  | ended => simp [hev] at hevent
  | tried position =>
    obtain ⟨under, fuel, c, s, htries, -, hdepth⟩ :=
      hlog "S" text outcome hmatch line hline position hev
    have hk : (g.graph.node line.node).kind = .cut := NodeKind.isCut_iff.1 hkind
    obtain ⟨s', hans, hcutScope⟩ := hscope "S" text under fuel line.node c s htries hk
    exact ⟨under, fuel, c, s, s', htries, hdepth, hans, hcutScope⟩

end Grammar

end Ebnf
