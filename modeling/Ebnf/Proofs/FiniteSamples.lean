import Ebnf.Proofs.Calls
import Ebnf.Proofs.Escapes

/-! Samples of finite rules. Below a finite rule every reference is followed at any depth and every
option is an escape, so a limit on nesting takes nothing away, not even a limit of zero. What is
left to be seen is that an option can be drawn: by the weights that were set as long as the limit is
not passed, and by those of the escapes from then on. -/

namespace Ebnf

variable {σ : Type}

def Chance.DrawsItems (chance : Chance σ) : Prop :=
  ∀ d : Distribution, 0 < d.total → ∀ state, ∃ i, (chance.item d state).1 = some i ∧ i < d.size

theorem Chance.drawsItems_ofWords (words : Words) : (Chance.ofWords words).DrawsItems := by
  intro d htotal used
  have hviable := Distribution.isViable_of_total_pos htotal
  have hsample : d.sample words used = (some (d.pick (words used)), used + 1) := if_pos hviable
  exact ⟨_, congrArg Prod.fst hsample, Distribution.lt_of_sample hsample⟩

def NodeKind.HasWeight : NodeKind → Prop
  | .choice _ weights _ => ∃ w ∈ weights.weights, 0 < w
  | _ => True

instance : DecidablePred NodeKind.HasWeight
  | .choice _ weights _ => inferInstanceAs (Decidable (∃ w ∈ weights.weights, 0 < w))
  | .terminal _ | .charClass _ | .reference _ _ | .group _ | .rule _ _ | .lookAhead _ _ | .cut =>
    inferInstanceAs (Decidable True)

namespace Grammar

/-- No alternative that can be reached from the node has weights that are all zero. -/
def WeighsBelow (g : Grammar) (root : NodeId) : Prop :=
  ∀ id, g.Reachable root id → (g.graph.node id).kind.HasWeight

variable {g : Grammar} {chance : Chance σ}

theorem exists_option_of_finite (hg : g.IsPrepared) (hdraws : chance.DrawsItems) {id : Nat}
    {options : List NodeId} {weights escapes : Distribution}
    (hk : (g.graph.node id).kind = .choice options weights escapes)
    (hsize : weights.size = options.length) (hweight : (g.graph.node id).kind.HasWeight)
    (hfinite : ∀ o ∈ options, ¬g.Recurses o) (past : Prop) [Decidable past] (state : σ) :
    ∃ i o, (chance.item (if past then escapes else weights) state).1 = some i ∧
      options[i]? = some o := by
  have hdrawn : ∀ d : Distribution, 0 < d.total → d.size = options.length →
      ∃ i o, (chance.item d state).1 = some i ∧ options[i]? = some o := by
    intro d htotal hd
    obtain ⟨i, hi, hlt⟩ := hdraws d htotal state
    exact ⟨i, options[i], hi, List.getElem?_eq_getElem (hd ▸ hlt)⟩
  rw [hk] at hweight
  obtain ⟨w, hw, hpos⟩ := hweight
  split
  · obtain rfl := hg.escapes hk
    have hsome : 0 < options.length := hsize ▸ List.length_pos_of_mem hw
    have hfirst := List.getElem_mem hsome
    have hmark := hg.mem_marks hk hfirst (hfinite _ hfirst)
    exact hdrawn _ (Distribution.isPositive_total_indicator hmark).pos
      (by simp [Distribution.indicator, Distribution.size])
  · exact hdrawn _ (Distribution.isPositive_total ⟨w, hw, isPositive_of_pos hpos⟩).pos hsize

end Grammar

namespace Graph

variable {g : Grammar} {settings : EngineSettings} {chance : Chance σ}

theorem completes_once_of_finite (hg : g.IsPrepared) (hdraws : chance.DrawsItems)
    {set : List Float → Prop} (hweighs : g.graph.Weighs set) {root : NodeId}
    (hbelow : g.WeighsBelow root) (fuel : Nat) :
    ∀ depth id : Nat, id < g.graph.size → g.Reachable root id → ¬g.Recurses id →
      (g.graph.writeOnce settings chance fuel depth id).Completes := by
  induction fuel with
  | zero => exact fun _ _ _ _ _ _ _ hd => nomatch hd
  | succ fuel ih =>
    -- what is written below the node is reached with it, and cannot recurse either
    intro depth id hid hpath hfinite
    have hwritten : ∀ c, g.graph.Writes id c → (g.graph.writeRepeated settings chance
        (g.graph.writeOnce settings chance fuel (depth + 1)) c).Completes := by
      intro c hc
      have hchild := NodeKind.mem_children_of_written hc
      exact completes_repeated (ih (depth + 1) c (hg.linked.child hchild).2
        (hpath.tail (.child hchild)) fun hrecurses => hfinite (.of_writes hc hrecurses))
    apply completes_occurrence hg hid
    · intro rule target root' hk hroot
      have hrule : g.IsFiniteRule rule := not_not.1 fun hinfinite =>
        hfinite ⟨id, rule, target, .refl, hk, hinfinite⟩
      exact ⟨.inl hrule, ih depth root' (hg.linked.root hroot).1
        (hpath.tail (.reference hk hroot)) (hrule.not_recurses hroot)⟩
    · exact fun c hc => hwritten c hc.1
    · intro options weights escapes hk state
      have hoptions : ∀ o ∈ options, g.graph.Writes id o := by
        intro o ho
        rw [Writes, hk]
        exact ho
      obtain ⟨i, o, hi, ho⟩ := Grammar.exists_option_of_finite hg hdraws hk
        (hweighs id options weights escapes hk).size (hbelow id hpath)
        (fun o ho hrecurses => hfinite (.of_writes (hoptions o ho) hrecurses))
        (settings.depthLimit < depth) state
      exact ⟨i, o, hi, ho, hwritten o (hoptions o (List.mem_of_getElem? ho))⟩

end Graph

namespace Engine

/-- A rule that is worked out to be finite never comes to a limit on nesting, whatever the limit is
and however the options below it are weighed, as long as each alternative has an option to draw. -/
theorem generate_finite {source : String} {settings : EngineSettings} {e e' : Engine}
    (h : parse source settings = .ok e) {calls : List Call} (hcalls : e.callAll calls = e')
    (chance : Chance σ) (hdraws : chance.DrawsItems) {rule : String} {root : NodeId}
    (hrule : e'.grammar.rules.lookup rule = some root)
    (hfinite : e'.grammar.graph.isFinite root = true) (hbelow : e'.grammar.WeighsBelow root)
    (state : σ) :
    (∀ sample state' e'', e'.generate chance rule state = .ok (some (sample, state', e'')) →
      sample.overflows = 0) ∧
    (e'.grammar.CharsReturn chance → ∃ sample state' e'',
      e'.generate chance rule state = .ok (some (sample, state', e'')) ∧ sample.overflows = 0) := by
  subst hcalls
  have hg := isPrepared_callAll h calls
  have hrecurses := ((hg.isFinite_iff hrule).1 hfinite).not_recurses hrule
  exact complete_of_completes h calls hrule (fun fuel =>
    Graph.completes_once_of_finite hg hdraws (isKept_callAll h calls).weights hbelow fuel 1 root
      (hg.linked.root hrule).1 .refl hrecurses) state

/-- The options of `B` are drawn by the weights that are set, those of `C` are past the limit. -/
theorem generate_finite_nested : ∃ e e',
    parse "A ::= B \",\" B  B ::= (\"x\" | C).pick  C ::= [0-9] | \"y\"" .standard = .ok e ∧
      e.callAll [.configure "B" (Table.ofList
        [("pick", ⟨none, none, none, some [.ofFloat 0, .ofFloat 1]⟩)]),
        .setSettings ⟨128, 4, false⟩] = e' ∧
      (Chance.ofWords fun _ => 0).DrawsItems ∧ e'.grammar.rules.lookup "A" = some 0 ∧
      e'.grammar.graph.isFinite 0 = true ∧ e'.grammar.WeighsBelow 0 ∧
      ∃ sample used e'', e'.generate (.ofWords fun _ => 0) "A" 0 =
        .ok (some (sample, used, e'')) ∧ sample.overflows = 0 := by
  let calls : List Call := [.configure "B" (Table.ofList
    [("pick", ⟨none, none, none, some [.ofFloat 0, .ofFloat 1]⟩)]), .setSettings ⟨128, 4, false⟩]
  have hfacts : (parse "A ::= B \",\" B  B ::= (\"x\" | C).pick  C ::= [0-9] | \"y\""
      .standard).toOption.any (fun e =>
        let g := (e.callAll calls).grammar
        g.rules.lookup "A" = some 0 && g.graph.isFinite 0 &&
        (List.range g.graph.size).all fun id => (g.graph.node id).kind.HasWeight) := by
    decide +kernel
  obtain ⟨e, hparse, hfacts⟩ := (Option.any_eq_true _ _).1 hfacts
  have hparse := toOption_eq_some.1 hparse
  simp only [Bool.and_eq_true, decide_eq_true_eq, List.all_eq_true, List.mem_range] at hfacts
  obtain ⟨⟨hrule, hfinite⟩, hnodes⟩ := hfacts
  have hbelow : (e.callAll calls).grammar.WeighsBelow 0 := by
    intro id _
    by_cases hid : id < (e.callAll calls).grammar.graph.size
    · exact hnodes id hid
    · rw [Graph.node_of_size_le (Nat.not_lt.1 hid)]
      trivial
  have hdraws := Chance.drawsItems_ofWords fun _ => 0
  have hchars : (e.callAll calls).grammar.CharsReturn (.ofWords fun _ => 0) := fun _ used =>
    CharClass.exists_draw_zero _ used
  exact ⟨e, e.callAll calls, hparse, rfl, hdraws, hrule, hfinite, hbelow,
    (generate_finite hparse rfl _ hdraws hrule hfinite hbelow 0).2 hchars⟩

end Engine

end Ebnf
