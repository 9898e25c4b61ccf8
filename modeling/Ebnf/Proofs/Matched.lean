import Ebnf.Proofs.Reading.Derives
import Ebnf.Proofs.Reading.Exact

/-! What matches is derived. Wherever an attempt starts and whatever its session holds, what lies
between its start and its end is a text of the context-free reading, and so is every text that a
rule accepts. -/

namespace Ebnf

/-- What an attempt gets over is derived from a piece. -/
def Attempt.Covers (g : Grammar) (text : List Char) (attempt : Attempt) (piece : Piece) : Prop :=
  ∀ k ≤ text.length, ∀ s d s', attempt (.atOffset text k) s = some (some d, s') →
    ∃ m, k ≤ m ∧ m ≤ text.length ∧ d = .atOffset text m ∧
      Derives g piece ((text.drop k).take (m - k)) 0

theorem Reads.yields_between {g : Grammar} {text : List Char} {task : Task} {k m : Nat}
    {raised : Bool} (hproper : ∀ id, (g.graph.node id).repetition.IsProper)
    (h : Reads g text task k (some m) raised) (hle : k ≤ m) (hlen : m ≤ text.length) :
    task.Yields g ((text.drop k).take (m - k)) := by
  obtain ⟨between, hsplit, hyields⟩ := h.yields hproper rfl
  have hlength : between.length = m - k := by
    have := congrArg List.length hsplit
    simp only [List.length_append, List.length_drop] at this
    omega
  rwa [hsplit, List.take_left' hlength]

theorem Attempt.Reaches.covers {g : Grammar} {text : List Char} {attempt : Attempt} {task : Task}
    {piece : Piece} (hproper : ∀ id, (g.graph.node id).repetition.IsProper)
    (h : attempt.Reaches g text task) (hpiece : ∀ t, task.Yields g t → Derives g piece t 0) :
    attempt.Covers g text piece := by
  intro k hk s d s' hanswer
  obtain ⟨m, raised, hread, hd, hle, hlen⟩ := h.of_some hk hanswer
  exact ⟨m, hle, hlen, hd, hpiece _ (hread.yields_between hproper hle hlen)⟩

namespace Grammar

/-- Matching is sound for the context-free reading, where options are unordered and a node stands
for as many occurrences as its repetition admits. An empty occurrence that stands for others is
derived as often as is needed for the minimum, and no more often than the maximum allows. -/
theorem match_derives {source : String} {settings : EngineSettings} {g : Grammar}
    (h : parse source settings = .ok g) :
    (∀ text fuel id, id < g.graph.size →
      (g.graph.attempt fuel id).Covers g text (.once id) ∧
        (g.graph.matchNode fuel id).Covers g text (.whole id)) ∧
    ∀ rule text outcome, g.matchRule rule text = .ok (some outcome) → outcome.isMatch = true →
      g.Derivable rule text 0 := by
  have hg := isLinked_parse h
  have hproper := fun id => (isFresh_parse h id).repetition
  refine ⟨fun text fuel id hid => ⟨?_, ?_⟩, fun rule text outcome hmatch hyes => ?_⟩
  · exact ((decides_attempt hg hid).reaches fuel).covers hproper fun _ hyields => hyields
  · exact ((decides_matchNode hg hid).reaches fuel).covers hproper fun _ hyields => hyields.whole
  · obtain ⟨root, e, raised, hroot, hread, he⟩ :=
      (matchRule_returns_iff hg true).1 ⟨outcome, hmatch, hyes⟩
    rw [of_decide_eq_true he] at hread
    have hyields := hread.yields_between hproper (Nat.zero_le _) (Nat.le_refl _)
    rw [List.drop_zero, Nat.sub_zero, List.take_length] at hyields
    exact ⟨root, hroot, hyields.whole⟩

/-- Behind the `a` one empty occurrence stands for the second and the third one. -/
theorem match_derives_shortcut : ∃ g,
    parse "S ::= (\"a\"?)\x7b3,5\x7d B  B ::= !\"c\" \"b\" ~" .standard = .ok g ∧
      (∃ answer, g.graph.matchNode 9 1 (.atOffset ['a', 'b'] 0) ⟨[], [], none, 0⟩ = some answer ∧
        answer.1 = some (.atOffset ['a', 'b'] 1)) ∧
      Derives g (.whole 1) ['a'] 0 ∧ g.Derivable "S" "ab" 0 := by
  have hfacts : (parse "S ::= (\"a\"?)\x7b3,5\x7d B  B ::= !\"c\" \"b\" ~"
      .standard).toOption.any (fun g => 1 < g.graph.size &&
        (g.graph.matchNode 9 1 (.atOffset ['a', 'b'] 0) ⟨[], [], none, 0⟩).any (fun answer =>
          answer.1.any fun d => d.index = 1) &&
        (g.matchRule "S" "ab").toOption.any fun answer => answer.any Outcome.isMatch) := by
    decide +kernel
  obtain ⟨g, hparse, hfacts⟩ := (Option.any_eq_true _ _).1 hfacts
  simp only [Bool.and_eq_true, decide_eq_true_eq] at hfacts
  obtain ⟨⟨hsize, hnode⟩, hrule⟩ := hfacts
  obtain ⟨⟨result, s'⟩, hanswer, hend⟩ := (Option.any_eq_true _ _).1 hnode
  obtain ⟨d, rfl, hindex⟩ := (Option.any_eq_true _ _).1 hend
  obtain ⟨answer, hmatch, hsome⟩ := (Option.any_eq_true _ _).1 hrule
  obtain ⟨outcome, rfl, hyes⟩ := (Option.any_eq_true _ _).1 hsome
  have hparse := toOption_eq_some.1 hparse
  obtain ⟨m, -, hm, rfl, hderives⟩ :=
    ((match_derives hparse).1 _ 9 1 hsize).2 0 (Nat.zero_le _) _ _ _ hanswer
  -- of the places in the text only one lies behind a single byte
  obtain rfl : m = 1 := by
    have hindex : (Cursor.atOffset ['a', 'b'] m).index = 1 := of_decide_eq_true hindex
    have hm : m ≤ 2 := hm
    rcases m with - | - | - | m
    · exact absurd hindex (by decide)
    · rfl
    · exact absurd hindex (by decide)
    · omega
  exact ⟨g, hparse, ⟨_, hanswer, rfl⟩, hderives,
    (match_derives hparse).2 _ _ _ (toOption_eq_some.1 hmatch) hyes⟩

end Grammar

end Ebnf
