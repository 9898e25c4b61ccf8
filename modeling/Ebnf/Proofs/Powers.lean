import Ebnf.Proofs.Counting
import Ebnf.Proofs.Reading.Derives
import Ebnf.Proofs.Reading.Exact
import Ebnf.Proofs.Syntax.Parses

/-! Literals with bounds. A word that may occur so many times is read as often as it stands in a
row, up to the maximum, and nothing is ever given back: where the text is a power of the word that
may occur, that is the power read. So a rule that is such a literal matches exactly these powers. -/

namespace Ebnf

/-- A word so many times in a row. -/
def power (word : String) (count : Nat) : String := String.join (List.replicate count word)

theorem toList_power_zero (word : String) : (power word 0).toList = [] := by
  simp [power]

theorem toList_power_succ (word : String) (count : Nat) :
    (power word (count + 1)).toList = word.toList ++ (power word count).toList := by
  simp [power, List.replicate_succ]

theorem eq_zero_of_not_prefix {word : String} {count : Nat}
    (h : ¬ word.toList <+: (power word count).toList) : count = 0 := by
  cases count with
  | zero => rfl
  | succ count =>
    rw [toList_power_succ] at h
    exact absurd (List.prefix_append _ _) h

theorem eq_power_iff_of_prefix {word : String} (hword : word ≠ "") {rest : List Char}
    {P : Nat → Prop} : (∃ j, word.toList ++ rest = (power word j).toList ∧ P j) ↔
      ∃ j, rest = (power word j).toList ∧ P (j + 1) := by
  constructor
  · rintro ⟨j, heq, hj⟩
    cases j with
    | zero =>
      rw [toList_power_zero, List.append_eq_nil_iff, String.toList_eq_nil_iff] at heq
      exact absurd heq.1 hword
    | succ j =>
      rw [toList_power_succ] at heq
      exact ⟨j, List.append_cancel_left heq, hj⟩
  · rintro ⟨j, rfl, hj⟩
    exact ⟨j + 1, (toList_power_succ word j).symm, hj⟩

namespace Repetition

variable {r : Repetition} {count k : Nat} {text : List Char} {word : String}

theorem eq_of_hasRoom_false (hroom : r.hasRoom count = false)
    (hmax : ∀ max, r.max = some max → count ≤ max) : r.max = some count := by
  cases hbound : r.max with
  | none => simp [hasRoom, hbound] at hroom
  | some max =>
    have hle := hmax max hbound
    have hge : max ≤ count := by simpa [hasRoom, hbound] using hroom
    rw [Nat.le_antisymm hle hge]

theorem stop_eq_end_iff (hk : k ≤ text.length) (hmax : ∀ max, r.max = some max → count ≤ max)
    (hnone : ∀ j, text.drop k = (power word j).toList → r.admits (count + j) = true → j = 0) :
    r.stop count k = some text.length ↔
      ∃ j, text.drop k = (power word j).toList ∧ r.admits (count + j) = true := by
  constructor
  · intro hstop
    obtain ⟨hend, hadmits⟩ := stop_eq_some hstop hmax
    refine ⟨0, ?_, hadmits⟩
    rw [toList_power_zero, ← hend, List.drop_length]
  · rintro ⟨j, htext, hadmits⟩
    obtain rfl := hnone j htext hadmits
    rw [toList_power_zero, List.drop_eq_nil_iff] at htext
    rw [Nat.add_zero] at hadmits
    rw [stop_of_admits hadmits, Nat.le_antisymm hk htext]

end Repetition

namespace Reads

variable {g : Grammar} {text : List Char} {id : NodeId} {word : String}

/-- Behind `count` occurrences of a literal as many more are read as there are. They reach the end
where the rest of the text is a power that the bounds admit. -/
theorem exists_rest_literal (hkind : (g.graph.node id).kind = .terminal word) (hword : word ≠ "")
    {count k : Nat} (hk : k ≤ text.length)
    (hmax : ∀ max, (g.graph.node id).repetition.max = some max → count ≤ max) :
    ∃ e, Reads g text (.rest id count) k e false ∧ (e = some text.length ↔
      ∃ j, text.drop k = (power word j).toList ∧
        (g.graph.node id).repetition.admits (count + j) = true) := by
  have hpos : 0 < word.toList.length :=
    List.length_pos_iff.2 fun hnil => hword (String.toList_eq_nil_iff.1 hnil)
  -- the text that is left gets shorter with every occurrence
  induction hleft : text.length - k using Nat.strong_induction_on generalizing k count with
  | _ left ih =>
  cases hroom : (g.graph.node id).repetition.hasRoom count with
  | false =>
    refine ⟨_, .full hroom, Repetition.stop_eq_end_iff hk hmax fun j _ hadmits => ?_⟩
    have hbound := Repetition.eq_of_hasRoom_false hroom hmax
    have hle := (Repetition.admits_iff.1 hadmits).2 count hbound
    omega
  | true =>
    by_cases hprefix : word.toList <+: text.drop k
    · have hdrop : text.drop k = word.toList ++ text.drop (k + word.toList.length) := by
        rw [← List.drop_drop]
        exact (List.prefix_iff_eq_append.1 hprefix).symm
      have hlength := hprefix.length_le
      rw [List.length_drop] at hlength
      obtain ⟨e, hread, hend⟩ := @ih (text.length - (k + word.toList.length)) (by omega)
        (count + 1) (k + word.toList.length) (by omega) (Repetition.hasRoom_iff.1 hroom) rfl
      refine ⟨e, .more hroom (.literal hkind hprefix) (by omega) hread, ?_⟩
      rw [hend, hdrop, eq_power_iff_of_prefix hword]
      simp only [Nat.add_assoc, Nat.add_comm 1]
    · refine ⟨_, .last hroom (.noLiteral hkind hprefix), Repetition.stop_eq_end_iff hk hmax ?_⟩
      rintro j htext -
      exact eq_zero_of_not_prefix (htext ▸ hprefix)

theorem whole_of_once (honce : (g.graph.node id).repetition = .once) {k : Nat} {e : Option Nat}
    {raised : Bool} (h : Reads g text (.once id) k e raised) :
    Reads g text (.whole id) k e raised := by
  have hroom : (g.graph.node id).repetition.hasRoom 0 = true := by rw [honce]; rfl
  have hfull : (g.graph.node id).repetition.hasRoom 1 = false := by rw [honce]; rfl
  cases e with
  | none =>
    have hread := Reads.last hroom h
    rwa [honce] at hread
  | some m =>
    by_cases hempty : m = k
    · subst hempty
      exact .empty hroom h
    · have hread := Reads.more hroom h hempty (.full hfull)
      rwa [honce, Bool.or_false] at hread

theorem whole_of_rule {name : String} {part : NodeId} {k : Nat} {e : Option Nat} {raised : Bool}
    (hkind : (g.graph.node id).kind = .rule name [part])
    (honce : (g.graph.node id).repetition = .once) (h : Reads g text (.whole part) k e raised) :
    Reads g text (.whole id) k e raised := by
  refine whole_of_once honce (.rule hkind ?_)
  cases e with
  | none => exact .blocked h
  | some m =>
    have hread := Reads.onward h .done
    rwa [Bool.or_false] at hread

end Reads

def RuleTree.ofLiteral (name word : String) (r : Repetition) (start place : Position) : RuleTree :=
  ⟨name, start, [.leaf (.literal word) ⟨place, r, none⟩]⟩

theorem definitions_ofLiteral {name define literal quantifier : Token} {rule word : String}
    {mark : Mark} {r : Repetition} (hname : name.lexeme = .name rule)
    (hdefine : define.lexeme = .define) (hliteral : literal.lexeme = .literal word)
    (hquantifier : quantifier.lexeme = .quantifier mark none) (hmark : mark.repetition = .ok r) :
    Definitions [name, define, literal, quantifier]
      [.ofLiteral rule word r name.position literal.position] := by
  have hleaf : Phrase .bare [literal] [.leaf (.literal word) (.bare literal.position)] :=
    .leaf (hliteral ▸ .literal)
  have hbounds : Tree.Quantified (.leaf (.literal word) (.bare literal.position))
      quantifier.lexeme (.leaf (.literal word) ⟨literal.position, r, none⟩) := by
    rw [hquantifier]
    exact .leaf (.intro hmark (.inl rfl))
  exact .more .none hname hdefine
    (.more .none (.single (.plain (.quantified hleaf hbounds))))

/-- A source that defines one rule, as a quoted literal with bounds in braces. -/
def literalSource (quote : Char) (word : String) (r : Repetition) : String :=
  "R ::= " ++ String.ofList (printQuoted quote word.toList ++ r.print)

section Source

variable {quote : Char} {word : String} {r : Repetition}

def literalSpans (quote : Char) (word : String) (r : Repetition) : List Span :=
  [⟨.name "R", ['R'], [' ']⟩, ⟨.define, [':', ':', '='], [' ']⟩,
    ⟨.literal word, printQuoted quote word.toList, []⟩,
    ⟨.quantifier (.counted (String.ofList r.print)) none, r.print, []⟩]

theorem toList_literalSource :
    (literalSource quote word r).toList = Span.texts (literalSpans quote word r) := by
  simp [literalSource, literalSpans, Span.text]

theorem abut_literalSpans (hquote : IsQuote quote) (word : String) (r : Repetition) :
    Span.Abut (literalSpans quote word r) := by
  have hblank : ∀ c ∈ some ' ', isWhiteSpace c = true := by
    rintro _ ⟨⟩
    rfl
  have hname : (Lexeme.name "R").IsPrintable := ⟨'R', [], rfl, rfl, nofun⟩
  have hcounted : (Lexeme.quantifier (.counted (String.ofList r.print)) none).IsPrintable := by
    refine ⟨?_, nofun⟩
    rw [String.toList_ofList]
    exact r.isBraced_print
  have hspelled : Lexeme.Spelled _ _ none := hcounted.spelled hquote nofun
  simp only [Lexeme.print, Mark.print, printLabel, String.toList_ofList, List.append_nil]
    at hspelled
  exact .cons ⟨hname.spelled hquote hblank, .space rfl .nil⟩
    (.cons ⟨.define, .space rfl .nil⟩
      (.cons ⟨spelled_printQuoted hquote word, .nil⟩ (.cons ⟨hspelled, .nil⟩ .nil)))

theorem exists_definitions_literalSpans (hcounted : r.IsCounted) (quote : Char) (word : String)
    (source : List Char) (k : Nat) :
    ∃ start place, Definitions (Span.tokens source k (literalSpans quote word r))
      [.ofLiteral "R" word r start place] :=
  ⟨_, _, definitions_ofLiteral rfl rfl rfl rfl (Repetition.repetition_print hcounted)⟩

theorem exists_parse_literalSource (hquote : IsQuote quote) (hcounted : r.IsCounted)
    (word : String) :
    ∃ start place, RuleTree.parse (literalSource quote word r) =
      .ok [RuleTree.ofLiteral "R" word r start place] := by
  have htext : (literalSource quote word r).toList =
      [] ++ Span.texts (literalSpans quote word r) := toList_literalSource
  have hstream := TokenStream.ofString_of_abut htext .nil (abut_literalSpans hquote word r)
  have hending := congrArg TokenStream.ending hstream
  obtain ⟨start, place, hrules⟩ := exists_definitions_literalSpans hcounted quote word
    (literalSource quote word r).toList 0
  refine ⟨start, place, (RuleTree.parse_eq_ok_iff hending _).2 ⟨?_, List.nodup_singleton _⟩⟩
  rw [hstream]
  exact hrules

end Source

namespace Grammar

theorem exists_ofTrees_literal (name word : String) (r : Repetition) (start place : Position)
    (settings : EngineSettings) :
    ∃ g, ofTrees [.ofLiteral name word r start place] settings = .ok g ∧
      g.rules.lookup name = some 0 ∧ (g.graph.node 0).kind = .rule name [1] ∧
        (g.graph.node 0).repetition = .once ∧ (g.graph.node 1).kind = .terminal word ∧
          (g.graph.node 1).repetition = r := by
  let rule := RuleTree.ofLiteral name word r start place
  have hreferences : rule.references = [] := by
    simp [rule, RuleTree.ofLiteral, RuleTree.references, Tree.referencesOf, Tree.references]
  have hok : ∃ g, ofTrees [rule] settings = .ok g := by
    simp [ofTrees, hreferences]
  obtain ⟨g, htrees⟩ := hok
  have hroot : (laidOut [rule]).node 0 = rule.head 0 := by
    simp [laidOut, Graph.node, RuleTree.layoutAll, RuleTree.layout, RuleTree.head]
  have hpart : (laidOut [rule]).node 1 = (Tag.mk place r none).node (.terminal word) (some 0) := by
    simp [laidOut, Graph.node, RuleTree.layoutAll, RuleTree.layout, rule, RuleTree.ofLiteral,
      Tree.layoutAll, Tree.layout, Leaf.kind]
  have hfirst := (node_ofTrees htrees 0).1
  have hsecond := (node_ofTrees htrees 1).1
  rw [hroot] at hfirst
  rw [hpart] at hsecond
  refine ⟨g, htrees, ?_, NodeKind.eq_of_bare_eq hfirst.kind rfl, hfirst.repetition,
    NodeKind.eq_of_bare_eq hsecond.kind rfl, hsecond.repetition⟩
  rw [rules_ofTrees htrees]
  simp [RuleTree.index, rule, RuleTree.ofLiteral]

/-- A quoted literal with bounds in braces is a grammar whatever the literal is, and its rule
matches the powers of the literal that the bounds admit, and nothing else. -/
theorem match_iff_power {quote : Char} {word : String} {r : Repetition} (hquote : IsQuote quote)
    (hword : word ≠ "") (hcounted : r.IsCounted) (settings : EngineSettings) :
    ∃ g, parse (literalSource quote word r) settings = .ok g ∧
      ∀ text, ∃ outcome, g.matchRule "R" text = .ok (some outcome) ∧
        (outcome.isMatch = true ↔
          ∃ k, text = power word k ∧ r.min ≤ k ∧ ∀ max ∈ r.max, k ≤ max) := by
  obtain ⟨start, place, hrules⟩ := exists_parse_literalSource hquote hcounted word
  obtain ⟨g, htrees, hroot, hrule, honce, hliteral, hrepetition⟩ :=
    exists_ofTrees_literal "R" word r start place settings
  have hparse : parse (literalSource quote word r) settings = .ok g := by
    rw [parse, hrules]
    exact htrees
  refine ⟨g, hparse, fun text => ?_⟩
  obtain ⟨e, hread, hend⟩ := Reads.exists_rest_literal hliteral hword
    (Nat.zero_le text.toList.length) fun _ _ => Nat.zero_le _
  obtain ⟨outcome, hmatch, hyes⟩ := (matchRule_returns_iff (isLinked_parse hparse) _).2
    ⟨0, e, false, hroot, Reads.whole_of_rule hrule honce hread, rfl⟩
  refine ⟨outcome, hmatch, ?_⟩
  rw [hyes, decide_eq_true_iff, hend]
  simp only [List.drop_zero, String.toList_inj, Nat.zero_add, hrepetition,
    Repetition.admits_iff, Option.mem_def]

/-- A word that overlaps itself, with two characters in it that have to be escaped. -/
theorem match_iff_power_overlapping :
    literalSource '\'' "ä'\\ä" ⟨2, some 3⟩ = "R ::= 'ä\\'\\\\ä'\x7b2,3\x7d" ∧
      ∃ g, parse (literalSource '\'' "ä'\\ä" ⟨2, some 3⟩) .standard = .ok g ∧
        ∀ text, ∃ outcome, g.matchRule "R" text = .ok (some outcome) ∧
          (outcome.isMatch = true ↔
            ∃ k, text = power "ä'\\ä" k ∧ 2 ≤ k ∧ ∀ max ∈ some 3, k ≤ max) := by
  have hcounted : Repetition.IsCounted ⟨2, some 3⟩ := by
    refine ⟨?_, by decide, ?_⟩ <;> rintro max ⟨⟩ <;> decide
  exact ⟨by decide +kernel, match_iff_power (.inr rfl) (by decide) hcounted .standard⟩

end Grammar

end Ebnf
