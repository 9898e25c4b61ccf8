import Ebnf.Proofs.Lexing

/-! Tokens printed and read back. Every token that a source can have is spelled in a canonical way;
spelled so, and kept apart by trivia that begins with white space, tokens are read back as what they
were. What the trivia is does not matter. -/

namespace Ebnf

def ClassAtom.quoting (quote c : Char) : ClassAtom :=
  if c = quote ∨ c = '\\' then .escaped c else .plain c

def printQuoted (quote : Char) (content : List Char) : List Char :=
  quote :: (content.flatMap (fun c => (ClassAtom.quoting quote c).spelling) ++ [quote])

def printLabel : Option String → List Char
  | some word => '.' :: word.toList
  | none => []

def Mark.print : Mark → List Char
  | optional => ['?']
  | oneOrMore => ['+']
  | any => ['*']
  | counted text => text.toList

namespace Lexeme

/-- The canonical spelling of a token, with the quotation mark to use if it is a literal. -/
def print (quote : Char) : Lexeme → List Char
  | name word => word.toList
  | literal text => printQuoted quote text.toList
  | charClass source => source.toList
  | bar => ['|']
  | quantifier mark label => mark.print ++ printLabel label
  | define => [':', ':', '=']
  | opening => ['(']
  | closing label => ')' :: printLabel label
  | lookAhead true => ['&']
  | lookAhead false => ['!']
  | cut => ['~']
  | finish => []

end Lexeme

def IsName (word : List Char) : Prop :=
  ∃ c cs, word = c :: cs ∧ isNameStart c = true ∧ ∀ d ∈ cs, isWordChar d = true

def IsLabel (label : Option String) : Prop :=
  ∀ word ∈ label, word.toList ≠ [] ∧ ∀ c ∈ word.toList, isWordChar c = true

def IsClassText (source : List Char) : Prop :=
  ∃ atoms : List ClassAtom, (∀ a ∈ atoms, a.IsInside ']') ∧
    source = '[' :: (atoms.flatMap ClassAtom.spelling ++ [']'])

def IsBraced (text : List Char) : Prop :=
  ∃ inside, '\x7d' ∉ inside ∧ text = '\x7b' :: (inside ++ ['\x7d'])

def Lexeme.IsPrintable : Lexeme → Prop
  | name word => IsName word.toList
  | charClass source => IsClassText source.toList
  | quantifier (.counted text) label => IsBraced text.toList ∧ IsLabel label
  | quantifier _ label => IsLabel label
  | closing label => IsLabel label
  | finish => False
  | _ => True

def IsQuote (quote : Char) : Prop := quote = '"' ∨ quote = '\''

theorem ClassAtom.isInside_quoting (quote c : Char) : (quoting quote c).IsInside quote := by
  unfold quoting
  split
  · trivial
  · next hplain => exact not_or.1 hplain

theorem ClassAtom.char_quoting {quote : Char} (hquote : IsQuote quote) (c : Char) :
    (quoting quote c).char = c := by
  unfold quoting
  split
  · next hescaped =>
    rcases hescaped with rfl | rfl
    · rcases hquote with rfl | rfl <;> rfl
    · rfl
  · rfl

theorem spelled_printQuoted {quote : Char} (hquote : IsQuote quote) (text : String)
    {next : Option Char} :
    (Lexeme.literal text).Spelled (printQuoted quote text.toList) next := by
  have hinside : ∀ a ∈ text.toList.map (ClassAtom.quoting quote), a.IsInside quote := by
    intro a ha
    obtain ⟨c, -, rfl⟩ := List.mem_map.1 ha
    exact ClassAtom.isInside_quoting quote c
  have hspelled := @Lexeme.Spelled.quoted quote _ next hquote hinside
  have hcontent : (text.toList.map (ClassAtom.quoting quote)).map ClassAtom.char = text.toList := by
    rw [List.map_map]
    exact List.map_id'' (ClassAtom.char_quoting hquote) _
  rw [hcontent, String.ofList_toList, List.flatMap_map] at hspelled
  exact hspelled

theorem labelSpelled_printLabel {label : Option String} (h : IsLabel label) {next : Option Char}
    (hnext : ∀ c ∈ next, isWhiteSpace c = true) : LabelSpelled label (printLabel label) next := by
  cases label with
  | none =>
    refine .absent fun hdot => ?_
    have hspace : isWhiteSpace '.' = true := hnext _ hdot
    exact absurd hspace (by decide)
  | some word =>
    obtain ⟨hsome, hword⟩ := h word rfl
    have hspelled := LabelSpelled.word hword hsome
      fun c hc => isWordChar_of_isWhiteSpace (hnext c hc)
    rwa [String.ofList_toList] at hspelled

namespace Lexeme

variable {l : Lexeme} {quote : Char} {next : Option Char}

theorem IsPrintable.spelled (h : l.IsPrintable) (hquote : IsQuote quote)
    (hnext : ∀ c ∈ next, isWhiteSpace c = true) : l.Spelled (l.print quote) next := by
  have hlabel : ∀ {label}, IsLabel label → LabelSpelled label (printLabel label) next :=
    fun hlabel => labelSpelled_printLabel hlabel hnext
  cases l with
  | name word =>
    obtain ⟨c, cs, hword, hstart, hrest⟩ := h
    have hspelled := Spelled.name hstart hrest
      fun c hc => isWordChar_of_isWhiteSpace (hnext c hc)
    rwa [← hword, String.ofList_toList] at hspelled
  | literal text => exact spelled_printQuoted hquote text
  | charClass source =>
    obtain ⟨atoms, hinside, hsource⟩ := h
    have hspelled := @Spelled.charClass atoms next hinside
    rwa [← hsource, String.ofList_toList] at hspelled
  | quantifier mark label =>
    cases mark with
    | optional => exact .optional (hlabel h)
    | oneOrMore => exact .oneOrMore (hlabel h)
    | any => exact .any (hlabel h)
    | counted text =>
      obtain ⟨⟨inside, hinside, htext⟩, hword⟩ := h
      have hspelled := Spelled.counted hinside (hlabel hword)
      rwa [← htext, String.ofList_toList] at hspelled
  | closing label => exact .closing (hlabel h)
  | lookAhead positive =>
    cases positive with
    | true => exact .lookAhead
    | false => exact .negativeLookAhead
  | bar => exact .bar
  | define => exact .define
  | opening => exact .opening
  | cut => exact .cut
  | finish => exact h.elim

theorem isLabel_of_labelSpelled {label : Option String} {cs : List Char}
    (h : LabelSpelled label cs next) : IsLabel label := by
  rintro word hword
  cases h with
  | absent => cases hword
  | word hall hsome =>
    obtain rfl := Option.some.inj hword
    rw [String.toList_ofList]
    exact ⟨hsome, hall⟩

theorem isPrintable_iff : l.IsPrintable ↔ ∃ cs next, l.Spelled cs next := by
  refine ⟨fun h => ⟨_, none, h.spelled (.inl rfl) nofun⟩, ?_⟩
  rintro ⟨cs, next, h⟩
  cases h with
  | name hstart hword => exact ⟨_, _, String.toList_ofList, hstart, hword⟩
  | charClass hinside => exact ⟨_, hinside, String.toList_ofList⟩
  | counted hinside hlabel =>
    exact ⟨⟨_, hinside, String.toList_ofList⟩, isLabel_of_labelSpelled hlabel⟩
  | optional hlabel | oneOrMore hlabel | any hlabel | closing hlabel =>
    exact isLabel_of_labelSpelled hlabel
  | _ => trivial

end Lexeme

structure IsGap (cs : List Char) : Prop where
  begins : ∃ c, cs.head? = some c ∧ isWhiteSpace c = true
  trivia : ∀ rest, Trivia cs rest

/-- Tokens printed one behind the other, each literal in a quotation mark of its own, and with a gap
between any two of them. -/
inductive Printed : List Lexeme → List Char → Prop
  | none : Printed [] []
  | single {l : Lexeme} {quote : Char} : l.IsPrintable → IsQuote quote →
      Printed [l] (l.print quote)
  | apart {l : Lexeme} {quote : Char} {gap cs : List Char} {ls : List Lexeme} : l.IsPrintable →
      IsQuote quote → IsGap gap → Printed ls cs → Printed (l :: ls) (l.print quote ++ gap ++ cs)

/-- A source prints tokens, with any closed trivia before them. -/
def Prints (source : String) (ls : List Lexeme) : Prop :=
  ∃ lead cs, source.toList = lead ++ cs ∧ (∀ rest, Trivia lead rest) ∧ Printed ls cs

theorem Printed.exists_spans {ls : List Lexeme} {cs : List Char} (h : Printed ls cs) :
    ∃ ps : List Span, cs = Span.texts ps ∧ Span.Abut ps ∧ ps.map Span.lexeme = ls := by
  induction h with
  | none => exact ⟨[], rfl, .nil, rfl⟩
  | @single l quote hl hquote =>
    refine ⟨[⟨l, l.print quote, []⟩], ?_, .cons ⟨?_, .nil⟩ .nil, rfl⟩
    · simp [Span.text]
    · exact hl.spelled hquote fun c hc => by cases hc
  | @apart l quote gap cs ls hl hquote hgap _ ih =>
    obtain ⟨ps, rfl, hps, rfl⟩ := ih
    refine ⟨⟨l, l.print quote, gap⟩ :: ps, rfl, .cons ⟨?_, hgap.trivia _⟩ hps, rfl⟩
    -- the gap is what lies behind the token
    obtain ⟨space, hhead, hspace⟩ := hgap.begins
    refine hl.spelled hquote fun c hc => ?_
    rw [List.head?_append, hhead] at hc
    obtain rfl := Option.some.inj hc
    exact hspace

theorem Span.map_lexeme_tokens (source : List Char) (k : Nat) (ps : List Span) :
    (tokens source k ps).map Token.lexeme = ps.map Span.lexeme := by
  induction ps generalizing k with
  | nil => rfl
  | cons p ps ih => exact congrArg (p.lexeme :: ·) (ih _)

namespace Prints

variable {source : String} {ls : List Lexeme}

theorem exists_stream (h : Prints source ls) : ∃ found, found.map Token.lexeme = ls ∧
    TokenStream.ofString source =
      ⟨found, .ok (Offset.position source.toList source.toList.length)⟩ := by
  obtain ⟨lead, cs, htext, hlead, hprinted⟩ := h
  obtain ⟨ps, rfl, hps, rfl⟩ := hprinted.exists_spans
  exact ⟨_, Span.map_lexeme_tokens _ _ ps, TokenStream.ofString_of_abut htext (hlead _) hps⟩

/-- From a source that prints tokens a reader yields these and no others, and then it finds the end.
Another source that prints them with other trivia gives the same. -/
theorem yields_lexemes (h : Prints source ls) :
    (∃ found, found.map Token.lexeme = ls ∧ ∀ tokens place,
      (Lexer.ofString source).Yields tokens place ↔
        tokens = found ∧ place = Offset.position source.toList source.toList.length) ∧
    ∀ source', Prints source' ls → (TokenStream.ofString source').tokens.map Token.lexeme =
      (TokenStream.ofString source).tokens.map Token.lexeme := by
  obtain ⟨found, rfl, hstream⟩ := h.exists_stream
  refine ⟨⟨found, rfl, fun tokens place => ?_⟩, fun source' h' => ?_⟩
  · rw [← TokenStream.ofString_eq_ok, hstream, TokenStream.mk.injEq, Except.ok.injEq]
    exact and_congr eq_comm eq_comm
  · obtain ⟨found', hfound, hstream'⟩ := h'.exists_stream
    rw [hstream, hstream', hfound]

/-- Marks in comments, comments in a literal and in a class, and labels that are attached. -/
theorem yields_lexemes_quoted : ∃ source ls,
    source = "/*'*/R ::=\t/* ' ** */// )*.x\n'/*\n\"\\'\\\\' [\\]/*]\n\x7b 2\x7d.r_1 ).1" ∧
    ls = [.name "R", .define, .literal "/*\n\"'\\", .charClass "[\\]/*]",
      .quantifier (.counted "\x7b 2\x7d") (some "r_1"), .closing (some "1")] ∧
    Prints source ls ∧ ∃ found, found.map Token.lexeme = ls ∧ ∀ tokens place,
      (Lexer.ofString source).Yields tokens place ↔
        tokens = found ∧ place = Offset.position source.toList source.toList.length := by
  have hprints : Prints
      "/*'*/R ::=\t/* ' ** */// )*.x\n'/*\n\"\\'\\\\' [\\]/*]\n\x7b 2\x7d.r_1 ).1"
      [.name "R", .define, .literal "/*\n\"'\\", .charClass "[\\]/*]",
        .quantifier (.counted "\x7b 2\x7d") (some "r_1"), .closing (some "1")] := by
    have hspace : IsGap [' '] := ⟨⟨' ', rfl, rfl⟩, fun _ => .space rfl .nil⟩
    have hbreak : IsGap ['\n'] := ⟨⟨'\n', rfl, rfl⟩, fun _ => .space rfl .nil⟩
    have hcomments : IsGap "\t/* ' ** */// )*.x\n".toList :=
      ⟨⟨'\t', rfl, rfl⟩, fun _ => .space rfl (@Trivia.block " ' ** ".toList _ _ (by decide)
        (@Trivia.line " )*.x".toList _ _ (by decide) .nil))⟩
    have hlead : ∀ rest, Trivia "/*'*/".toList rest :=
      fun _ => @Trivia.block ['\''] _ _ (by decide) .nil
    refine ⟨_, _, ?_, hlead, .apart ?_ (.inl rfl) hspace (.apart trivial (.inl rfl) hcomments
      (.apart trivial (.inr rfl) hspace (.apart ?_ (.inl rfl) hbreak
        (.apart ?_ (.inl rfl) hspace (.single ?_ (.inl rfl))))))⟩
    · rfl
    · exact ⟨'R', [], rfl, rfl, by simp⟩
    · exact ⟨[.escaped ']', .plain '/', .plain '*'], by simp [ClassAtom.IsInside], rfl⟩
    · exact ⟨⟨[' ', '2'], by decide, rfl⟩, by rintro _ ⟨⟩; exact ⟨nofun, List.all_eq_true.1 rfl⟩⟩
    · rintro _ ⟨⟩
      exact ⟨nofun, List.all_eq_true.1 rfl⟩
  exact ⟨_, _, rfl, rfl, hprints, (yields_lexemes hprints).1⟩

end Prints

end Ebnf
