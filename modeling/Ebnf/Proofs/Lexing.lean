import Ebnf.Proofs.Lexing.Spelling
import Ebnf.Proofs.Offsets
import Ebnf.Token.Lexer

/-! Sources as spans. A source that is read to its end is trivia, a token's characters, trivia and
so on, with nothing left out and nothing read twice; and the tokens of a source put together from
such spans are read back, each at the place where its characters start. -/

namespace Ebnf

/-- A token's meaning and its characters, with the trivia behind them. -/
structure Span where
  lexeme : Lexeme
  spelling : List Char
  trivia : List Char

namespace Span

def text (p : Span) : List Char := p.spelling ++ p.trivia

def texts (ps : List Span) : List Char := ps.flatMap text

@[simp] theorem texts_nil : texts [] = [] := rfl

@[simp] theorem texts_cons (p : Span) (ps : List Span) : texts (p :: ps) = p.text ++ texts ps :=
  rfl

structure IsBefore (p : Span) (rest : List Char) : Prop where
  spelled : p.lexeme.Spelled p.spelling (p.trivia ++ rest).head?
  trivia : Trivia p.trivia rest

/-- Each span can be told from the ones behind it. -/
inductive Abut : List Span → Prop
  | nil : Abut []
  | cons {p : Span} {ps : List Span} : p.IsBefore (texts ps) → Abut ps → Abut (p :: ps)

/-- The tokens of the spans when the first of them stands behind `k` characters of a text. -/
def tokens (source : List Char) (k : Nat) : List Span → List Token
  | [] => []
  | p :: ps => ⟨p.lexeme, Offset.position source k⟩ :: tokens source (k + p.text.length) ps

variable {p : Span} {ps : List Span} {rest : List Char}

theorem IsBefore.not_startsTrivia (h : p.IsBefore rest) : ¬ StartsTrivia (p.text ++ rest) := by
  rw [text, List.append_assoc]
  exact h.spelled.not_startsTrivia

theorem Abut.not_startsTrivia (h : Abut ps) : ¬ StartsTrivia (texts ps) := by
  cases h with
  | nil => exact id
  | cons hp _ => exact hp.not_startsTrivia

theorem Abut.exists_isBefore (h : Abut ps) (hp : p ∈ ps) : ∃ rest, p.IsBefore rest := by
  induction h with
  | nil => cases hp
  | cons hbefore _ ih =>
    rcases List.mem_cons.1 hp with rfl | hrest
    · exact ⟨_, hbefore⟩
    · exact ih hrest

theorem IsBefore.length_pos (h : p.IsBefore rest) : 0 < p.text.length := by
  rw [text, List.length_append]
  exact Nat.add_pos_left (List.length_pos_iff.2 h.spelled.ne_nil) _

end Span

/-- The tokens that a reader yields, one call after the other, and the place of the one that tells
the end. -/
inductive Lexer.Yields : Lexer → List Token → Position → Prop
  | finish {l l' : Lexer} {place : Position} (h : l.next = (.ok ⟨.finish, place⟩, l')) :
      Yields l [] place
  | token {l l' : Lexer} {token : Token} {tokens : List Token} {place : Position}
      (h : l.next = (.ok token, l')) (hsome : token.lexeme ≠ .finish) :
      Yields l' tokens place → Yields l (token :: tokens) place

namespace Cursor

variable {text lead rest : List Char} {k : Nat} {c d : Cursor} {token : Token} {p : Span}

theorem drop_add_length {cs : List Char} (h : text.drop k = cs ++ rest) :
    text.drop (k + cs.length) = rest := by
  rw [← List.drop_drop, h, List.drop_left]

theorem skipTrivia_eq_ok : (atOffset text k).skipTrivia = (.ok (), d) ↔
    ∃ trivia rest, text.drop k = trivia ++ rest ∧ Trivia trivia rest ∧ ¬ StartsTrivia rest ∧
      d = atOffset text (k + trivia.length) := by
  rw [skipTrivia, ahead_atOffset]
  cases htrivia : triviaLength (text.drop k) with
  | error opened =>
    refine ⟨fun h => (by cases h), ?_⟩
    rintro ⟨trivia, rest, htext, hspelled, hstop, -⟩
    rw [triviaLength_eq_ok.2 ⟨trivia, rest, htext, rfl, hspelled, hstop⟩] at htrivia
    cases htrivia
  | ok n =>
    simp only [advance_atOffset, Prod.mk.injEq, true_and]
    constructor
    · rintro rfl
      obtain ⟨trivia, rest, htext, rfl, hspelled, hstop⟩ := triviaLength_eq_ok.1 htrivia
      exact ⟨trivia, rest, htext, hspelled, hstop, rfl⟩
    · rintro ⟨trivia, rest, htext, hspelled, hstop, rfl⟩
      rw [triviaLength_eq_ok.2 ⟨trivia, rest, htext, rfl, hspelled, hstop⟩] at htrivia
      rw [Except.ok.inj htrivia]

theorem readToken_eq_ok : c.readToken = (.ok token, d) ↔
    ∃ c₁ c₂, c.skipTrivia = (.ok (), c₁) ∧ c₁.readLexeme = (.ok token, c₂) ∧
      c₂.skipTrivia = (.ok (), d) := by
  rw [readToken]
  rcases c.skipTrivia with ⟨_ | _, c₁⟩
  · simp
  rcases hlexeme : c₁.readLexeme with ⟨_ | token', c₂⟩
  · simp [hlexeme]
  rcases htrivia : c₂.skipTrivia with ⟨_ | _, c₃⟩ <;> simp [hlexeme, htrivia]

theorem readLexeme_append {l : Lexeme} {cs : List Char} (htext : text.drop k = cs ++ rest)
    (h : l.Spelled cs rest.head?) : (atOffset text k).readLexeme =
      (.ok ⟨l, Offset.position text k⟩, atOffset text (k + cs.length)) := by
  rw [readLexeme, ahead_atOffset, htext, Scan.ofText_append h]
  simp only [advance_atOffset, position_atOffset]

theorem exists_of_readLexeme (hstop : ¬ StartsTrivia (text.drop k))
    (h : (atOffset text k).readLexeme = (.ok token, d)) :
    (text.drop k = [] ∧ token = ⟨.finish, Offset.position text k⟩ ∧ d = atOffset text k) ∨
    ∃ l cs rest, text.drop k = cs ++ rest ∧ Lexeme.Spelled l cs rest.head? ∧
      token = ⟨l, Offset.position text k⟩ ∧ d = atOffset text (k + cs.length) := by
  rw [readLexeme, ahead_atOffset] at h
  cases hscan : Scan.ofText (text.drop k) with
  | fault f offset n =>
    rw [hscan] at h
    cases h
  | lexeme l n =>
    rw [hscan] at h
    simp only [advance_atOffset, position_atOffset, Prod.mk.injEq, Except.ok.injEq] at h
    obtain ⟨rfl, rfl⟩ := h
    by_cases hend : text.drop k = []
    · rw [hend, Scan.ofText, Scan.lexeme.injEq] at hscan
      obtain ⟨rfl, rfl⟩ := hscan
      exact .inl ⟨hend, rfl, rfl⟩
    · obtain ⟨cs, rest, htext, rfl, hspelled⟩ := Scan.finds_ofText hscan hend hstop
      exact .inr ⟨l, cs, rest, htext, hspelled, rfl, rfl⟩

theorem readToken_finish (hk : k ≤ text.length) (h : Trivia (text.drop k) []) :
    (atOffset text k).readToken =
      (.ok ⟨.finish, Offset.position text text.length⟩, atOffset text text.length) := by
  have hend : k + (text.drop k).length = text.length := by
    rw [List.length_drop]
    omega
  have hnone : text.drop text.length = [] := List.drop_length
  refine readToken_eq_ok.2 ⟨_, _, skipTrivia_eq_ok.2
    ⟨_, [], (List.append_nil _).symm, h, id, by rw [hend]⟩, ?_, skipTrivia_eq_ok.2
    ⟨[], [], hnone, .nil, id, rfl⟩⟩
  rw [readLexeme, ahead_atOffset, hnone, Scan.ofText]
  simp only [advance_atOffset, position_atOffset, Nat.add_zero]

theorem readToken_span (htext : text.drop k = lead ++ (p.text ++ rest))
    (hlead : Trivia lead (p.text ++ rest)) (hp : p.IsBefore rest) (hstop : ¬ StartsTrivia rest) :
    (atOffset text k).readToken = (.ok ⟨p.lexeme, Offset.position text (k + lead.length)⟩,
      atOffset text (k + lead.length + p.text.length)) := by
  have hbehind := drop_add_length htext
  rw [Span.text, List.append_assoc] at hbehind
  refine readToken_eq_ok.2 ⟨_, _, skipTrivia_eq_ok.2
    ⟨lead, _, htext, hlead, hp.not_startsTrivia, rfl⟩, readLexeme_append hbehind hp.spelled,
    skipTrivia_eq_ok.2 ⟨p.trivia, rest, drop_add_length hbehind, hp.trivia, hstop, ?_⟩⟩
  rw [Span.text, List.length_append, Nat.add_assoc (k + lead.length)]

theorem exists_of_readToken (hk : k ≤ text.length)
    (h : (atOffset text k).readToken = (.ok token, d)) :
    (token = ⟨.finish, Offset.position text text.length⟩ ∧ Trivia (text.drop k) []) ∨
    ∃ lead p rest, text.drop k = lead ++ (Span.text p ++ rest) ∧ Trivia lead (p.text ++ rest) ∧
      p.IsBefore rest ∧ ¬ StartsTrivia rest ∧
      token = ⟨p.lexeme, Offset.position text (k + lead.length)⟩ ∧
      d = atOffset text (k + lead.length + p.text.length) := by
  obtain ⟨c₁, c₂, hlead, hlexeme, htrivia⟩ := readToken_eq_ok.1 h
  obtain ⟨lead, behind, htext, hspelled, hstop, rfl⟩ := skipTrivia_eq_ok.1 hlead
  have hbehind := drop_add_length htext
  rcases exists_of_readLexeme (hbehind ▸ hstop) hlexeme with
    ⟨hend, rfl, -⟩ | ⟨l, cs, rest, hcs, hl, rfl, rfl⟩
  · obtain rfl : behind = [] := hbehind.symm.trans hend
    rw [List.append_nil] at htext
    have hlength : k + lead.length = text.length := by
      rw [← htext, List.length_drop]
      omega
    exact .inl ⟨by rw [hlength], htext ▸ hspelled⟩
  · obtain ⟨trivia, after, hafter, hspelled', hstop', rfl⟩ := skipTrivia_eq_ok.1 htrivia
    have hrest := drop_add_length hcs
    obtain rfl : rest = trivia ++ after := hrest.symm.trans hafter
    have hspan : behind = Span.text ⟨l, cs, trivia⟩ ++ after := by
      rw [Span.text, List.append_assoc]
      exact hbehind.symm.trans hcs
    refine .inr ⟨lead, ⟨l, cs, trivia⟩, after, hspan ▸ htext, hspan ▸ hspelled, ⟨hl, hspelled'⟩,
      hstop', rfl, ?_⟩
    rw [Span.text, List.length_append, Nat.add_assoc (k + lead.length)]

end Cursor

namespace Lexer

variable {text : List Char} {k : Nat} {found : List Token} {place : Position}

theorem next_of_held_none {c : Cursor} :
    (Lexer.mk c none).next = (c.readToken.1, ⟨c.readToken.2, none⟩) := rfl

theorem not_yields_of_error {c : Cursor} {e : GrammarError} (h : c.readToken.1 = .error e) :
    ¬Yields ⟨c, none⟩ found place := by
  intro hyields
  cases hyields with
  | finish hnext | token hnext => simp [next_of_held_none, h] at hnext

theorem yields_iff_of_readToken {c d : Cursor} {token : Token} (h : c.readToken = (.ok token, d)) :
    Yields ⟨c, none⟩ found place ↔
      if token.lexeme = .finish then found = [] ∧ place = token.position
      else ∃ rest, found = token :: rest ∧ Yields ⟨d, none⟩ rest place := by
  have hnext : (Lexer.mk c none).next = (.ok token, ⟨d, none⟩) := by rw [next_of_held_none, h]
  constructor
  · intro hyields
    cases hyields with
    | finish hnext' =>
      obtain ⟨rfl, -⟩ : token = ⟨.finish, place⟩ ∧ _ := by simpa [hnext] using hnext'
      exact ⟨rfl, rfl⟩
    | token hnext' hsome hrest =>
      obtain ⟨rfl, rfl⟩ : token = _ ∧ Lexer.mk d none = _ := by simpa [hnext] using hnext'
      rw [if_neg hsome]
      exact ⟨_, rfl, hrest⟩
  · split
    · next hfinish =>
      rintro ⟨rfl, rfl⟩
      exact .finish (hnext.trans (by rw [← hfinish]))
    · next hsome =>
      rintro ⟨rest, rfl, hrest⟩
      exact .token hnext hsome hrest

theorem exists_of_yields (hk : k ≤ text.length)
    (h : Yields ⟨.atOffset text k, none⟩ found place) :
    ∃ lead ps, text.drop k = lead ++ Span.texts ps ∧ Trivia lead (Span.texts ps) ∧
      Span.Abut ps ∧ found = Span.tokens text (k + lead.length) ps ∧
      place = Offset.position text text.length := by
  generalize hl : Lexer.mk (.atOffset text k) none = l at h
  induction h generalizing k with
  | finish hnext =>
    subst hl
    obtain ⟨htoken, -⟩ := Prod.mk.inj hnext
    rcases Cursor.exists_of_readToken hk (Prod.ext htoken rfl) with
      ⟨heq, htrivia⟩ | ⟨_, p, _, _, _, hp, _, heq, _⟩
    · exact ⟨_, [], (List.append_nil _).symm, htrivia, .nil, rfl, (Token.mk.inj heq).2⟩
    · exact absurd (Token.mk.inj heq).1.symm hp.spelled.ne_finish
  | token hnext hsome _ ih =>
    subst hl
    obtain ⟨htoken, rfl⟩ := Prod.mk.inj hnext
    rcases Cursor.exists_of_readToken hk (Prod.ext htoken rfl) with
      ⟨rfl, -⟩ | ⟨lead, p, rest, htext, hlead, hp, hstop, rfl, hcursor⟩
    · exact absurd rfl hsome
    · have hbehind := Cursor.drop_add_length (Cursor.drop_add_length htext)
      have hlength := congrArg List.length htext
      simp only [List.length_drop, List.length_append] at hlength
      obtain ⟨lead', ps, hrest, hlead', hps, rfl, rfl⟩ :=
        ih (by omega) (congrArg (Lexer.mk · none) hcursor.symm)
      obtain rfl := hbehind.symm.trans hrest
      obtain rfl := hlead'.eq_nil hstop
      exact ⟨lead, p :: ps, htext, hlead, .cons hp hps, rfl, rfl⟩

theorem yields_of_abut (hk : k ≤ text.length) {lead : List Char} {ps : List Span}
    (htext : text.drop k = lead ++ Span.texts ps) (hlead : Trivia lead (Span.texts ps))
    (hps : Span.Abut ps) : Yields ⟨.atOffset text k, none⟩
      (Span.tokens text (k + lead.length) ps) (Offset.position text text.length) := by
  induction hps generalizing k lead with
  | nil =>
    rw [Span.texts_nil, List.append_nil] at htext
    have hread := Cursor.readToken_finish hk (htext ▸ hlead)
    exact .finish (congrArg (fun r => (r.1, Lexer.mk r.2 none)) hread)
  | @cons p ps hp hps ih =>
    have hread := Cursor.readToken_span htext hlead hp hps.not_startsTrivia
    have hbehind := Cursor.drop_add_length (Cursor.drop_add_length htext)
    have hlength := congrArg List.length htext
    simp only [List.length_drop, List.length_append, Span.texts_cons] at hlength
    have hrest := @ih (k + lead.length + p.text.length) (by omega) [] hbehind .nil
    exact .token (congrArg (fun r => (r.1, Lexer.mk r.2 none)) hread) hp.spelled.ne_finish hrest

theorem yields_atOffset_iff (hk : k ≤ text.length) :
    Yields ⟨.atOffset text k, none⟩ found place ↔
      ∃ lead ps, text.drop k = lead ++ Span.texts ps ∧ Trivia lead (Span.texts ps) ∧
        Span.Abut ps ∧ found = Span.tokens text (k + lead.length) ps ∧
        place = Offset.position text text.length := by
  refine ⟨exists_of_yields hk, ?_⟩
  rintro ⟨lead, ps, htext, hlead, hps, rfl, rfl⟩
  exact yields_of_abut hk htext hlead hps

/-- A source is read to its end, and these are its tokens, if and only if it is made of their
characters with trivia before, between and behind them. A token has some characters, which alone
say what it means, and its place is where they start. -/
theorem yields_iff (source : String) (found : List Token) (place : Position) :
    (ofString source).Yields found place ↔ ∃ lead ps, source.toList = lead ++ Span.texts ps ∧
      Trivia lead (Span.texts ps) ∧ Span.Abut ps ∧
      (∀ p ∈ ps, p.spelling ≠ [] ∧ ∀ l next, Lexeme.Spelled l p.spelling next → l = p.lexeme) ∧
      found = Span.tokens source.toList lead.length ps ∧
      place = Offset.position source.toList source.toList.length := by
  have hiff : (ofString source).Yields found place ↔ _ := yields_atOffset_iff (Nat.zero_le _)
  rw [hiff]
  simp only [List.drop_zero, Nat.zero_add]
  refine exists₂_congr fun lead ps => and_congr_right fun _ => and_congr_right fun _ => ?_
  refine and_congr_right fun hps => (and_iff_right fun p hp => ?_).symm
  obtain ⟨rest, hbefore⟩ := hps.exists_isBefore hp
  exact ⟨hbefore.spelled.ne_nil, fun l next h => h.unique hbefore.spelled⟩

end Lexer

namespace TokenStream

theorem collect_eq_ok {text : List Char} {k fuel : Nat} (hk : k ≤ text.length)
    (hfuel : text.length < k + fuel) {found : List Token} {place : Position} :
    collect fuel (.atOffset text k) = ⟨found, .ok place⟩ ↔
      Lexer.Yields ⟨.atOffset text k, none⟩ found place := by
  induction fuel generalizing k found with
  | zero => omega
  | succ fuel ih =>
    rw [collect]
    rcases hread : (Cursor.atOffset text k).readToken with ⟨e | token, d⟩
    · have hnone : ¬Lexer.Yields ⟨.atOffset text k, none⟩ found place :=
        Lexer.not_yields_of_error (congrArg Prod.fst hread)
      simp [hnone]
    · rw [Lexer.yields_iff_of_readToken hread]
      by_cases hfinish : token.lexeme = .finish
      · simp [hfinish, eq_comm]
      · simp only [if_neg hfinish]
        rcases Cursor.exists_of_readToken hk hread with
          ⟨rfl, -⟩ | ⟨lead, p, rest, htext, _, hp, _, _, rfl⟩
        · exact absurd rfl hfinish
        -- each token uses up some of the text
        have hlength := congrArg List.length htext
        have hpos := hp.length_pos
        simp only [List.length_drop, List.length_append] at hlength
        have hrest := fun {found} =>
          @ih (k + lead.length + p.text.length) (by omega) (by omega) found
        rw [TokenStream.mk.injEq]
        constructor
        · rintro ⟨rfl, hending⟩
          exact ⟨_, rfl, hrest.1 (by rw [← hending])⟩
        · rintro ⟨rest, rfl, hyields⟩
          rw [hrest.2 hyields]
          exact ⟨rfl, rfl⟩

theorem ofString_eq_ok {source : String} {found : List Token} {place : Position} :
    ofString source = ⟨found, .ok place⟩ ↔ (Lexer.ofString source).Yields found place :=
  collect_eq_ok (Nat.zero_le _) (by rw [Nat.zero_add]; exact Nat.lt_succ_self _)

theorem exists_spans {source : String} {place : Position}
    (h : (ofString source).ending = .ok place) :
    ∃ lead ps, source.toList = lead ++ Span.texts ps ∧ Span.Abut ps ∧
      (ofString source).tokens = Span.tokens source.toList lead.length ps := by
  have hstream : ofString source = ⟨(ofString source).tokens, .ok place⟩ := by rw [← h]
  have hyields : Lexer.Yields ⟨.atOffset source.toList 0, none⟩ (ofString source).tokens place :=
    ofString_eq_ok.1 hstream
  obtain ⟨lead, ps, htext, -, hps, htokens, -⟩ := Lexer.exists_of_yields (Nat.zero_le _) hyields
  rw [Nat.zero_add] at htokens
  exact ⟨lead, ps, htext, hps, htokens⟩

theorem ofString_of_abut {source : String} {lead : List Char} {ps : List Span}
    (htext : source.toList = lead ++ Span.texts ps) (hlead : Trivia lead (Span.texts ps))
    (hps : Span.Abut ps) : ofString source = ⟨Span.tokens source.toList lead.length ps,
      .ok (Offset.position source.toList source.toList.length)⟩ := by
  have hyields : Lexer.Yields ⟨.atOffset source.toList 0, none⟩ _ _ :=
    Lexer.yields_of_abut (Nat.zero_le _) htext hlead hps
  rw [Nat.zero_add] at hyields
  exact ofString_eq_ok.2 hyields

example : (ofString "A::='\\'//'.b /* * */ [\\]/*]+.x//").tokens.map Token.lexeme =
    [.name "A", .define, .literal "'//", .literal ".b", .charClass "[\\]/*]",
      .quantifier .oneOrMore (some "x")] := by
  decide +kernel

end TokenStream

end Ebnf
