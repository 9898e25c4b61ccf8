import Ebnf.Proofs.Lexing.Printing

/-! Tokens that are returned. Whatever calls a reader of tokens has answered before, and whatever
errors it has met, a token that it returns could have been printed. So the text of a class runs from
a bracket to the first one that closes it, backslashes taken in pairs. -/

namespace Ebnf

inductive Lexer.Reached (source : String) : Lexer → Prop
  | start : Reached source (.ofString source)
  | next {l : Lexer} : Reached source l → Reached source l.next.2
  | peek {l : Lexer} : Reached source l → Reached source l.peek.2
  | hasNext {l : Lexer} : Reached source l → Reached source l.hasNext.2

/-- The tokens that are returned for a source, after calls of any kind. -/
def Lexer.Returns (source : String) (token : Token) : Prop :=
  ∃ l, Reached source l ∧ (l.next.1 = .ok token ∨ l.peek.1 = .ok token)

/-- A token that some source has, or the one that tells the end. -/
def Token.IsReal (token : Token) : Prop := token.lexeme = .finish ∨ token.lexeme.IsPrintable

theorem Cursor.isReal_of_readToken {c d : Cursor} {token : Token}
    (h : c.readToken = (.ok token, d)) : token.IsReal := by
  obtain ⟨c₁, c₂, hlead, hlexeme, -⟩ := readToken_eq_ok.1 h
  have hstop : ¬ StartsTrivia c₁.ahead := by
    rw [skipTrivia] at hlead
    split at hlead
    · next n htrivia =>
      obtain ⟨trivia, rest, hahead, rfl, -, hstop⟩ := triviaLength_eq_ok.1 htrivia
      cases hlead
      have hrest : (c.advance trivia.length).ahead = rest := by
        rw [advance, hahead, List.drop_left]
      rwa [hrest]
    · cases hlead
  rw [readLexeme] at hlexeme
  split at hlexeme
  · next l n hscan =>
    cases hlexeme
    by_cases hend : c₁.ahead = []
    · rw [hend, Scan.ofText, Scan.lexeme.injEq] at hscan
      exact .inl hscan.1.symm
    · obtain ⟨cs, rest, -, -, hspelled⟩ := Scan.finds_ofText hscan hend hstop
      exact .inr (Lexeme.isPrintable_iff.2 ⟨cs, _, hspelled⟩)
  · cases hlexeme

namespace Lexer

variable {source : String} {l : Lexer} {token : Token}

theorem isReal_of_next (hheld : ∀ token ∈ l.held, token.IsReal) (h : l.next.1 = .ok token) :
    token.IsReal := by
  rw [next] at h
  split at h
  · next held hsome =>
    cases h
    exact hheld _ hsome
  · exact Cursor.isReal_of_readToken (Prod.ext h rfl)

theorem peek_eq_next : l.peek.1 = l.next.1 := by
  unfold peek
  rcases l.next with ⟨_ | _, _⟩ <;> rfl

theorem held_peek {held : Token} (h : held ∈ l.peek.2.held) :
    l.next.1 = .ok held ∨ held ∈ l.next.2.held := by
  unfold peek at h
  rcases hnext : l.next with ⟨e | token, l'⟩ <;> rw [hnext] at h
  · exact .inr h
  · cases h
    exact .inl rfl

theorem hasNext_eq_peek : l.hasNext.2 = l.peek.2 := by
  unfold hasNext
  rcases l.peek with ⟨_ | _, _⟩ <;> rfl

theorem held_next : l.next.2.held = none := by
  unfold next
  split <;> rfl

theorem Reached.held (h : Reached source l) : ∀ token ∈ l.held, token.IsReal := by
  have peeked {l : Lexer} (ih : ∀ token ∈ l.held, token.IsReal) :
      ∀ token ∈ l.peek.2.held, token.IsReal := by
    intro token htoken
    rcases held_peek htoken with hnext | hheld
    · exact isReal_of_next ih hnext
    · rw [held_next] at hheld
      cases hheld
  induction h with
  | start => exact nofun
  | next =>
    rw [held_next]
    exact nofun
  | peek _ ih => exact peeked ih
  | hasNext _ ih =>
    rw [hasNext_eq_peek]
    exact peeked ih

theorem Returns.isReal (h : Returns source token) : token.IsReal := by
  obtain ⟨l, hl, htoken⟩ := h
  rw [peek_eq_next, or_self] at htoken
  exact isReal_of_next hl.held htoken

theorem Returns.isClassText {text : String} {place : Position}
    (h : Returns source ⟨.charClass text, place⟩) : IsClassText text.toList :=
  h.isReal.resolve_left nofun

end Lexer

end Ebnf
