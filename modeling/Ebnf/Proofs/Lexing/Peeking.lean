import Ebnf.Proofs.Classes.Tokens
import Ebnf.Proofs.Lexing.Progress

/-! Looking ahead changes nothing. What a reader of tokens returns follows from what it would return
next, and looking at that token keeps it; so all calls in any order see the tokens that one call
after the other returns, and behind the last of them the end for ever. -/

namespace Ebnf

inductive LexerCall where
  | next
  | peek
  | hasNext
deriving DecidableEq

namespace Lexer

def call (l : Lexer) : LexerCall → Lexer
  | .next => l.next.2
  | .peek => l.peek.2
  | .hasNext => l.hasNext.2

/-- The reader that calls one after the other lead to. -/
def after (l : Lexer) (calls : List LexerCall) : Lexer := calls.foldl call l

/-- What those calls return that take a token. -/
def returned (l : Lexer) : List LexerCall → List (Except GrammarError Token)
  | [] => []
  | .next :: calls => l.next.1 :: returned l.next.2 calls
  | c :: calls => returned (l.call c) calls

def Gives (l : Lexer) (answer : Nat → Token) : Prop :=
  ∀ n, (l.after (List.replicate n .next)).next.1 = .ok (answer n)

variable {l : Lexer} {answer : Nat → Token} {token : Token}

namespace Gives

theorem next_fst (h : l.Gives answer) : l.next.1 = .ok (answer 0) := h 0

theorem next (h : l.Gives answer) : l.next.2.Gives fun n => answer (n + 1) :=
  fun n => h (n + 1)

theorem of_next (h : l.next.1 = .ok (answer 0))
    (hrest : l.next.2.Gives fun n => answer (n + 1)) : l.Gives answer := by
  intro n
  cases n with
  | zero => exact h
  | succ n => exact hrest n

end Gives

theorem next_peek (h : l.next.1 = .ok token) : l.peek.2.next = l.next := by
  have hheld := held_next (l := l)
  unfold peek
  rcases hnext : l.next with ⟨_ | token', l'⟩
  · rw [hnext] at h
    cases h
  · rw [hnext] at hheld
    obtain ⟨cursor, held⟩ := l'
    obtain rfl : held = none := hheld
    rfl

namespace Gives

theorem peek (h : l.Gives answer) : l.peek.2.Gives answer := by
  have hnext := next_peek h.next_fst
  apply Gives.of_next
  · rw [hnext]
    exact h.next_fst
  · rw [hnext]
    exact h.next

theorem call (h : l.Gives answer) (c : LexerCall) :
    (l.call c).Gives fun n => answer (n + if c == .next then 1 else 0) := by
  cases c with
  | next => exact h.next
  | peek => exact h.peek
  | hasNext =>
    rw [Lexer.call, hasNext_eq_peek]
    exact h.peek

theorem after (h : l.Gives answer) (calls : List LexerCall) :
    (l.after calls).Gives fun n => answer (n + calls.count .next) := by
  induction calls generalizing l answer with
  | nil => exact h
  | cons c calls ih =>
    simp only [List.count_cons, ← Nat.add_assoc]
    exact ih (h.call c)

theorem returned (h : l.Gives answer) (calls : List LexerCall) : l.returned calls =
    (List.range (calls.count .next)).map fun n => .ok (answer n) := by
  induction calls generalizing l answer with
  | nil => rfl
  | cons c calls ih =>
    cases c with
    | next =>
      rw [Lexer.returned, ih h.next, h.next_fst, List.count_cons_self, List.range_succ_eq_map,
        List.map_cons, List.map_map]
      rfl
    | peek => exact ih (h.call .peek)
    | hasNext => exact ih (h.call .hasNext)

theorem hasNext_fst (h : l.Gives answer) :
    l.hasNext.1 = .ok (decide ((answer 0).lexeme ≠ .finish)) := by
  have hpeek := peek_eq_next.trans h.next_fst
  unfold Lexer.hasNext
  rcases hanswer : l.peek with ⟨_ | token, l'⟩ <;> rw [hanswer] at hpeek
  · cases hpeek
  · obtain rfl := Except.ok.inj hpeek
    rfl

end Gives

theorem gives_finish {c : Cursor} (hc : c.ahead = []) :
    Gives ⟨c, none⟩ fun _ => ⟨.finish, c.position⟩ := by
  have hnext : (Lexer.mk c none).next = (.ok ⟨.finish, c.position⟩, ⟨c, none⟩) := by
    rw [next_of_held_none, Cursor.readToken_of_ahead_nil hc]
  intro n
  induction n with
  | zero => exact congrArg Prod.fst hnext
  | succ n ih =>
    rw [List.replicate_succ, Lexer.after, List.foldl_cons, Lexer.call, hnext]
    exact ih

theorem gives_of_yields {c : Cursor} {found : List Token} {place : Position}
    (h : Yields ⟨c, none⟩ found place) :
    Gives ⟨c, none⟩ fun n => found.getD n ⟨.finish, place⟩ := by
  generalize hl : Lexer.mk c none = l at h
  induction h generalizing c with
  | @finish l l' place hnext =>
    subst hl
    have htoken : c.readToken.1 = .ok ⟨.finish, place⟩ := congrArg Prod.fst hnext
    rcases c.readToken_cases with ⟨e, herror⟩ | ⟨d, hread, hend⟩ | ⟨token, d, hread, hsome, -⟩
    · rw [herror] at htoken
      cases htoken
    · rw [hread] at htoken
      obtain ⟨-, rfl⟩ := Token.mk.inj (Except.ok.inj htoken)
      apply Gives.of_next
      · exact congrArg Prod.fst hread
      · rw [next_of_held_none, hread]
        exact gives_finish hend
    · rw [hread] at htoken
      obtain rfl := Except.ok.inj htoken
      exact absurd rfl hsome
  | token hnext hsome _ ih =>
    subst hl
    obtain ⟨htoken, rfl⟩ := Prod.mk.inj hnext
    exact .of_next htoken (ih rfl)

theorem Yields.lexeme_ne_finish {found : List Token} {place : Position} (h : Yields l found place) :
    ∀ token ∈ found, token.lexeme ≠ .finish := by
  induction h with
  | finish => exact nofun
  | token _ hsome _ ih => exact List.forall_mem_cons.2 ⟨hsome, ih⟩

variable {source : String} {found : List Token} {place : Position}

/-- Calls of a reader in any order return the tokens of its source as calls that only take them
return them, and behind these the end for ever. A token that is looked at is the one that is taken
next, and there is a next one until the end is. -/
theorem peeking_transparent (h : (ofString source).Yields found place) (calls : List LexerCall) :
    let l := (ofString source).after calls
    let token := found.getD (calls.count .next) ⟨.finish, place⟩
    (ofString source).returned calls =
        (ofString source).returned (List.replicate (calls.count .next) .next) ∧
      (ofString source).returned calls =
        (List.range (calls.count .next)).map (fun n => .ok (found.getD n ⟨.finish, place⟩)) ∧
      l.peek.1 = .ok token ∧
      (∀ between, .next ∉ between → (l.after between).next.1 = l.peek.1) ∧
      l.hasNext.1 = .ok (decide (token.lexeme ≠ .finish)) ∧
      (token.lexeme = .finish ↔ found.length ≤ calls.count .next) := by
  have hgives : (ofString source).Gives _ := gives_of_yields h
  have hafter := hgives.after calls
  have hpeek := peek_eq_next.trans hafter.next_fst
  have hhas := hafter.hasNext_fst
  rw [Nat.zero_add] at hpeek hhas
  have halone := hgives.returned (List.replicate (calls.count .next) .next)
  rw [List.count_replicate_self] at halone
  refine ⟨(hgives.returned calls).trans halone.symm, hgives.returned calls, hpeek, ?_, hhas, ?_⟩
  · intro between hbetween
    have hnext := (hafter.after between).next_fst
    rw [List.count_eq_zero.2 hbetween, Nat.zero_add] at hnext
    exact hnext.trans hpeek.symm
  · constructor
    · intro hfinish
      by_contra hless
      have hless := Nat.not_le.1 hless
      rw [List.getD_eq_getElem _ _ hless] at hfinish
      exact h.lexeme_ne_finish _ (List.getElem_mem hless) hfinish
    · intro hle
      rw [List.getD_eq_default _ _ hle]

theorem peeking_transparent_repeated : ∃ found place,
    (ofString "A // x\n*.b ").Yields found place ∧
      (ofString "A // x\n*.b ").returned [.peek, .peek, .next, .hasNext, .peek, .next, .next, .peek,
        .next] = (ofString "A // x\n*.b ").returned [.next, .next, .next, .next] ∧
      (ofString "A // x\n*.b ").returned [.next, .next, .next, .next] =
        [.ok ⟨.name "A", ⟨0, 0, 0⟩⟩, .ok ⟨.quantifier .any (some "b"), ⟨7, 1, 0⟩⟩,
          .ok ⟨.finish, ⟨11, 1, 4⟩⟩, .ok ⟨.finish, ⟨11, 1, 4⟩⟩] := by
  have h : (ofString "A // x\n*.b ").Yields
      [⟨.name "A", ⟨0, 0, 0⟩⟩, ⟨.quantifier .any (some "b"), ⟨7, 1, 0⟩⟩] ⟨11, 1, 4⟩ :=
    TokenStream.ofString_eq_ok.1 (by rfl)
  exact ⟨_, _, h, (peeking_transparent h _).1, (peeking_transparent h _).2.1⟩

end Lexer

end Ebnf
