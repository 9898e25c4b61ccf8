import Ebnf.Error
import Ebnf.Text.Cursor

/-! The tokens of a source, one at a time with one token of look-ahead, or all at once. Trivia is
skipped before and after each token. -/

namespace Ebnf

namespace Cursor

/-- Moves over trivia, or to the end if a block comment is not closed. -/
def skipTrivia (c : Cursor) : Except GrammarError Unit × Cursor :=
  match triviaLength c.ahead with
  | .ok n => (.ok (), c.advance n)
  | .error opened => (.error (.lex (c.advance opened).position .openComment), c.toEnd)

def readLexeme (c : Cursor) : Except GrammarError Token × Cursor :=
  match Scan.ofText c.ahead with
  | .lexeme l n => (.ok ⟨l, c.position⟩, c.advance n)
  | .fault f offset n => (.error (.lex (c.advance offset).position f), c.advance n)

def readToken (c : Cursor) : Except GrammarError Token × Cursor :=
  match c.skipTrivia with
  | (.error e, c) => (.error e, c)
  | (.ok _, c) =>
    match c.readLexeme with
    | (.error e, c) => (.error e, c)
    | (.ok token, c) =>
      match c.skipTrivia with
      | (.error e, c) => (.error e, c)
      | (.ok _, c) => (.ok token, c)

end Cursor

structure Lexer where
  cursor : Cursor
  held : Option Token

namespace Lexer

def ofString (source : String) : Lexer := ⟨.ofString source, none⟩

def next (l : Lexer) : Except GrammarError Token × Lexer :=
  match l.held with
  | some token => (.ok token, ⟨l.cursor, none⟩)
  | none =>
    let (result, cursor) := l.cursor.readToken
    (result, ⟨cursor, none⟩)

def peek (l : Lexer) : Except GrammarError Token × Lexer :=
  match l.next with
  | (.ok token, l) => (.ok token, ⟨l.cursor, some token⟩)
  | (.error e, l) => (.error e, l)

def hasNext (l : Lexer) : Except GrammarError Bool × Lexer :=
  match l.peek with
  | (.ok token, l) => (.ok (token.lexeme ≠ .finish), l)
  | (.error e, l) => (.error e, l)

end Lexer

/-- The tokens of a source in order, and how they end: at the place of the last token, which is no
part of the list, or in an error. -/
structure TokenStream where
  tokens : List Token
  ending : Except GrammarError Position

namespace TokenStream

def collect : (fuel : Nat) → Cursor → TokenStream
  | 0, c => ⟨[], .ok c.position⟩
  | fuel + 1, c =>
    match c.readToken with
    | (.error e, _) => ⟨[], .error e⟩
    | (.ok token, c) =>
      if token.lexeme = .finish then ⟨[], .ok token.position⟩
      else
        let rest := collect fuel c
        ⟨token :: rest.tokens, rest.ending⟩

def ofString (source : String) : TokenStream :=
  let c := Cursor.ofString source
  collect (c.ahead.length + 1) c

end TokenStream

end Ebnf
