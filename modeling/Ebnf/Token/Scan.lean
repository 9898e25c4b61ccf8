import Ebnf.CharClass.Atom
import Ebnf.Text.WhiteSpace
import Ebnf.Token

/-! What stands at the head of a source text: how much of it is trivia, and which token comes
first. Lengths count characters. -/

namespace Ebnf

inductive LexFault where
  | openComment
  | openString
  | openClass
  | openRepetition
  | missingLabel
  | unexpectedCharacter
deriving DecidableEq

def LexFault.message : LexFault → String
  | openComment => "unterminated block comment"
  | openString => "unterminated string"
  | openClass => "unterminated character class"
  | openRepetition => "unterminated repetition quantifier"
  | missingLabel => "expected a node name after '.'"
  | unexpectedCharacter => "unexpected character"

inductive TriviaPlace where
  | between
  | inLine
  | inBlock (opened : Nat)

/-- Where the trivia ends whose reader has come `n` characters far. A block comment that is not
closed is an error, which tells where the comment opens. -/
def triviaEnd (n : Nat) : TriviaPlace → List Char → Except Nat Nat
  | .between, '/' :: '/' :: rest => triviaEnd (n + 2) .inLine rest
  | .between, '/' :: '*' :: rest => triviaEnd (n + 2) (.inBlock n) rest
  | .between, c :: rest =>
    if isWhiteSpace c then triviaEnd (n + 1) .between rest else .ok n
  | .inLine, '\n' :: rest => triviaEnd (n + 1) .between rest
  | .inLine, _ :: rest => triviaEnd (n + 1) .inLine rest
  | .inBlock _, '*' :: '/' :: rest => triviaEnd (n + 2) .between rest
  | .inBlock opened, _ :: rest => triviaEnd (n + 1) (.inBlock opened) rest
  | .inBlock opened, [] => .error opened
  | _, [] => .ok n

def triviaLength (text : List Char) : Except Nat Nat := triviaEnd 0 .between text

/-- What a reader finds at the head of a text: a token and its length, or a fault with the place
it is reported at and the length it has used up. -/
inductive Scan where
  | lexeme (l : Lexeme) (length : Nat)
  | fault (f : LexFault) (offset length : Nat)

def isReserved (c : Char) : Bool :=
  ['*', '+', '?', '|', '\x7b', '[', '"', '\'', '(', ')', '&', '!', '~'].contains c

def isFree (c : Char) : Bool := !isWhiteSpace c && !isReserved c

def quoted (quote : Char) : List Char → Option (List Char × Nat)
  | [] => none
  | [c] => if c = quote then some ([], 1) else none
  | c :: d :: rest =>
    if c = '\\' then (quoted quote rest).map fun (content, n) => (unescape d :: content, n + 2)
    else if c = quote then some ([], 1)
    else (quoted quote (d :: rest)).map fun (content, n) => (c :: content, n + 1)

namespace Scan

def labelled (build : Option String → Lexeme) (length : Nat) : List Char → Scan
  | '.' :: rest =>
    let word := rest.takeWhile isWordChar
    if word.isEmpty then fault .missingLabel length (length + 1)
    else lexeme (build (some (String.ofList word))) (length + 1 + word.length)
  | _ => lexeme (build none) length

def ofText : List Char → Scan
  | [] => lexeme .finish 0
  | ':' :: ':' :: '=' :: _ => lexeme .define 3
  | '?' :: rest => labelled (.quantifier .optional) 1 rest
  | '+' :: rest => labelled (.quantifier .oneOrMore) 1 rest
  | '*' :: rest => labelled (.quantifier .any) 1 rest
  | '|' :: _ => lexeme .bar 1
  | '(' :: _ => lexeme .opening 1
  | ')' :: rest => labelled .closing 1 rest
  | '&' :: _ => lexeme (.lookAhead true) 1
  | '!' :: _ => lexeme (.lookAhead false) 1
  | '~' :: _ => lexeme .cut 1
  | '\x7b' :: rest =>
    let inside := rest.takeWhile (· ≠ '\x7d')
    match rest.drop inside.length with
    | [] => fault .openRepetition 0 (inside.length + 1)
    | _ :: rest =>
      labelled (.quantifier (.counted (String.ofList ('\x7b' :: inside ++ ['\x7d']))))
        (inside.length + 2) rest
  | '[' :: rest =>
    let body := ClassBody.read rest
    if body.closed then
      let inside := body.spelling
      lexeme (.charClass (String.ofList ('[' :: inside ++ [']']))) (inside.length + 2)
    else fault .openClass 0 (rest.length + 1)
  | c :: rest =>
    if c = '"' ∨ c = '\'' then
      match quoted c rest with
      | some (content, n) => lexeme (.literal (String.ofList content)) (n + 1)
      | none => fault .openString 0 (rest.length + 1)
    else if isNameStart c then
      let word := (c :: rest).takeWhile isWordChar
      lexeme (.name (String.ofList word)) word.length
    else
      let run := (c :: rest).takeWhile isFree
      if run.isEmpty then fault .unexpectedCharacter 0 0
      else lexeme (.literal (String.ofList run)) run.length

end Scan

end Ebnf
