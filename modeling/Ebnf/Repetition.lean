import Ebnf.Text.Position
import Ebnf.Token

/-! How often an operand occurs, and the quantifiers that say so. A counted quantifier is read from
its text in braces; the message for a malformed one names what could have stood at the furthest
place that any reading of it reached. -/

namespace Ebnf

/-- Bounds on a number of occurrences; no maximum means unbounded. -/
structure Repetition where
  min : Nat
  max : Option Nat
deriving DecidableEq

namespace Repetition

def once : Repetition := ⟨1, some 1⟩
def optional : Repetition := ⟨0, some 1⟩
def oneOrMore : Repetition := ⟨1, none⟩
def any : Repetition := ⟨0, none⟩

def hasRoom (r : Repetition) (count : Nat) : Bool := r.max.all fun max => count < max

def admits (r : Repetition) (count : Nat) : Bool :=
  r.min ≤ count && r.max.all fun max => count ≤ max

end Repetition

namespace Counted

def limit : Nat := UInt64.size

def isBlank (c : Char) : Bool := c = ' ' || c = '\r' || c = '\n' || c = '\t'

def skipBlanks (cs : List Char) : List Char := cs.dropWhile isBlank

def value (digits : List Char) : Nat := digits.foldl (fun n c => n * 10 + (c.toNat - '0'.toNat)) 0

def number? (cs : List Char) : Option (Nat × List Char) :=
  let digits := cs.takeWhile Char.isDigit
  if digits.isEmpty ∨ limit ≤ value digits then none
  else some (value digits, cs.dropWhile Char.isDigit)

def bound (cs : List Char) : Option Nat × List Char :=
  match number? (skipBlanks cs) with
  | some (n, rest) => (some n, skipBlanks rest)
  | none => (none, skipBlanks cs)

def fixed? : List Char → Option Repetition
  | '\x7b' :: rest => do
    let (n, rest) ← number? (skipBlanks rest)
    if skipBlanks rest = ['\x7d'] then some ⟨n, some n⟩ else none
  | _ => none

/-- Two numbers in braces and a comma; a missing minimum is zero, a missing maximum no bound. -/
def range? : List Char → Option Repetition
  | '\x7b' :: rest =>
    match bound rest with
    | (min, ',' :: rest) =>
      match bound rest with
      | (max, ['\x7d']) => some ⟨min.getD 0, max⟩
      | _ => none
    | _ => none
  | _ => none

/-- What could have stood at a place of the text. -/
inductive Expected where
  | openBrace
  | comma
  | closeBrace
  | digit
  | smallerNumber
  | finish
deriving DecidableEq

namespace Expected

def all : List Expected := [comma, openBrace, closeBrace, finish, digit, smallerNumber]

def render : Expected → String
  | openBrace => "\"\x7b\""
  | comma => "\",\""
  | closeBrace => "\"\x7d\""
  | digit => "['0'..='9']"
  | smallerNumber => "repetition count is too large"
  | finish => "EOF"

end Expected

/-- A place where a reading failed, told by what was left of the text. -/
structure Miss where
  rest : List Char
  expected : Expected

def numberMisses (cs : List Char) : List Miss :=
  let digits := cs.takeWhile Char.isDigit
  let rest := cs.dropWhile Char.isDigit
  ⟨rest, .digit⟩ :: if limit ≤ value digits then [⟨rest, .smallerNumber⟩] else []

def expecting (c : Char) (e : Expected) (cs : List Char) (next : List Char → List Miss) :
    List Miss :=
  match cs with
  | d :: rest => if d = c then next rest else [⟨cs, e⟩]
  | [] => [⟨cs, e⟩]

def finishMisses (cs : List Char) : List Miss := if cs.isEmpty then [] else [⟨cs, .finish⟩]

def fixedMisses (cs : List Char) : List Miss :=
  expecting '\x7b' .openBrace cs fun rest =>
    numberMisses (skipBlanks rest) ++
      match number? (skipBlanks rest) with
      | some (_, rest) => expecting '\x7d' .closeBrace (skipBlanks rest) finishMisses
      | none => []

def rangeMisses (cs : List Char) : List Miss :=
  expecting '\x7b' .openBrace cs fun rest =>
    numberMisses (skipBlanks rest) ++
      expecting ',' .comma (bound rest).2 fun rest =>
        numberMisses (skipBlanks rest) ++
          expecting '\x7d' .closeBrace (bound rest).2 finishMisses

/-- The furthest place any reading reached, and all that was expected there. -/
def furthest (cs : List Char) : Position × List Expected :=
  let misses := fixedMisses cs ++ rangeMisses cs
  let left := misses.foldl (fun n m => min n m.rest.length) cs.length
  let here := (misses.filter fun m => m.rest.length = left).map Miss.expected
  (Position.start.along (cs.take (cs.length - left)), Expected.all.filter here.contains)

end Counted

inductive RepetitionFault where
  | malformed (text : String) (position : Position) (expected : List Counted.Expected)
  | minimumAboveMaximum (text : String)
deriving DecidableEq

namespace RepetitionFault

def expectation : List Counted.Expected → String
  | [] => "unreachable"
  | [e] => e.render
  | es => "one of " ++ ", ".intercalate (es.map Counted.Expected.render)

def message : RepetitionFault → String
  | malformed text position expected =>
    s!"invalid repetition format '{text}' (error at {position.render}: expected " ++
      s!"{expectation expected})"
  | minimumAboveMaximum text => s!"repetition minimum exceeds maximum in '{text}'"

end RepetitionFault

def Mark.repetition : Mark → Except RepetitionFault Repetition
  | optional => .ok .optional
  | oneOrMore => .ok .oneOrMore
  | any => .ok .any
  | counted text =>
    let cs := text.toList
    match (Counted.fixed? cs).or (Counted.range? cs) with
    | some r =>
      if r.max.any (· < r.min) then .error (.minimumAboveMaximum text) else .ok r
    | none =>
      let (position, expected) := Counted.furthest cs
      .error (.malformed text position expected)

end Ebnf
