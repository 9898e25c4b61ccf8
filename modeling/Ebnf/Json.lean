import Ebnf.Json.Number

/-! JSON texts as values. Numbers and strings are kept as far as they are spelled: whether they
stand for something is for their reader to ask. -/

namespace Ebnf

/-- A string is missing where its escapes form no text; members keep their order. -/
inductive Json where
  | null
  | bool (b : Bool)
  | number (n : Json.Number)
  | string (s : Option String)
  | array (elements : List Json)
  | object (members : List (Option String × Json))

namespace Json

def isBlank (c : Char) : Bool := c = ' ' || c = '\n' || c = '\t' || c = '\r'

def skipBlanks (cs : List Char) : List Char := cs.dropWhile isBlank

def isHexDigit (c : Char) : Bool :=
  c.isDigit || ('a' ≤ c && c ≤ 'f') || ('A' ≤ c && c ≤ 'F')

def hexDigit (c : Char) : Nat :=
  if c.isDigit then c.toNat - 48 else if 'a' ≤ c then c.toNat - 87 else c.toNat - 55

def hexValue (cs : List Char) : Nat := cs.foldl (fun n c => n * 16 + hexDigit c) 0

/-- What a piece of a string spells: a character, or a 16-bit unit by its number. -/
inductive Piece where
  | char (c : Char)
  | unit (code : Nat)

/-- The text of the pieces. A high unit and the low unit behind it make one character; either of
them alone makes none. -/
def Piece.text : List Piece → Option (List Char)
  | [] => some []
  | char c :: rest => (text rest).map (c :: ·)
  | unit high :: rest =>
    if 0xD800 ≤ high ∧ high < 0xDC00 then
      match rest with
      | unit low :: rest =>
        if 0xDC00 ≤ low ∧ low < 0xE000 then
          (text rest).map (Char.ofNat (0x10000 + (high - 0xD800) * 0x400 + (low - 0xDC00)) :: ·)
        else none
      | _ => none
    else if 0xDC00 ≤ high ∧ high < 0xE000 then none
    else (text rest).map (Char.ofNat high :: ·)

def escape? : Char → Option Char
  | '"' => some '"'
  | '\\' => some '\\'
  | '/' => some '/'
  | 'b' => some '\x08'
  | 'f' => some '\x0c'
  | 'n' => some '\n'
  | 'r' => some '\r'
  | 't' => some '\t'
  | _ => none

def pieces : List Char → Option (List Piece × List Char)
  | [] => none
  | '"' :: rest => some ([], rest)
  | '\\' :: 'u' :: a :: b :: c :: d :: rest =>
    if [a, b, c, d].all isHexDigit then
      (pieces rest).map fun (ps, rest) => (.unit (hexValue [a, b, c, d]) :: ps, rest)
    else none
  | '\\' :: c :: rest =>
    match escape? c with
    | some c => (pieces rest).map fun (ps, rest) => (.char c :: ps, rest)
    | none => none
  | c :: rest =>
    if c.toNat < 0x20 ∨ c = '\\' then none
    else (pieces rest).map fun (ps, rest) => (.char c :: ps, rest)

def string? (cs : List Char) : Option (Option String × List Char) :=
  (pieces cs).map fun (ps, rest) => ((Piece.text ps).map String.ofList, rest)

def digits? (cs : List Char) : Option (List Char × List Char) :=
  let run := cs.takeWhile Char.isDigit
  if run.isEmpty then none else some (run, cs.dropWhile Char.isDigit)

def whole? : List Char → Option (List Char × List Char)
  | '0' :: rest => if rest.head?.any Char.isDigit then none else some (['0'], rest)
  | cs => digits? cs

def fraction? : List Char → Option (List Char × List Char)
  | '.' :: rest => digits? rest
  | cs => some ([], cs)

def exponent? : List Char → Option (Bool × List Char × List Char)
  | e :: rest =>
    if e = 'e' ∨ e = 'E' then
      match rest with
      | '-' :: rest => (digits? rest).map (true, ·)
      | '+' :: rest => (digits? rest).map (false, ·)
      | rest => (digits? rest).map (false, ·)
    else some (false, [], e :: rest)
  | [] => some (false, [], [])

def number? (cs : List Char) : Option (Number × List Char) := do
  let (negative, cs) := match cs with
    | '-' :: rest => (true, rest)
    | cs => (false, cs)
  let (whole, cs) ← whole? cs
  let (fraction, cs) ← fraction? cs
  let (exponentNegative, exponent, cs) ← exponent? cs
  return (⟨negative, whole, fraction, exponentNegative, exponent⟩, cs)

def colon? (cs : List Char) : Option (List Char) :=
  match skipBlanks cs with
  | ':' :: rest => some rest
  | _ => none

mutual

/-- A value and what follows it. The fuel bounds the characters that may be looked at. -/
def value? : (fuel : Nat) → List Char → Option (Json × List Char)
  | 0, _ => none
  | fuel + 1, cs =>
    match skipBlanks cs with
    | 'n' :: 'u' :: 'l' :: 'l' :: rest => some (null, rest)
    | 't' :: 'r' :: 'u' :: 'e' :: rest => some (bool true, rest)
    | 'f' :: 'a' :: 'l' :: 's' :: 'e' :: rest => some (bool false, rest)
    | '"' :: rest => (string? rest).map fun (s, rest) => (string s, rest)
    | '[' :: rest =>
      match skipBlanks rest with
      | ']' :: rest => some (array [], rest)
      | rest => (elements? fuel rest).map fun (es, rest) => (array es, rest)
    | '\x7b' :: rest =>
      match skipBlanks rest with
      | '\x7d' :: rest => some (object [], rest)
      | rest => (members? fuel rest).map fun (ms, rest) => (object ms, rest)
    | cs => (number? cs).map fun (n, rest) => (number n, rest)

def elements? : (fuel : Nat) → List Char → Option (List Json × List Char)
  | 0, _ => none
  | fuel + 1, cs => do
    let (e, cs) ← value? fuel cs
    match skipBlanks cs with
    | ',' :: rest => (elements? fuel rest).map fun (es, rest) => (e :: es, rest)
    | ']' :: rest => some ([e], rest)
    | _ => none

def members? : (fuel : Nat) → List Char → Option (List (Option String × Json) × List Char)
  | 0, _ => none
  | fuel + 1, cs =>
    match skipBlanks cs with
    | '"' :: rest => do
      let (key, cs) ← string? rest
      let (v, cs) ← value? fuel (← colon? cs)
      match skipBlanks cs with
      | ',' :: rest => (members? fuel rest).map fun (ms, rest) => ((key, v) :: ms, rest)
      | '\x7d' :: rest => some ([(key, v)], rest)
      | _ => none
    | _ => none

end

def read? (text : String) : Option Json :=
  let cs := text.toList
  match value? (2 * cs.length + 2) cs with
  | some (v, rest) => if (skipBlanks rest).isEmpty then some v else none
  | none => none

end Json

end Ebnf
