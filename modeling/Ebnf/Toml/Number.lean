import Ebnf.Double

/-! Integers and floats as TOML spells them. Digits may be parted by single underscores. -/

namespace Ebnf.Toml

def isBare (c : Char) : Bool := c.isAlphanum || c = '-' || c = '_'

/-- A run of digits and what follows it. An underscore stands between two digits, and only if
`zeros` allows it does a digit follow a leading zero. `start` is whether no digit has been read,
`zero` whether the first one was a zero, `parted` whether an underscore was read last. -/
def digitRun (zeros : Bool) (isDigit : Char → Bool) :
    (start zero parted : Bool) → List Char → Option (List Char × List Char)
  | start, _, parted, [] => if start || parted then none else some ([], [])
  | start, zero, parted, c :: cs =>
    if c = '0' && start then (digitRun zeros isDigit false true parted cs).map (push c)
    else if isDigit c then
      if !start && zero && !zeros then none
      else (digitRun zeros isDigit false zero false cs).map (push c)
    else if c = '_' && start then none
    else if c = '_' && !parted then digitRun zeros isDigit false zero true cs
    else if start || parted then none
    else some ([], c :: cs)
where
  push (c : Char) (run : List Char × List Char) : List Char × List Char := (c :: run.1, run.2)

def digits (zeros : Bool) (isDigit : Char → Bool) (cs : List Char) :
    Option (List Char × List Char) :=
  digitRun zeros isDigit true false false cs

def sign : List Char → Bool × List Char
  | '-' :: cs => (true, cs)
  | '+' :: cs => (false, cs)
  | cs => (false, cs)

def isDigitOf (radix : Nat) (c : Char) : Bool :=
  if c.isDigit then c.toNat - 48 < radix
  else radix = 16 && (('a' ≤ c && c ≤ 'f') || ('A' ≤ c && c ≤ 'F'))

def digitValue (c : Char) : Nat :=
  if c.isDigit then c.toNat - 48 else if 'a' ≤ c then c.toNat - 87 else c.toNat - 55

def valueOf (radix : Nat) (cs : List Char) : Nat := cs.foldl (fun n c => n * radix + digitValue c) 0

def integer? (word : List Char) : Option Int :=
  match word with
  | '0' :: 'x' :: cs => unsigned 16 cs
  | '0' :: 'o' :: cs => unsigned 8 cs
  | '0' :: 'b' :: cs => unsigned 2 cs
  | word => do
    let (negative, cs) := sign word
    let (run, rest) ← digits false Char.isDigit cs
    guard rest.isEmpty
    inRange (if negative then -(valueOf 10 run : Int) else valueOf 10 run)
where
  inRange (i : Int) : Option Int :=
    if Int64.minValue.toInt ≤ i ∧ i ≤ Int64.maxValue.toInt then some i else none
  unsigned (radix : Nat) (cs : List Char) : Option Int := do
    let (run, rest) ← digits true (isDigitOf radix) cs
    guard rest.isEmpty
    inRange (valueOf radix run)

def float? (negative : Bool) (whole fraction : List Char) (exponentNegative : Bool)
    (exponent : List Char) : Option Double :=
  let mantissa := valueOf 10 (whole ++ fraction)
  let bound := 1000 + whole.length + fraction.length
  let shift : Int := min (valueOf 10 exponent) bound
  let power := (if exponentNegative then -shift else shift) - fraction.length
  let x := if mantissa = 0 then 0 else Float.ofScientific mantissa (power < 0) power.natAbs
  if x.isFinite then some (.ofFloat (if negative then -x else x)) else none

def word? (cs : List Char) : Option (List Char × List Char) :=
  let run := cs.takeWhile isBare
  if run.isEmpty then none else some (run, cs.dropWhile isBare)

/-- The exponent that starts with the rest of a word. Its digits are a word of their own when a
plus sign stands in front of them, or when nothing does. -/
def exponent? (suffix rest : List Char) : Option (Bool × List Char × List Char) :=
  match suffix with
  | [] => some (false, [], rest)
  | [e] => do
    guard (e = 'e' ∨ e = 'E')
    let rest := match rest with
      | '+' :: rest => rest
      | rest => rest
    let (word, rest) ← word? rest
    let (run, left) ← digits true Char.isDigit word
    guard left.isEmpty
    return (false, run, rest)
  | e :: cs => do
    guard (e = 'e' ∨ e = 'E')
    let (negative, cs) := sign cs
    let (run, left) ← digits true Char.isDigit cs
    guard left.isEmpty
    return (negative, run, rest)

def decimal? (word : List Char) (fraction : Option (List Char)) (rest : List Char) :
    Option (Double × List Char) := do
  let (negative, cs) := sign word
  let (whole, suffix) ← digits false Char.isDigit cs
  let (fraction, suffix) ← match fraction with
    | none => some ([], suffix)
    | some after => do
      guard suffix.isEmpty
      digits true Char.isDigit after
  let (exponentNegative, exponent, rest) ← exponent? suffix rest
  return (← float? negative whole fraction exponentNegative exponent, rest)

end Ebnf.Toml
