/-! Numbers as JSON spells them, and the values they stand for. A number without fraction and
exponent that fits 64 bits is an integer; every other one is a float. -/

namespace Ebnf.Json

/-- The parts of a spelled number; a fraction or exponent that is written has at least one digit. -/
structure Number where
  negative : Bool
  whole : List Char
  fraction : List Char
  exponentNegative : Bool
  exponent : List Char
deriving DecidableEq

namespace Number

def digit (c : Char) : Nat := c.toNat - '0'.toNat

def absorb (n : Nat) : List Char → Nat × List Char
  | [] => (n, [])
  | c :: cs => if n * 10 + digit c < UInt64.size then absorb (n * 10 + digit c) cs else (n, c :: cs)

def value (cs : List Char) : Nat := cs.foldl (fun n c => n * 10 + digit c) 0

def toInt? (n : Number) : Option Int :=
  if n.fraction.isEmpty ∧ n.exponent.isEmpty then
    let v := value n.whole
    if n.negative then if 0 < v ∧ v ≤ UInt64.size / 2 then some (-v) else none
    else if v < UInt64.size then some v else none
  else none

def tenTo (n : Nat) : Float := Float.ofScientific 1 false n

def scale : (fuel : Nat) → Float → Int → Option Float
  | 0, x, _ => some x
  | fuel + 1, x, exponent =>
    if exponent.natAbs ≤ 308 then
      if 0 ≤ exponent then
        let y := x * tenTo exponent.natAbs
        if y.isInf then none else some y
      else some (x / tenTo exponent.natAbs)
    else if x == 0 then some x
    else if 0 ≤ exponent then none
    else scale fuel (x / tenTo 308) (exponent + 308)

/-- The float a number stands for: its leading digits as a 64-bit integer, scaled by a power of
ten; none when it is out of range. -/
def toFloat? (n : Number) : Option Float := do
  let (lead, dropped) := absorb 0 n.whole
  let (lead, left) := absorb lead n.fraction
  let point := (dropped.length : Int) - (n.fraction.length - left.length : Nat)
  let shift := value n.exponent
  let magnitude ←
    if UInt32.size / 2 ≤ shift then
      if lead ≠ 0 ∧ ¬ n.exponentNegative then none else some 0
    else
      scale 8 lead.toUInt64.toFloat (if n.exponentNegative then point - shift else point + shift)
  return if n.negative then -magnitude else magnitude

end Number

end Ebnf.Json
