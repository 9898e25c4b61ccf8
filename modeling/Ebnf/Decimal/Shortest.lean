/-! The shortest decimal that reads back as a given float, in exact arithmetic. A finite float is
a natural number of quarter units in the last place; the numbers that round to it form an interval
around it, whose ends belong to it when its mantissa is even. The digit count grows until the
decimal grid has a point in the interval. -/

namespace Ebnf.Decimal

structure Scaled where
  digits : Nat
  exponent : Int
deriving DecidableEq

def Scaled.trim (s : Scaled) : Scaled :=
  if s.digits % 10 = 0 then ⟨s.digits / 10, s.exponent + 1⟩ else s

/-- A positive float as `value / unit`, with the ends of its rounding interval over that unit. -/
structure Binary where
  value : Nat
  low : Nat
  high : Nat
  unit : Nat
  inclusive : Bool

namespace Binary

def ofFields (exponent fraction : Nat) : Binary :=
  let mantissa := if exponent = 0 then fraction else fraction + Nat.pow 2 52
  let gap := if fraction = 0 ∧ 1 < exponent then 1 else 2
  let power := max exponent 1
  let scale := Nat.pow 2 (power - 1077)
  ⟨mantissa * 4 * scale, (mantissa * 4 - gap) * scale, (mantissa * 4 + 2) * scale,
    Nat.pow 2 (1077 - power), mantissa % 2 == 0⟩

/-- How many decimal places the leading digit stands left of the point, or, negative, right. -/
def magnitude (b : Binary) : Int :=
  if b.unit ≤ b.value then (Nat.toDigits 10 (b.value / b.unit)).length
  else 1 - (leadingZeros 400 1)
where
  leadingZeros : Nat → Nat → Int
    | 0, _ => 0
    | k + 1, places =>
      if b.unit ≤ b.value * Nat.pow 10 places then places else leadingZeros k (places + 1)

def holds (b : Binary) (up down digits : Nat) : Bool :=
  let point := digits * up * b.unit
  let low := b.low * down
  let high := b.high * down
  if b.inclusive then low ≤ point && point ≤ high else low < point && point < high

def nearest? (b : Binary) (exponent : Int) : Option Scaled :=
  let up := Nat.pow 10 exponent.toNat
  let down := Nat.pow 10 (-exponent).toNat
  let below := b.value * down / (b.unit * up)
  let rest := b.value * down % (b.unit * up)
  let above := below + 1
  match b.holds up down below, b.holds up down above with
  | true, true => some ⟨if 2 * rest < b.unit * up then below else above, exponent⟩
  | true, false => some ⟨below, exponent⟩
  | false, true => some ⟨above, exponent⟩
  | false, false => none

def shortest (b : Binary) : Scaled :=
  let magnitude := b.magnitude
  match (List.range 17).findSome? fun n => b.nearest? (magnitude - (n + 1 : Nat)) with
  | some s => s.trim
  | none => ⟨b.value / b.unit, 0⟩

end Binary

def Scaled.render (s : Scaled) : String :=
  let digits := Nat.toDigits 10 s.digits
  if 0 ≤ s.exponent then String.ofList (digits ++ List.replicate s.exponent.toNat '0')
  else
    let places := (-s.exponent).toNat
    let padded := List.replicate (places + 1 - digits.length) '0' ++ digits
    let whole := padded.length - places
    String.ofList (padded.take whole ++ '.' :: padded.drop whole)

def render (x : Float) : String :=
  let bits := x.toBits.toNat
  let sign := if bits / Nat.pow 2 63 = 1 then "-" else ""
  let exponent := bits / Nat.pow 2 52 % Nat.pow 2 11
  let fraction := bits % Nat.pow 2 52
  if exponent = 2047 then if fraction = 0 then sign ++ "inf" else "NaN"
  else if exponent = 0 ∧ fraction = 0 then sign ++ "0"
  else sign ++ (Binary.ofFields exponent fraction).shortest.render

end Ebnf.Decimal
