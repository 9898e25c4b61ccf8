import Ebnf.CharClass

/-! What generating text leaves to chance: a number of occurrences, an option, a character. All
three come from a source of random words, or from anything else that answers them. -/

namespace Ebnf

structure Chance (σ : Type) where
  /-- A number from `lo` to `hi`, which differ; the exponent favours one end. -/
  count : (lo hi : Nat) → (pow : Float) → σ → Nat × σ
  /-- An item of a distribution, or none if it leaves nothing to choose. -/
  item : Distribution → σ → Option Nat × σ
  /-- A character of a class; no answer if the draw never ends. -/
  char : CharClass → σ → Option (Option Char × σ)

namespace Chance

def scaled (lo hi : Nat) (pow unit : Float) : Nat :=
  let factor := Float.pow unit pow
  (lo.toUInt64.toFloat + (hi - lo).toUInt64.toFloat * factor).round.toUInt64.toNat

def ofWords (words : Words) : Chance Nat where
  count lo hi pow used := (scaled lo hi pow (Uniform.unit (words used)), used + 1)
  item d used := d.sample words used
  char set used := set.draw words used

end Chance

end Ebnf
