/-! Numbers of a range from random words: a word is multiplied by the size of the range, the high
half of the product is the answer, and words whose low half lies above a zone are rejected, so
that every answer comes from equally many words. -/

namespace Ebnf.Uniform

/-- The last low half that is accepted: the largest doubling of the range that fits into `width`
bits, less one. -/
def zone (width range : Nat) : Nat := range * Nat.pow 2 (width - (range.log2 + 1)) - 1

def accept (width range word : Nat) : Option Nat :=
  let product := word * range
  if product % Nat.pow 2 width ≤ zone width range then some (product / Nat.pow 2 width) else none

/-- An offset from a 32-bit draw, which keeps the low half of the word. -/
def accept32 (range : Nat) (word : UInt64) : Option Nat :=
  accept 32 range (word.toNat % UInt32.size)

def accept64 (range : Nat) (word : UInt64) : Option Nat := accept 64 range word.toNat

def unit (word : UInt64) : Float := (word >>> 11).toFloat * 1.1102230246251565e-16

end Ebnf.Uniform
