/-! Sources of random 64-bit words. A source is the sequence of its words, so the state of a draw
is how many words it has used up. -/

namespace Ebnf

abbrev Words := Nat → UInt64

namespace Words

/-- The `i`-th output of the SplitMix64 generator. Its state moves by a fixed odd step, so every
output follows from the seed and its place alone. -/
def splitMix (seed : UInt64) (i : Nat) : UInt64 :=
  let z := seed + (i + 1).toUInt64 * 0x9E3779B97F4A7C15
  let z := (z ^^^ (z >>> 30)) * 0xBF58476D1CE4E5B9
  let z := (z ^^^ (z >>> 27)) * 0x94D049BB133111EB
  z ^^^ (z >>> 31)

def supplied (first : Array UInt64) (seed : UInt64) : Words := fun i =>
  if h : i < first.size then first[i] else splitMix seed (i - first.size)

/-- Words that a redrawing loop may reject before it is taken to run on for ever. A full period
of the generator is half as long. -/
def patience : Nat := 2 * UInt64.size

def drawUntil {α : Type} (words : Words) (accept : UInt64 → Option α) :
    (patience : Nat) → (used : Nat) → Option (α × Nat)
  | 0, _ => none
  | k + 1, used =>
    match accept (words used) with
    | some a => some (a, used + 1)
    | none => drawUntil words accept k (used + 1)

end Words

end Ebnf
