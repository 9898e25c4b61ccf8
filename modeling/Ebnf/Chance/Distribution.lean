import Ebnf.Chance.Words

/-! Choice among numbered items by weight. Heavier items cover a larger share of the cumulative
weights. No items, or a total of zero, leaves nothing to choose. -/

namespace Ebnf

structure Distribution where
  weights : List Float
  nonneg : ∀ w ∈ weights, (0 : Float) ≤ w

namespace Distribution

def ofWeights? (weights : List Float) : Option Distribution :=
  if h : ∀ w ∈ weights, (0 : Float) ≤ w then some ⟨weights, h⟩ else none

def indicator (marks : List Bool) : Distribution where
  weights := marks.map fun b => if b then 1 else 0
  nonneg w hw := by
    obtain ⟨b, -, rfl⟩ := List.mem_map.1 hw
    cases b <;> decide

def uniform (size : Nat) : Distribution := indicator (List.replicate size true)

def size (d : Distribution) : Nat := d.weights.length

def cumulative (d : Distribution) : List Float :=
  match d.weights with
  | [] => []
  | w :: ws => sums w ws
where
  sums (total : Float) : List Float → List Float
    | [] => []
    | w :: ws => total :: sums (total + w) ws

def total (d : Distribution) : Float :=
  match d.weights with
  | [] => 0
  | w :: ws => ws.foldl (· + ·) w

def isViable (d : Distribution) : Bool := !d.weights.isEmpty && d.total != 0

def unitMax : Float := 1 - 2.220446049250313e-16

/-- The factor of a unit draw: the first float not above `scale` that keeps the product below
`total`. One or two steps down are enough. -/
def scaleBelow (total : Float) : Nat → Float → Float
  | 0, scale => scale
  | k + 1, scale =>
    if scale * unitMax + 0 ≥ total then scaleBelow total k (Float.ofBits (scale.toBits - 1))
    else scale

def unit (word : UInt64) : Float := Float.ofBits ((word >>> 12) ||| 0x3FF0000000000000) - 1

def pick (d : Distribution) (word : UInt64) : Nat :=
  let chosen := unit word * scaleBelow d.total 64 d.total + 0
  (d.cumulative.takeWhile (· ≤ chosen)).length

/-- Draws an item with one word, or nothing with none if there is nothing to choose. -/
def sample (d : Distribution) (words : Words) (used : Nat) : Option Nat × Nat :=
  if d.isViable then (some (d.pick (words used)), used + 1) else (none, used)

end Distribution

end Ebnf
