import Ebnf.Text.Position

/-! A place inside a text that is told by its byte index. What lies around it is a slice of the
bytes, and a slice that does not start and end between two characters is no answer. -/

namespace Ebnf

namespace Bytes

/-- Whether a byte index lies between two characters, or at an end. -/
def isBoundary (s : String) (index : Nat) : Bool := (String.Pos.Raw.mk index).isValid s

def slice (s : String) (start stop : Nat) : Option String :=
  if start ≤ stop ∧ isBoundary s start ∧ isBoundary s stop then
    String.fromUTF8? (s.toByteArray.extract start stop)
  else none

/-- The characters with the bytes they start at, the first one at `start`. -/
def charIndices (start : Nat) : List Char → List (Nat × Char)
  | [] => []
  | ch :: rest => (start, ch) :: charIndices (start + ch.utf8Size) rest

def nthBoundary (s : String) (n : Nat) : Nat :=
  match (charIndices 0 s.toList)[n]? with
  | some (start, _) => start
  | none => s.utf8ByteSize

def find? (delimiter : List Char) : List Char → Option Nat
  | [] => if delimiter.isEmpty then some 0 else none
  | ch :: rest =>
    if delimiter.isPrefixOf (ch :: rest) then some 0
    else (find? delimiter rest).map (· + ch.utf8Size)

def lineStart (s : String) : Nat :=
  match (charIndices 0 s.toList).reverse.find? fun (_, ch) => ch = '\n' with
  | some (start, _) => start + 1
  | none => 0

/-- The last boundary that is not after `index`, looked for byte by byte. -/
def floorBoundary (s : String) : (index : Nat) → Nat
  | 0 => 0
  | index + 1 => if isBoundary s (index + 1) then index + 1 else floorBoundary s index

end Bytes

structure ByteCursor where
  text : String
  position : Position

namespace ByteCursor

open Bytes

def ofString (text : String) : ByteCursor := ⟨text, .start⟩

def index (c : ByteCursor) : Nat := c.position.index

def hasNext (c : ByteCursor) : Bool := c.index < c.text.utf8ByteSize

def remainder (c : ByteCursor) : Option String := slice c.text c.index c.text.utf8ByteSize

def current (c : ByteCursor) : Option (Option Char) :=
  c.remainder.map fun rest => rest.toList.head?

def step (c : ByteCursor) (ch : Char) : ByteCursor := { c with position := c.position.step ch }

def next (c : ByteCursor) : Option (Option Char × ByteCursor) :=
  c.current.map fun
    | some ch => (some ch, c.step ch)
    | none => (none, c)

def get (c : ByteCursor) (len offset : Nat) : Option String := do
  let rest ← c.remainder
  let start := nthBoundary rest offset
  let tail ← slice rest start rest.utf8ByteSize
  slice rest start (start + nthBoundary tail len)

def peek (c : ByteCursor) (len : Nat) : Option String := c.get len 0

def isAt (c : ByteCursor) (s : String) : Option Bool :=
  c.remainder.map fun rest => s.toList.isPrefixOf rest.toList

def consume (c : ByteCursor) (s : String) : Option (Bool × ByteCursor) :=
  (c.isAt s).map fun found => (found, if found then s.toList.foldl step c else c)

/-- Moves to a byte. On the way ahead the characters that are skipped are counted; on the way back
their newlines are taken off, and the column is counted from the start of the line. -/
def set (c : ByteCursor) (index : Nat) : Option ByteCursor :=
  let target := floorBoundary c.text (min index c.text.utf8ByteSize)
  if c.index ≤ target then do
    let skipped ← slice c.text c.index target
    return skipped.toList.foldl step c
  else do
    let rewound ← slice c.text target c.index
    let newlines := rewound.toList.count '\n'
    let before ← slice c.text 0 target
    let line ← slice c.text (lineStart before) target
    if c.position.line < newlines then none
    else return { c with position := ⟨target, c.position.line - newlines, line.toList.length⟩ }

def jumpPast (c : ByteCursor) (delimiter : String) : Option (Bool × ByteCursor) := do
  let rest ← c.remainder
  match find? delimiter.toList rest.toList with
  | some offset => return (true, ← c.set (c.index + offset + delimiter.utf8ByteSize))
  | none => return (false, ← c.set c.text.utf8ByteSize)

def jumpWhile (p : Char → Bool) : (fuel : Nat) → ByteCursor → Option ByteCursor
  | 0, _ => none
  | fuel + 1, c => do
    match ← c.current with
    | some ch => if p ch then jumpWhile p fuel (c.step ch) else return c
    | none => return c

def jumpBy (c : ByteCursor) (offset : Int) : Option ByteCursor :=
  if 0 ≤ offset then do
    let rest ← c.remainder
    c.set (c.index + nthBoundary rest offset.natAbs)
  else do
    let before ← slice c.text 0 c.index
    c.set ((charIndices 0 before.toList).reverse[offset.natAbs - 1]?.elim 0 Prod.fst)

def sliceFrom (c : ByteCursor) (start : Nat) : Option String :=
  slice c.text (min start c.index) c.index

end ByteCursor

end Ebnf
