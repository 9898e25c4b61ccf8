import Ebnf.Text.Position

/-! A place inside a text that can move both ways. The text is kept as two lists: what lies behind,
nearest character first, and what lies ahead. Copies are values, so going back to one costs
nothing. -/

namespace Ebnf

structure Cursor where
  back : List Char
  ahead : List Char
  position : Position

namespace Cursor

def ofChars (text : List Char) : Cursor := ⟨[], text, .start⟩

def ofString (text : String) : Cursor := ofChars text.toList

def text (c : Cursor) : List Char := c.back.reverse ++ c.ahead

def index (c : Cursor) : Nat := c.position.index

def hasNext (c : Cursor) : Bool := !c.ahead.isEmpty

def current (c : Cursor) : Option Char := c.ahead.head?

def get (c : Cursor) (len offset : Nat) : List Char := (c.ahead.drop offset).take len

def peek (c : Cursor) (len : Nat) : List Char := c.get len 0

def isAt (c : Cursor) (cs : List Char) : Bool := cs.isPrefixOf c.ahead

/-- The position is the one that the characters behind lead to. -/
def IsPlaced (c : Cursor) : Prop := c.position = Position.start.along c.back.reverse

@[simp] theorem text_ofChars (text : List Char) : (ofChars text).text = text := rfl

theorem isPlaced_ofChars (text : List Char) : (ofChars text).IsPlaced := rfl

def advance (c : Cursor) (n : Nat) : Cursor :=
  let passed := c.ahead.take n
  ⟨passed.reverseAux c.back, c.ahead.drop n, c.position.along passed⟩

@[simp] theorem text_advance (c : Cursor) (n : Nat) : (c.advance n).text = c.text := by
  simp [text, advance]

theorem IsPlaced.advance {c : Cursor} (h : c.IsPlaced) (n : Nat) : (c.advance n).IsPlaced := by
  simp [IsPlaced, Cursor.advance, Position.along_append, ← show c.position = _ from h]

def columnAfter (back : List Char) : Nat := (back.takeWhile (· ≠ '\n')).length

def retreat (c : Cursor) (n : Nat) : Cursor :=
  let passed := c.back.take n
  let back := c.back.drop n
  ⟨back, passed.reverseAux c.ahead,
    ⟨c.position.index - byteCount passed, c.position.line - passed.count '\n',
      columnAfter back⟩⟩

@[simp] theorem text_retreat (c : Cursor) (n : Nat) : (c.retreat n).text = c.text := by
  simp only [text, retreat, List.reverseAux_eq, ← List.append_assoc, ← List.reverse_append,
    List.take_append_drop]

theorem column_along_start (back : List Char) :
    (Position.start.along back.reverse).column = columnAfter back := by
  induction back with
  | nil => rfl
  | cons c back ih =>
    rw [List.reverse_cons, Position.along_append, Position.along_cons, Position.along_nil,
      Position.step, columnAfter, List.takeWhile_cons]
    by_cases h : c = '\n' <;> simp [h, ih, columnAfter]

theorem IsPlaced.retreat {c : Cursor} (h : c.IsPlaced) (n : Nat) : (c.retreat n).IsPlaced := by
  have back : c.back = c.back.take n ++ c.back.drop n := (List.take_append_drop n c.back).symm
  have index : c.position.index = byteCount (c.back.take n) + byteCount (c.back.drop n) := by
    rw [h, Position.index_along, byteCount_reverse, ← byteCount_append, ← back]
    exact Nat.zero_add _
  have line : c.position.line = (c.back.take n).count '\n' + (c.back.drop n).count '\n' := by
    rw [h, Position.line_along, List.count_reverse, ← List.count_append, ← back]
    exact Nat.zero_add _
  have goal : ∀ p : Position, p.index = byteCount (c.back.drop n) →
      p.line = (c.back.drop n).count '\n' → p.column = columnAfter (c.back.drop n) →
      p = Position.start.along (c.back.drop n).reverse := by
    intro p hi hl hc
    have hi' := Position.index_along .start (c.back.drop n).reverse
    have hl' := Position.line_along .start (c.back.drop n).reverse
    have hc' := column_along_start (c.back.drop n)
    simp only [byteCount_reverse, List.count_reverse, Position.start, Nat.zero_add] at hi' hl' hc'
    cases p
    cases hp : Position.along ⟨0, 0, 0⟩ (c.back.drop n).reverse
    simp_all [Position.start]
  exact goal _ (by simp [Cursor.retreat, index]) (by simp [Cursor.retreat, line]) rfl

def toEnd (c : Cursor) : Cursor := c.advance c.ahead.length

def next (c : Cursor) : Option (Char × Cursor) := c.current.map fun ch => (ch, c.advance 1)

def consume (c : Cursor) (cs : List Char) : Option Cursor :=
  if c.isAt cs then some (c.advance cs.length) else none

def fitting (room : Nat) : List Char → Nat
  | [] => 0
  | ch :: rest => if ch.utf8Size ≤ room then fitting (room - ch.utf8Size) rest + 1 else 0

def covering (room : Nat) : List Char → Nat
  | [] => 0
  | ch :: rest => if room = 0 then 0 else covering (room - ch.utf8Size) rest + 1

/-- Moves to the last character boundary that is not after byte `index`. -/
def moveTo (c : Cursor) (index : Nat) : Cursor :=
  if c.index ≤ index then c.advance (fitting (index - c.index) c.ahead)
  else c.retreat (covering (c.index - index) c.back)

/-- How many characters it takes to get past the first occurrence of `delimiter`. -/
def distancePast (delimiter : List Char) : List Char → Option Nat
  | [] => if delimiter.isEmpty then some 0 else none
  | ch :: rest =>
    if delimiter.isPrefixOf (ch :: rest) then some delimiter.length
    else (distancePast delimiter rest).map (· + 1)

/-- Moves past the next occurrence of `delimiter`, or to the end if there is none. -/
def jumpPast (c : Cursor) (delimiter : List Char) : Bool × Cursor :=
  match distancePast delimiter c.ahead with
  | some n => (true, c.advance n)
  | none => (false, c.toEnd)

def jumpWhile (c : Cursor) (p : Char → Bool) : Cursor := c.advance (c.ahead.takeWhile p).length

def jumpBy : Cursor → Int → Cursor
  | c, .ofNat n => c.advance n
  | c, .negSucc n => c.retreat (n + 1)

/-- What lies between the character boundary `start` and the cursor. -/
def sliceFrom (c : Cursor) (start : Nat) : List Char :=
  (c.back.take (covering (c.index - start) c.back)).reverse

end Cursor

end Ebnf
