/-! Places in a text: the byte index of its UTF-8 form, the line, and the column in characters,
all counted from zero. -/

namespace Ebnf

structure Position where
  index : Nat
  line : Nat
  column : Nat
deriving DecidableEq

/-- How many bytes the UTF-8 form of the characters takes. -/
def byteCount : List Char → Nat
  | [] => 0
  | c :: cs => c.utf8Size + byteCount cs

@[simp] theorem byteCount_append (xs ys : List Char) :
    byteCount (xs ++ ys) = byteCount xs + byteCount ys := by
  induction xs with
  | nil => simp [byteCount]
  | cons c xs ih => simp [byteCount, ih, Nat.add_assoc]

@[simp] theorem byteCount_reverse (cs : List Char) : byteCount cs.reverse = byteCount cs := by
  induction cs with
  | nil => rfl
  | cons c cs ih => simp [byteCount, ih, Nat.add_comm]

namespace Position

def start : Position := ⟨0, 0, 0⟩

/-- The place just after `c`, when `c` stands at `p`. A line ends with its newline. -/
def step (p : Position) (c : Char) : Position :=
  if c = '\n' then ⟨p.index + c.utf8Size, p.line + 1, 0⟩
  else ⟨p.index + c.utf8Size, p.line, p.column + 1⟩

def along (p : Position) (cs : List Char) : Position := cs.foldl step p

def render (p : Position) : String := s!"{p.line + 1}:{p.column + 1}"

@[simp] theorem along_nil (p : Position) : p.along [] = p := rfl

@[simp] theorem along_cons (p : Position) (c : Char) (cs : List Char) :
    p.along (c :: cs) = (p.step c).along cs := rfl

theorem along_append (p : Position) (xs ys : List Char) :
    p.along (xs ++ ys) = (p.along xs).along ys := by
  simp [along, List.foldl_append]

theorem index_along (p : Position) (cs : List Char) :
    (p.along cs).index = p.index + byteCount cs := by
  induction cs generalizing p with
  | nil => rfl
  | cons c cs ih =>
    rw [along_cons, ih, byteCount, step]
    split <;> simp [Nat.add_assoc]

theorem line_along (p : Position) (cs : List Char) :
    (p.along cs).line = p.line + cs.count '\n' := by
  induction cs generalizing p with
  | nil => rfl
  | cons c cs ih =>
    rw [along_cons, ih, List.count_cons, step]
    split
    · next h => simp [h, Nat.add_assoc, Nat.add_comm 1]
    · next h => simp [h]

end Position

end Ebnf
