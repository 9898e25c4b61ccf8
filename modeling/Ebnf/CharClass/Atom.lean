import Ebnf.Text.Escape

/-! The body of a bracketed class as single characters, each plain or behind a backslash. An
unescaped bracket ends the body, so this reading alone decides where a class ends. -/

namespace Ebnf

inductive ClassAtom where
  | plain (c : Char)
  | escaped (c : Char)
deriving DecidableEq

namespace ClassAtom

/-- The character an atom denotes where no class shorthand is meant. -/
def char : ClassAtom → Char
  | plain c => c
  | escaped c => unescape c

def spelling : ClassAtom → List Char
  | plain c => [c]
  | escaped c => ['\\', c]

end ClassAtom

/-- What stands behind an opening bracket, and whether a closing one ends it. -/
structure ClassBody where
  atoms : List ClassAtom
  closed : Bool

namespace ClassBody

def push (a : ClassAtom) (b : ClassBody) : ClassBody := ⟨a :: b.atoms, b.closed⟩

def read : List Char → ClassBody
  | [] => ⟨[], false⟩
  | [c] => if c = ']' then ⟨[], true⟩ else if c = '\\' then ⟨[], false⟩ else ⟨[.plain c], false⟩
  | c :: d :: rest =>
    if c = ']' then ⟨[], true⟩
    else if c = '\\' then push (.escaped d) (read rest)
    else push (.plain c) (read (d :: rest))

def spelling (b : ClassBody) : List Char := b.atoms.flatMap ClassAtom.spelling

theorem eq_spelling_append {cs : List Char} (h : (read cs).closed = true) :
    ∃ rest, cs = (read cs).spelling ++ ']' :: rest := by
  fun_induction read cs with
  | case1 => simp at h
  | case2 => exact ⟨[], rfl⟩
  | case3 => simp at h
  | case4 => simp at h
  | case5 d rest => exact ⟨d :: rest, rfl⟩
  | case6 d rest _ ih =>
    obtain ⟨r, hr⟩ := ih h
    exact ⟨r, by simpa [spelling, push, ClassAtom.spelling] using hr⟩
  | case7 c d rest _ _ ih =>
    obtain ⟨r, hr⟩ := ih h
    exact ⟨r, by simpa [spelling, push, ClassAtom.spelling] using hr⟩

end ClassBody

end Ebnf
