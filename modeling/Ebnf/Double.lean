/-! Floats by their bits. They can be compared for equality, and an undefined number keeps its
sign. -/

namespace Ebnf

structure Double where
  bits : UInt64
deriving DecidableEq

namespace Double

def ofFloat (x : Float) : Double := ⟨x.toBits⟩

/-- The float with these bits; the sign of an undefined number is lost. -/
def toFloat (x : Double) : Float := .ofBits x.bits

def infinite (negative : Bool) : Double :=
  ⟨if negative then 0xFFF0000000000000 else 0x7FF0000000000000⟩

def undefined (negative : Bool) : Double :=
  ⟨if negative then 0xFFF8000000000000 else 0x7FF8000000000000⟩

end Double

end Ebnf
