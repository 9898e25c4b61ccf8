import Ebnf.Chance.Distribution
import Ebnf.Chance.Uniform
import Ebnf.CharClass.Atom

/-! Character classes. A class is read as a list of items, which name the parts it is the union
of: contiguous ranges and sets of single characters. Drawing a character first chooses a part by
its size and then a character in it. -/

namespace Ebnf

inductive CharPart where
  | range (first last : Char)
  | choice (chars : List Char)
deriving DecidableEq

namespace CharPart

def digits : CharPart := range '0' '9'
def uppers : CharPart := range 'A' 'Z'
def lowers : CharPart := range 'a' 'z'
def spaces : CharPart := choice [' ', '\x0c', '\n', '\r', '\t', '\x0b']
def punctuation : CharPart := choice "!\"#$%&'()*+,-./:;<=>?@[\\]^_`\x7b|\x7d~".toList

def size : CharPart → Nat
  | range first last => last.toNat - first.toNat + 1
  | choice chars => chars.length

def contains : CharPart → Char → Bool
  | range first last, c => first ≤ c && c ≤ last
  | choice chars, c => chars.contains c

def charAt? (code : Nat) : Option Char :=
  if code.isValidChar then some (Char.ofNat code) else none

/-- A character of the part; `none` if the draw never ends, no character if there is none. -/
def draw (words : Words) : CharPart → Nat → Option (Option Char × Nat)
  | range first last, used =>
    let size := last.toNat - first.toNat + 1
    let accept := fun word => do charAt? (first.toNat + (← Uniform.accept32 size word))
    (words.drawUntil accept Words.patience used).map fun (c, used) => (some c, used)
  | choice [], used => some (none, used)
  | choice (c :: cs), used =>
    (words.drawUntil (Uniform.accept64 (cs.length + 1)) Words.patience used).map
      fun (i, used) => ((c :: cs)[i]?, used)

end CharPart

inductive ClassFault where
  | noBracket
  | negated
  | unterminated
  | unfinishedRange
  | rangeOrder
  | negatedShorthand
  | unsupportedEscape
  | empty
deriving DecidableEq

def ClassFault.message : ClassFault → String
  | noBracket => "expected '[' at the start of a character class"
  | negated => "negated character classes are not supported"
  | unterminated => "unterminated character class"
  | unfinishedRange => "unfinished character class range"
  | rangeOrder => "range out of order in character class"
  | negatedShorthand => "negated shorthand classes '\\S', '\\W' and '\\D' are not supported"
  | unsupportedEscape => "escapes '\\b', '\\c', '\\x', '\\u' and '\\p' are not supported"
  | empty => "empty character class"

inductive Shorthand where
  | space
  | digit
  | word
  | anything
deriving DecidableEq

inductive ClassItem where
  | single (c : Char)
  | range (first last : Char)
  | shorthand (s : Shorthand)
deriving DecidableEq

namespace ClassItem

def parts : ClassItem → List CharPart
  | single _ => []
  | range first last => [.range first last]
  | shorthand .space => [.spaces]
  | shorthand .digit => [.digits]
  | shorthand .word => [.digits, .uppers, .lowers]
  | shorthand .anything => [.digits, .uppers, .lowers, .spaces, .punctuation]

def loose? : ClassItem → Option Char
  | single c => some c
  | shorthand .word => some '_'
  | _ => none

end ClassItem

inductive AtomMeaning where
  | literal (c : Char)
  | shorthand (s : Shorthand)
  | refused (f : ClassFault)

def ClassAtom.meaning : ClassAtom → AtomMeaning
  | plain c => .literal c
  | escaped c =>
    match c with
    | 's' => .shorthand .space
    | 'd' => .shorthand .digit
    | 'w' => .shorthand .word
    | '.' => .shorthand .anything
    | 'S' | 'W' | 'D' => .refused .negatedShorthand
    | 'b' | 'c' | 'x' | 'u' | 'p' => .refused .unsupportedEscape
    | c => .literal (unescape c)

namespace ClassItem

def ofAtoms (closed : Bool) : List ClassAtom → Except ClassFault (List ClassItem)
  | [] => if closed then .ok [] else .error .unterminated
  | a :: rest =>
    match a.meaning with
    | .refused f => .error f
    | .shorthand s => (ofAtoms closed rest).map (shorthand s :: ·)
    | .literal first =>
      match rest with
      | [.plain '-'] => .error .unfinishedRange
      | .plain '-' :: e :: rest =>
        if e.char < first then .error .rangeOrder
        else (ofAtoms closed rest).map (range first e.char :: ·)
      | rest => (ofAtoms closed rest).map (single first :: ·)

end ClassItem

structure CharClass where
  source : String
  parts : List CharPart

namespace CharClass

/-- The ranges and shared sets in order, then the set of single characters if there are any. -/
def partsOf (items : List ClassItem) : List CharPart :=
  let loose := items.filterMap ClassItem.loose?
  items.flatMap ClassItem.parts ++ if loose.isEmpty then [] else [.choice loose]

/-- Reads a class up to its closing bracket; what stands behind that is left out of account. -/
def parse (source : String) : Except ClassFault CharClass :=
  match source.toList with
  | '[' :: '^' :: _ => .error .negated
  | '[' :: rest => do
    let body := ClassBody.read rest
    let items ← ClassItem.ofAtoms body.closed body.atoms
    if items.isEmpty then .error .empty else .ok ⟨source, partsOf items⟩
  | _ => .error .noBracket

def contains (s : CharClass) (c : Char) : Bool := s.parts.any (·.contains c)

def sizes? (s : CharClass) : Option Distribution :=
  Distribution.ofWeights? (s.parts.map fun p => (UInt64.ofNatClamp p.size).toFloat)

/-- A character of the class; `none` if the draw never ends, no character if there is none. -/
def draw (words : Words) (s : CharClass) (used : Nat) : Option (Option Char × Nat) :=
  match s.sizes? with
  | none => some (none, used)
  | some d =>
    match d.sample words used with
    | (none, used) => some (none, used)
    | (some i, used) =>
      match s.parts[i]? with
      | none => some (none, used)
      | some part => part.draw words used

end CharClass

end Ebnf
