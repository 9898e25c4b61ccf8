/-! Letters that stand for control characters behind a backslash, in quoted strings and in
character classes alike. -/

namespace Ebnf

/-- Any other character behind a backslash stands for itself. -/
def unescape (c : Char) : Char :=
  match c with
  | 'n' => '\n'
  | 't' => '\t'
  | 'r' => '\r'
  | 'v' => '\x0b'
  | 'f' => '\x0c'
  | 'b' => '\x08'
  | '0' => '\x00'
  | other => other

def isWordChar (c : Char) : Bool := c.isAlphanum || c = '_'

/-- What a name may start with: no digit. -/
def isNameStart (c : Char) : Bool := c.isAlpha || c = '_'

end Ebnf
