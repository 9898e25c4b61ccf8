import Ebnf.CharClass
import Ebnf.Repetition

/-! Rule definitions as trees. A leaf or a group carries a tag: where it stands, how often it
occurs and which label names it. Alternatives and look-aheads carry a position alone. -/

namespace Ebnf

structure Tag where
  position : Position
  repetition : Repetition
  label : Option String

namespace Tag

def bare (position : Position) : Tag := ⟨position, .once, none⟩

end Tag

inductive Leaf where
  | literal (text : String)
  | charClass (set : CharClass)
  | reference (rule : String)
  | cut

inductive Tree where
  | leaf (leaf : Leaf) (tag : Tag)
  | group (items : List Tree) (tag : Tag)
  | choice (options : List Tree) (position : Position)
  | lookAhead (positive : Bool) (operand : Tree) (position : Position)

/-- A definition: its name, the place of the name, and the sequence that is its body. -/
structure RuleTree where
  name : String
  position : Position
  items : List Tree

mutual

def Tree.size : Tree → Nat
  | .leaf _ _ => 1
  | .group items _ => 1 + Tree.sizes items
  | .choice options _ => 1 + Tree.sizes options
  | .lookAhead _ operand _ => 1 + operand.size

def Tree.sizes : List Tree → Nat
  | [] => 0
  | t :: ts => t.size + Tree.sizes ts

end

mutual

/-- The references in a tree, in the order of the source. -/
def Tree.references : Tree → List (Position × String)
  | .leaf (.reference rule) tag => [(tag.position, rule)]
  | .leaf _ _ => []
  | .group items _ => Tree.referencesOf items
  | .choice options _ => Tree.referencesOf options
  | .lookAhead _ operand _ => operand.references

def Tree.referencesOf : List Tree → List (Position × String)
  | [] => []
  | t :: ts => t.references ++ Tree.referencesOf ts

end

namespace RuleTree

def size (r : RuleTree) : Nat := 1 + Tree.sizes r.items

def references (r : RuleTree) : List (Position × String) := Tree.referencesOf r.items

end RuleTree

end Ebnf
