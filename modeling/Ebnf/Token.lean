import Ebnf.Text.Position

/-! The tokens of a grammar source: what each one means, where it starts, and how messages quote
it. -/

namespace Ebnf

/-- A quantifier as it is spelled; a counted one keeps its text, braces included. -/
inductive Mark where
  | optional
  | oneOrMore
  | any
  | counted (text : String)
deriving DecidableEq

/-- What a token means. A label names a node and follows a quantifier or a closing parenthesis. -/
inductive Lexeme where
  | name (word : String)
  | literal (text : String)
  | charClass (source : String)
  | bar
  | quantifier (mark : Mark) (label : Option String)
  | define
  | opening
  | closing (label : Option String)
  | lookAhead (positive : Bool)
  | cut
  | finish
deriving DecidableEq

namespace Lexeme

def kind : Lexeme → String
  | name _ => "Name"
  | literal _ => "String"
  | charClass _ => "CharClass"
  | bar => "Or"
  | quantifier .oneOrMore _ => "MinOne"
  | quantifier .optional _ => "Optional"
  | quantifier .any _ => "RepeatMany"
  | quantifier (.counted _) _ => "Repeat"
  | define => "Define"
  | opening => "ExpStart"
  | closing _ => "ExpEnd"
  | lookAhead true => "PosLookAhead"
  | lookAhead false => "NegLookAhead"
  | cut => "Cut"
  | finish => "None"

def text : Lexeme → String
  | name word => word
  | literal text => text
  | charClass source => source
  | quantifier (.counted text) _ => text
  | _ => ""

def label : Lexeme → Option String
  | quantifier _ label => label
  | closing label => label
  | _ => none

def isQuantifier : Lexeme → Bool
  | quantifier _ _ => true
  | _ => false

def describe (l : Lexeme) : String :=
  match l with
  | finish => "end of input"
  | _ => if l.text = "" then l.kind else s!"{l.kind} '{l.text}'"

end Lexeme

structure Token where
  lexeme : Lexeme
  position : Position
deriving DecidableEq

end Ebnf
