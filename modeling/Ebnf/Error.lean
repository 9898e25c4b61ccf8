import Ebnf.CharClass
import Ebnf.Decimal.Shortest
import Ebnf.Repetition
import Ebnf.Token.Scan

/-! Everything that can be wrong with a grammar, with a request to it, or with its generator
settings, each by its cause; and how the causes are worded. -/

namespace Ebnf

inductive ParseFault where
  | expectedRuleName (found : Lexeme)
  | expectedDefine (rule : String) (found : Lexeme)
  | redefinedRule (rule : String)
  | ruleInsideGroup (next rule : String)
  | unclosedRule (rule : String)
  | nestedLookAhead
  | lookAheadBeforeClosing
  | closingOutsideGroup
  | unexpectedToken (found : Lexeme)
  | secondLabel (first second : String)
  | charClass (fault : ClassFault) (source : String)
  | repetition (fault : RepetitionFault)
deriving DecidableEq

def ParseFault.message : ParseFault → String
  | expectedRuleName found => s!"expected rule name, found {found.describe}"
  | expectedDefine rule found => s!"expected '::=' after rule name `{rule}`, found {found.describe}"
  | redefinedRule rule => s!"redefining rule `{rule}`"
  | ruleInsideGroup next rule =>
    s!"rule `{next}` starts before subexpression in rule `{rule}` is closed"
  | unclosedRule rule =>
    s!"unexpected end of grammar: unterminated subexpression in rule `{rule}`"
  | nestedLookAhead => "lookahead must be followed by a single operand, found another lookahead"
  | lookAheadBeforeClosing => "lookahead is missing its operand before ')'"
  | closingOutsideGroup => "found end of subexpression outside a subexpression"
  | unexpectedToken found =>
    s!"unexpected token: cannot create grammar node from {found.describe}"
  | secondLabel first second => s!"node may not have multiple names (`{first}` and `{second}`)"
  | charClass fault source => s!"{fault.message}: {source}"
  | repetition fault => fault.message

/-- What is wrong with the generator settings of one named node. -/
inductive NodeFault where
  | minBelowDeclared (min declared : Nat)
  | unboundedMax
  | maxAboveDeclared (max declared : Nat)
  | minAboveMax (min max : Nat)
  | badPow (pow : Float)
  | noChoice
  | weightCount (weights options : Nat)
  | badWeight (weight : Float)
  | weightSum (sum : Float)
  | badWeights

def NodeFault.message : NodeFault → String
  | minBelowDeclared min declared => s!"min {min} is below the grammar's minimum of {declared}"
  | unboundedMax => "an unbounded max is only allowed for unbounded repetitions"
  | maxAboveDeclared max declared => s!"max {max} is above the grammar's maximum of {declared}"
  | minAboveMax min max => s!"min {min} is greater than max {max}"
  | badPow pow => s!"pow must be a non-negative number, got {Decimal.render pow}"
  | noChoice => "dist requires an alternative"
  | weightCount weights options =>
    s!"dist has {weights} weight(s) but the alternative has {options} option(s)"
  | badWeight weight => s!"invalid weight {Decimal.render weight} in dist"
  | weightSum sum => s!"dist weights sum to {Decimal.render sum}"
  | badWeights => "invalid dist (A weight is invalid in distribution)"

inductive ConfigFault where
  | noNode (label : String)
  | node (label : String) (fault : NodeFault)

def ConfigFault.message : ConfigFault → String
  | noNode label => s!"no node named `{label}` in this rule"
  | node label fault => s!"node `{label}`: {fault.message}"

inductive GrammarError where
  | lex (position : Position) (fault : LexFault)
  | parse (position : Position) (fault : ParseFault)
  | link (position : Position) (rule : String)
  | config (rule : String) (fault : ConfigFault)
  | unknownRule (rule : String)

def GrammarError.message : GrammarError → String
  | lex position fault => s!"lex error at line {position.render}: {fault.message}"
  | parse position fault => s!"parse error at line {position.render}: {fault.message}"
  | link position rule =>
    s!"link error at line {position.render}: referencing unknown rule `{rule}`"
  | config rule fault => s!"config error in rule `{rule}`: {fault.message}"
  | unknownRule rule => s!"unknown rule `{rule}`"

/-- A finding that does not keep a grammar from being used: a cut with nothing to commit to. -/
structure Warning where
  position : Position
deriving DecidableEq

namespace Warning

def message (_ : Warning) : String := "cut has no enclosing alternative in its rule"

def render (w : Warning) : String := s!"warning at line {w.position.render}: {w.message}"

end Warning

end Ebnf
