import Ebnf.Token.Lexer
import Ebnf.Tree

/-! Trees of the rules that a source defines. Tokens are taken one at a time. The builder keeps the
containers that are open and the operand read last, which the next token may still quantify, turn
into an option or, if it is a bare name, into the name of the next rule. -/

namespace Ebnf

inductive FrameKind where
  | group
  | choice
  | lookAhead (positive : Bool)

structure Frame where
  kind : FrameKind
  position : Position
  items : List Tree

inductive Pending where
  | none
  | name (word : String) (position : Position)
  | primary (t : Tree)
  | operand (t : Tree)

/-- The rule being defined: its items so far, the last one first, and what is open inside it, the
innermost container first. -/
structure OpenRule where
  name : String
  position : Position
  items : List Tree
  frames : List Frame
  pending : Pending

namespace OpenRule

def start (name : String) (position : Position) : OpenRule := ⟨name, position, [], [], .none⟩

def finished (r : OpenRule) : RuleTree := ⟨r.name, r.position, r.items.reverse⟩

def add (r : OpenRule) (t : Tree) : OpenRule :=
  match r.frames with
  | [] => { r with items := t :: r.items }
  | f :: fs => { r with frames := { f with items := t :: f.items } :: fs }

def openFrame (r : OpenRule) (kind : FrameKind) (position : Position) (items : List Tree) :
    OpenRule :=
  { r with frames := ⟨kind, position, items⟩ :: r.frames }

def closeChoice (r : OpenRule) : OpenRule :=
  match r.frames with
  | ⟨.choice, position, options⟩ :: fs =>
    add { r with frames := fs } (.choice options.reverse position)
  | _ => r

def wrap (t : Tree) : List Frame → Tree × List Frame
  | ⟨.lookAhead positive, position, _⟩ :: fs => wrap (.lookAhead positive t position) fs
  | fs => (t, fs)

/-- Adds a finished operand. If a bar follows, whose place is given, the operand is an option, of
the open alternative or of a new one; otherwise it ends the open alternative. -/
def attach (r : OpenRule) (t : Tree) (bar : Option Position) : OpenRule :=
  let (t, frames) := wrap t r.frames
  let r := { r with frames := frames, pending := .none }
  match frames, bar with
  | ⟨.choice, _, _⟩ :: _, some _ => r.add t
  | ⟨.choice, _, _⟩ :: _, none => (r.add t).closeChoice
  | _, some position => r.openFrame .choice position [t]
  | _, none => r.add t

def settle (r : OpenRule) (bar : Option Position) : OpenRule :=
  match r.pending with
  | .none => r
  | .name word position => r.attach (.leaf (.reference word) (.bare position)) bar
  | .primary t | .operand t => r.attach t bar

def waitsForOperand (r : OpenRule) : Bool :=
  match r.frames with
  | ⟨.lookAhead _, _, _⟩ :: _ => true
  | _ => false

def keep (r : OpenRule) (t : Tree) : OpenRule := { r with pending := .primary t }

def closeGroup (r : OpenRule) (label : Option String) (position : Position) :
    Except GrammarError OpenRule :=
  let r := r.closeChoice
  match r.frames with
  | ⟨.group, start, items⟩ :: fs =>
    .ok (keep { r with frames := fs } (.group items.reverse ⟨start, .once, label⟩))
  | ⟨.lookAhead _, _, _⟩ :: _ => .error (.parse position .lookAheadBeforeClosing)
  | _ => .error (.parse position .closingOutsideGroup)

def begin (r : OpenRule) (token : Token) : Except GrammarError OpenRule :=
  let position := token.position
  match token.lexeme with
  | .name word => .ok { r with pending := .name word position }
  | .literal text => .ok (r.keep (.leaf (.literal text) (.bare position)))
  | .cut => .ok (r.keep (.leaf .cut (.bare position)))
  | .charClass source =>
    match CharClass.parse source with
    | .ok set => .ok (r.keep (.leaf (.charClass set) (.bare position)))
    | .error fault => .error (.parse position (.charClass fault source))
  | .opening => .ok (r.openFrame .group position [])
  | .lookAhead positive =>
    if r.waitsForOperand then .error (.parse position .nestedLookAhead)
    else .ok (r.openFrame (.lookAhead positive) position [])
  | .closing label => r.closeGroup label position
  | lexeme => .error (.parse position (.unexpectedToken lexeme))

def quantify (tag : Tag) (mark : Mark) (label : Option String) (position : Position) :
    Except GrammarError Tag :=
  match tag.label, label with
  | some first, some second => .error (.parse position (.secondLabel first second))
  | first, second =>
    match mark.repetition with
    | .ok repetition => .ok ⟨tag.position, repetition, first.or second⟩
    | .error fault => .error (.parse position (.repetition fault))

def quantifyTree (t : Tree) (mark : Mark) (label : Option String) (position : Position) :
    Except GrammarError Tree :=
  match t with
  | .leaf l tag => (quantify tag mark label position).map (.leaf l)
  | .group items tag => (quantify tag mark label position).map (.group items)
  | t => .ok t

def take (r : OpenRule) (token : Token) : Except GrammarError OpenRule :=
  match r.pending, token.lexeme with
  | .none, _ => r.begin token
  | _, .bar => .ok (r.settle (some token.position))
  | .name word position, .quantifier mark label =>
    (quantifyTree (.leaf (.reference word) (.bare position)) mark label token.position).map
      fun t => { r with pending := .operand t }
  | .primary t, .quantifier mark label =>
    (quantifyTree t mark label token.position).map fun t => { r with pending := .operand t }
  | _, _ => (r.settle none).begin token

end OpenRule

inductive Builder where
  | idle
  | named (word : String) (position : Position)
  | inRule (done : List RuleTree) (rule : OpenRule)

namespace Builder

def openRule (done : List RuleTree) (word : String) (position : Position) :
    Except GrammarError Builder :=
  if done.any (·.name = word) then .error (.parse position (.redefinedRule word))
  else .ok (.inRule done (.start word position))

def step (b : Builder) (token : Token) : Except GrammarError Builder :=
  match b with
  | idle =>
    match token.lexeme with
    | .name word => .ok (named word token.position)
    | lexeme => .error (.parse token.position (.expectedRuleName lexeme))
  | named word position =>
    match token.lexeme with
    | .define => openRule [] word position
    | lexeme => .error (.parse token.position (.expectedDefine word lexeme))
  | inRule done rule =>
    match rule.pending, token.lexeme with
    | .name word position, .define =>
      if rule.frames.isEmpty then openRule (rule.finished :: done) word position
      else .error (.parse position (.ruleInsideGroup word rule.name))
    | _, _ => (rule.take token).map (inRule done)

/-- The rules of a source that ends at a place. -/
def finish (b : Builder) (place : Position) : Except GrammarError (List RuleTree) :=
  match b with
  | idle => .ok []
  | named word _ => .error (.parse place (.expectedDefine word .finish))
  | inRule done rule =>
    let rule := rule.settle none
    if rule.frames.isEmpty then .ok (rule.finished :: done).reverse
    else .error (.parse place (.unclosedRule rule.name))

end Builder

/-- The rules a source defines. An error in reading its tokens shows only once all tokens before
it have been taken. -/
def RuleTree.parse (source : String) : Except GrammarError (List RuleTree) := do
  let stream := TokenStream.ofString source
  let builder ← stream.tokens.foldlM Builder.step .idle
  builder.finish (← stream.ending)

end Ebnf
