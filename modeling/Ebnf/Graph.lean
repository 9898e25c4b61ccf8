import Ebnf.CharClass
import Ebnf.Repetition

/-! A grammar as a graph. Nodes are numbered; groups, alternatives, look-aheads and rules list
their children by number, and a reference points at the rule it names. Graphs may also be put
together by hand, so a reference may be unlinked and children may be shared. -/

namespace Ebnf

abbrev NodeId := Nat

/-- How often a node occurs in generated text. A missing maximum falls back to the engine's limit;
the exponent shapes the draw between the bounds. -/
structure Yield where
  min : Nat
  max : Option Nat
  pow : Float

def Repetition.yield (r : Repetition) : Yield := ⟨r.min, r.max, 1⟩

inductive NodeKind where
  | terminal (literal : String)
  | charClass (set : CharClass)
  | reference (rule : String) (target : Option NodeId)
  | group (children : List NodeId)
  /-- The weights choose among all options, the escapes only among those that cannot recurse. -/
  | choice (options : List NodeId) (weights escapes : Distribution)
  | rule (name : String) (children : List NodeId)
  | lookAhead (positive : Bool) (operand : Option NodeId)
  | cut

namespace NodeKind

def children : NodeKind → List NodeId
  | group children | rule _ children => children
  | choice options _ _ => options
  | lookAhead _ operand => operand.toList
  | _ => []

/-- With one more child. Leaves refuse it, and so does a look-ahead that has its operand. -/
def push? (id : NodeId) : NodeKind → Option NodeKind
  | group children => some (group (children ++ [id]))
  | rule name children => some (rule name (children ++ [id]))
  | choice options weights escapes => some (choice (options ++ [id]) weights escapes)
  | lookAhead positive none => some (lookAhead positive (some id))
  | _ => none

def isChoice : NodeKind → Bool
  | choice _ _ _ => true
  | _ => false

def isCut : NodeKind → Bool
  | cut => true
  | _ => false

def describe : NodeKind → String
  | terminal literal => s!"Terminal: '{literal}'"
  | charClass set => s!"CharacterClass: '{set.source}'"
  | reference name _ => s!"NonTerminal: '{name}'"
  | group _ => "SubExpression"
  | choice _ _ _ => "AlternativeExpression"
  | rule name _ => s!"Expression: '{name}'"
  | lookAhead true _ => "positive LookAhead"
  | lookAhead false _ => "negative LookAhead"
  | cut => "Cut"

def failureLabel (k : NodeKind) : String := s!"Could not match {k.describe}"

end NodeKind

structure Node where
  kind : NodeKind
  position : Position
  repetition : Repetition
  yield : Yield
  label : Option String
  parent : Option NodeId

namespace Node

def ofKind (kind : NodeKind) (position : Position) : Node :=
  ⟨kind, position, .once, Repetition.once.yield, none, none⟩

def repeated (n : Node) (r : Repetition) : Node := { n with repetition := r, yield := r.yield }

def absent : Node := ofKind (.reference "" none) .start

end Node

structure Graph where
  nodes : Array Node
  finiteRules : List NodeId

namespace Graph

def empty : Graph := ⟨#[], []⟩

def size (g : Graph) : Nat := g.nodes.size

def node (g : Graph) (id : NodeId) : Node := g.nodes.getD id .absent

def add (g : Graph) (n : Node) : NodeId × Graph :=
  (g.nodes.size, { g with nodes := g.nodes.push n })

def modify (g : Graph) (id : NodeId) (f : Node → Node) : Graph :=
  { g with nodes := g.nodes.modify id f }

def modifyKind (g : Graph) (id : NodeId) (f : NodeKind → NodeKind) : Graph :=
  g.modify id fun n => { n with kind := f n.kind }

def push? (g : Graph) (parent child : NodeId) : Option Graph :=
  ((g.node parent).kind.push? child).map fun kind => g.modifyKind parent fun _ => kind

def adopt? (g : Graph) (parent child : NodeId) : Option Graph :=
  (g.push? parent child).map fun g => g.modify child fun n => { n with parent := some parent }

def isFinite (g : Graph) (id : NodeId) : Bool := g.finiteRules.contains id

/-- Whether a rule that is not finite is referenced below a node. Look-aheads generate nothing and
do not count. The fuel bounds how deep the search goes. -/
def recursesWithin (g : Graph) : (fuel : Nat) → NodeId → Bool
  | 0, _ => false
  | fuel + 1, id =>
    match (g.node id).kind with
    | .reference _ target => target.all fun t => !g.isFinite t
    | .lookAhead _ _ => false
    | kind => kind.children.any (g.recursesWithin fuel)

def isPotentiallyRecursive (g : Graph) (id : NodeId) : Bool := g.recursesWithin (g.size + 1) id

def referencesWithin (g : Graph) : (fuel : Nat) → NodeId → List NodeId
  | 0, _ => []
  | fuel + 1, id =>
    match (g.node id).kind with
    | .reference _ target => target.toList
    | .lookAhead _ _ => []
    | kind => kind.children.flatMap (g.referencesWithin fuel)

def referencedRules (g : Graph) (id : NodeId) : List NodeId := g.referencesWithin (g.size + 1) id

def isEnclosedWithin (g : Graph) : (fuel : Nat) → NodeId → Bool
  | 0, _ => false
  | fuel + 1, id =>
    match (g.node id).parent with
    | none => false
    | some p => (g.node p).kind.isChoice || g.isEnclosedWithin fuel p

def isEnclosed (g : Graph) (id : NodeId) : Bool := g.isEnclosedWithin (g.size + 1) id

/-- The cuts above which no alternative stands. -/
def looseCuts (g : Graph) : List NodeId :=
  (List.range g.size).filter fun id => (g.node id).kind.isCut && !g.isEnclosed id

def findWithin (g : Graph) (label : String) : (fuel : Nat) → NodeId → Option NodeId
  | 0, _ => none
  | fuel + 1, id =>
    let n := g.node id
    if n.label = some label then some id
    else n.kind.children.findSome? (g.findWithin label fuel)

def findLabelled (g : Graph) (id : NodeId) (label : String) : Option NodeId :=
  g.findWithin label (g.size + 1) id

end Graph

end Ebnf
