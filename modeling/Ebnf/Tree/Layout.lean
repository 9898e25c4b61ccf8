import Ebnf.Graph
import Ebnf.Tree

/-! Trees as nodes of a graph. Nodes are numbered in the order in which they are allocated: each one
before its children, but an alternative behind its first option, as the bar behind that is what
opens it. So the number of every node follows from the sizes of the trees before it. -/

namespace Ebnf

namespace Tag

def node (t : Tag) (kind : NodeKind) (parent : Option NodeId) : Node :=
  ⟨kind, t.position, t.repetition, t.repetition.yield, t.label, parent⟩

end Tag

def Leaf.kind (targets : String → Option NodeId) : Leaf → NodeKind
  | literal text => .terminal text
  | charClass set => .charClass set
  | reference rule => .reference rule (targets rule)
  | cut => .cut

def Tree.top (first : Nat) : Tree → Nat
  | .choice (o :: _) _ => first + o.size
  | _ => first

def Tree.ids (first : NodeId) : List Tree → List NodeId
  | [] => []
  | t :: ts => t.top first :: Tree.ids (first + t.size) ts

mutual

def Tree.layout (targets : String → Option NodeId) (parent : Option NodeId) (first : NodeId) :
    Tree → List Node
  | .leaf l tag => [tag.node (l.kind targets) parent]
  | .group items tag =>
    tag.node (.group (Tree.ids (first + 1) items)) parent ::
      Tree.layoutAll targets first (first + 1) items
  | .choice [] position =>
    [(Tag.bare position).node (.choice [] (.uniform 0) (.uniform 0)) parent]
  | .choice (o :: os) position =>
    let own := first + o.size
    o.layout targets (some own) first ++
      (Tag.bare position).node
          (.choice (o.top first :: Tree.ids (own + 1) os) (.uniform 0) (.uniform 0)) parent ::
        Tree.layoutAll targets own (own + 1) os
  | .lookAhead positive operand position =>
    (Tag.bare position).node (.lookAhead positive (some (operand.top (first + 1)))) parent ::
      operand.layout targets (some first) (first + 1)

def Tree.layoutAll (targets : String → Option NodeId) (parent next : NodeId) :
    List Tree → List Node
  | [] => []
  | t :: ts =>
    t.layout targets (some parent) next ++ Tree.layoutAll targets parent (next + t.size) ts

end

namespace RuleTree

/-- The nodes of a rule whose own number is `id`; a rule is labelled with its name. -/
def layout (targets : String → Option NodeId) (id : NodeId) (r : RuleTree) : List Node :=
  { Node.ofKind (.rule r.name (Tree.ids (id + 1) r.items)) r.position with label := some r.name } ::
    Tree.layoutAll targets id (id + 1) r.items

def layoutAll (targets : String → Option NodeId) (next : NodeId) : List RuleTree → List Node
  | [] => []
  | r :: rs => r.layout targets next ++ layoutAll targets (next + r.size) rs

/-- The rules with the numbers they get when they are laid out from `next` on. -/
def index (next : NodeId) : List RuleTree → List (String × NodeId)
  | [] => []
  | r :: rs => (r.name, next) :: index (next + r.size) rs

end RuleTree

end Ebnf
