import Ebnf.Grammar

/-! Generator settings for the labelled nodes of a rule. Bounds may narrow what the grammar declares
and never widen it. The settings of a rule are checked in the order of their labels and applied
only if all of them are sound. -/

namespace Ebnf

/-- A checked change: new bounds for a node, and new weights for an alternative. -/
structure NodeUpdate where
  id : NodeId
  yield : Yield
  weights : Option (NodeId × Distribution)

namespace NodeSettings

def maxWithin (declared : Option Nat) : Int → Except NodeFault (Option Nat)
  | .negSucc _ => if declared.isNone then .ok none else .error .unboundedMax
  | .ofNat max =>
    match declared with
    | some bound => if bound < max then .error (.maxAboveDeclared max bound) else .ok (some max)
    | none => .ok (some max)

def isMagnitude (x : Float) : Bool := x.isFinite && !(x < 0)

def withMin (min : Option Nat) (declared : Repetition) (bounds : Yield) : Except NodeFault Yield :=
  match min with
  | none => .ok bounds
  | some min =>
    if min < declared.min then .error (.minBelowDeclared min declared.min)
    else .ok { bounds with min }

def withMax (max : Option Int) (declared : Repetition) (bounds : Yield) : Except NodeFault Yield :=
  match max with
  | none => .ok bounds
  | some max => (maxWithin declared.max max).map fun max => { bounds with max }

def inOrder (bounds : Yield) : Except NodeFault Yield :=
  match bounds.max with
  | none => .ok bounds
  | some max => if max < bounds.min then .error (.minAboveMax bounds.min max) else .ok bounds

def withPow (pow : Option Double) (bounds : Yield) : Except NodeFault Yield :=
  match pow with
  | none => .ok bounds
  | some pow =>
    if isMagnitude pow.toFloat then .ok { bounds with pow := pow.toFloat }
    else .error (.badPow pow.toFloat)

def yieldFor (s : NodeSettings) (n : Node) : Except NodeFault Yield := do
  let bounds ← withMin s.min n.repetition n.yield
  let bounds ← withMax s.max n.repetition bounds
  let bounds ← inOrder bounds
  withPow s.pow bounds

/-- The alternative that the weights of a node are for: the node itself, or else the first one among
its children, with the number of its options. -/
def choiceFor (g : Graph) (id : NodeId) : Option (NodeId × Nat) :=
  (id :: (g.node id).kind.children).findSome? fun candidate =>
    match (g.node candidate).kind with
    | .choice options _ _ => some (candidate, options.length)
    | _ => none

def distributionOf (weights : List Float) (options : Nat) : Except NodeFault Distribution :=
  if weights.length ≠ options then .error (.weightCount weights.length options)
  else match weights.find? fun w => !isMagnitude w with
    | some w => .error (.badWeight w)
    | none =>
      let sum := weights.foldl (· + ·) 0
      if !sum.isFinite then .error (.weightSum sum)
      else match Distribution.ofWeights? weights with
        | some d => .ok d
        | none => .error .badWeights

def updateFor (s : NodeSettings) (g : Graph) (id : NodeId) : Except NodeFault NodeUpdate := do
  let yield ← s.yieldFor (g.node id)
  match s.weights with
  | none => .ok ⟨id, yield, none⟩
  | some weights =>
    match choiceFor g id with
    | none => .error .noChoice
    | some (target, options) =>
      (distributionOf (weights.map Double.toFloat) options).map fun d =>
        ⟨id, yield, some (target, d)⟩

end NodeSettings

namespace Graph

def setYield (g : Graph) (u : NodeUpdate) : Graph :=
  g.modify u.id fun n => { n with yield := u.yield }

def setWeights (g : Graph) (id : NodeId) (d : Distribution) : Graph :=
  g.modifyKind id fun
    | .choice options _ escapes => .choice options d escapes
    | kind => kind

def setEscapes (g : Graph) (id : NodeId) (d : Distribution) : Graph :=
  g.modifyKind id fun
    | .choice options weights _ => .choice options weights d
    | kind => kind

def setWeightsOf (g : Graph) (u : NodeUpdate) : Graph :=
  match u.weights with
  | some (target, d) => g.setWeights target d
  | none => g

def update (g : Graph) (updates : List NodeUpdate) : Graph :=
  updates.foldl setWeightsOf (updates.foldl setYield g)

end Graph

namespace Grammar

def updatesFor (g : Grammar) (rule : String) (root : NodeId) (settings : RuleSettings) :
    Except GrammarError (List NodeUpdate) :=
  settings.entries.mapM fun (label, s) =>
    match g.graph.findLabelled root label with
    | none => .error (.config rule (.noNode label))
    | some id => (s.updateFor g.graph id).mapError fun f => .config rule (.node label f)

/-- The grammar with generator settings applied to the labelled nodes of a rule. -/
def configure (g : Grammar) (rule : String) (settings : RuleSettings) :
    Except GrammarError Grammar := do
  let root ← g.root rule
  let updates ← g.updatesFor rule root settings
  return { g with graph := g.graph.update updates }

end Grammar

end Ebnf
