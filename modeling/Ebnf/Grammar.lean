import Ebnf.Settings
import Ebnf.Tree.Builder
import Ebnf.Tree.Layout

/-! Grammars: the rules of a source laid out as one graph, every reference linked to the rule it
names and every alternative with its distributions. -/

namespace Ebnf

namespace Graph

def growFinite (references : List (NodeId × List NodeId)) (finite : List NodeId) : List NodeId :=
  references.foldl (fun finite (rule, targets) =>
    if !finite.contains rule && targets.all finite.contains then rule :: finite else finite) finite

/-- Grows the set of finite rules until it stays as it is. It gains a rule in every round but the
last, so there are no more rounds than rules and one. -/
def finiteWithin (references : List (NodeId × List NodeId)) :
    (fuel : Nat) → List NodeId → List NodeId
  | 0, finite => finite
  | fuel + 1, finite =>
    let grown := growFinite references finite
    if grown.length = finite.length then finite else finiteWithin references fuel grown

def withFiniteRules (g : Graph) (rules : List NodeId) : Graph :=
  let references := rules.map fun id => (id, g.referencedRules id)
  { g with finiteRules := finiteWithin references (rules.length + 1) [] }

def distributed (g : Graph) : NodeKind → NodeKind
  | .choice options _ _ =>
    .choice options (.uniform options.length)
      (.indicator (options.map fun id => !g.isPotentiallyRecursive id))
  | kind => kind

def withDistributions (g : Graph) : Graph :=
  { g with nodes := g.nodes.map fun n => { n with kind := g.distributed n.kind } }

end Graph

structure Grammar where
  graph : Graph
  rules : List (String × NodeId)
  settings : EngineSettings
  warnings : List Warning

namespace Grammar

def ruleNames (g : Grammar) : List String := g.rules.map Prod.fst

def root (g : Grammar) (rule : String) : Except GrammarError NodeId :=
  match g.rules.lookup rule with
  | some id => .ok id
  | none => .error (.unknownRule rule)

/-- The grammar of a list of rules. Every reference must name one of them. -/
def ofTrees (trees : List RuleTree) (settings : EngineSettings) : Except GrammarError Grammar :=
  let rules := RuleTree.index 0 trees
  let targets := fun rule => rules.lookup rule
  match (trees.flatMap RuleTree.references).find? fun (_, rule) => (targets rule).isNone with
  | some (position, rule) => .error (.link position rule)
  | none =>
    let graph : Graph := ⟨(RuleTree.layoutAll targets 0 trees).toArray, []⟩
    .ok ⟨(graph.withFiniteRules (rules.map Prod.snd)).withDistributions, rules, settings,
      graph.looseCuts.map fun id => ⟨(graph.node id).position⟩⟩

def parse (source : String) (settings : EngineSettings) : Except GrammarError Grammar := do
  ofTrees (← RuleTree.parse source) settings

end Grammar

end Ebnf
