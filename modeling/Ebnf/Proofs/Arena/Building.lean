import Ebnf.Grammar.Configure
import Ebnf.Proofs.Syntax.OneAhead

/-! Parsing straight into a graph. A node is allocated when its first token is read. A container
that is opened has its parent from then on, but it is the parent's child only when it is closed; and
an operand that a bar follows is moved under an alternative that is allocated behind it. So until a
rule ends, the children that nodes have and the parents that nodes name need not agree. The passes
that follow link the references, look for cuts and set the distributions, one node after the other.
-/

namespace Ebnf

inductive OpenKind where
  | nothing
  | rule
  | group
  | choice
  | lookAhead
deriving DecidableEq

def NodeKind.openKind : NodeKind → OpenKind
  | rule _ _ => .rule
  | group _ => .group
  | choice _ _ _ => .choice
  | lookAhead _ _ => .lookAhead
  | _ => .nothing

/-- A parser between two tokens: the nodes so far, the rules with theirs, the node of the rule that
is being defined, and the container that new nodes are added to. -/
structure GraphParser where
  lexer : Lexer
  graph : Graph
  rules : List (String × NodeId)
  root : Option NodeId
  current : Option NodeId

namespace GraphParser

open Ebnf.Parser (fault look take)

def openKind (p : GraphParser) : OpenKind :=
  match p.current with
  | some id => (p.graph.node id).kind.openKind
  | none => .nothing

def ruleName (g : Graph) (root : NodeId) : String :=
  match (g.node root).kind with
  | .rule name _ => name
  | _ => ""

def adopt (p : GraphParser) (container node : NodeId) : Except ParserError GraphParser :=
  match p.graph.adopt? container node with
  | some graph => .ok { p with graph }
  | none => .error (.full (p.graph.node node).position (p.graph.node container).kind)

def openRule (p : GraphParser) (token : Token) : Except ParserError GraphParser :=
  match token.lexeme with
  | .name word => do
    let (define, lexer) ← take p.lexer
    if define.lexeme ≠ .define then
      .error (fault define.position (.expectedDefine word define.lexeme))
    else if (p.rules.lookup word).isSome then .error (fault token.position (.redefinedRule word))
    else
      let (id, graph) :=
        p.graph.add { Node.ofKind (.rule word []) token.position with label := some word }
      .ok ⟨lexer, graph, p.rules ++ [(word, id)], some id, some id⟩
  | lexeme => .error (fault token.position (.expectedRuleName lexeme))

def closeRule (p : GraphParser) (word : String) (position : Position) : Except ParserError Unit :=
  match p.root with
  | none => .ok ()
  | some root =>
    if p.current = some root then .ok ()
    else .error (fault position (.ruleInsideGroup word (ruleName p.graph root)))

def openContainer (p : GraphParser) (n : Node) : GraphParser :=
  let (id, graph) := p.graph.add { n with parent := p.current }
  { p with graph, current := some id }

def leafKind (token : Token) : Except ParserError NodeKind :=
  match token.lexeme with
  | .name word => .ok (.reference word none)
  | .literal text => .ok (.terminal text)
  | .cut => .ok .cut
  | .charClass source =>
    match CharClass.parse source with
    | .ok set => .ok (.charClass set)
    | .error f => .error (fault token.position (.charClass f source))
  | lexeme => .error (fault token.position (.unexpectedToken lexeme))

def createLeaf (p : GraphParser) (token : Token) : Except ParserError (NodeId × GraphParser) := do
  let kind ← leafKind token
  let (id, graph) := p.graph.add (Node.ofKind kind token.position)
  return (id, { p with graph })

def setLabel (p : GraphParser) (node : NodeId) (label : Option String) (position : Position) :
    Except ParserError GraphParser :=
  match label with
  | none => .ok p
  | some second =>
    match (p.graph.node node).label with
    | some first => .error (fault position (.secondLabel first second))
    | none => .ok { p with graph := p.graph.modify node fun n => { n with label := some second } }

def setRepetition (p : GraphParser) (node : NodeId) (mark : Mark) (position : Position) :
    Except ParserError GraphParser :=
  match mark.repetition with
  | .ok r => .ok { p with graph := p.graph.modify node fun n => n.repeated r }
  | .error f => .error (fault position (.repetition f))

def closeChoice (p : GraphParser) : GraphParser :=
  if p.openKind = .choice then
    { p with current := p.current.bind fun id => (p.graph.node id).parent }
  else p

def closeGroup (p : GraphParser) (label : Option String) (position : Position) :
    Except ParserError (NodeId × GraphParser) :=
  let p := p.closeChoice
  match p.current, p.openKind with
  | some group, .group => do
    let p ← p.setLabel group label position
    return (group, { p with current := (p.graph.node group).parent })
  | _, .lookAhead => .error (fault position .lookAheadBeforeClosing)
  | _, _ => .error (fault position .closingOutsideGroup)

def qualify (p : GraphParser) (node : NodeId) : Except ParserError GraphParser := do
  let (next, lexer) ← look p.lexer
  match next.lexeme with
  | .quantifier mark label =>
    let (_, lexer) ← take lexer
    let p ← setLabel { p with lexer } node label next.position
    p.setRepetition node mark next.position
  | _ => .ok { p with lexer }

def openChoice (p : GraphParser) (container : NodeId) (position : Position) :
    Except ParserError GraphParser := do
  let (id, graph) := p.graph.add (Node.ofKind (.choice [] (.uniform 0) (.uniform 0)) position)
  let p ← adopt { p with graph } container id
  return { p with current := some id }

def endOption (p : GraphParser) (container : NodeId) : Except ParserError GraphParser := do
  if p.openKind = .choice then
    let (next, lexer) ← look p.lexer
    if next.lexeme = .bar then
      let (_, lexer) ← take lexer
      return { p with lexer }
    else return { p with lexer, current := (p.graph.node container).parent }
  else return p

/-- Adds a node to a container that is no look-ahead. If a bar follows, the node is an option, of
the container or of an alternative that is opened in it. -/
def hold (p : GraphParser) (container node : NodeId) : Except ParserError GraphParser := do
  let (next, lexer) ← look p.lexer
  let p ← if p.openKind ≠ .choice ∧ next.lexeme = .bar then
      openChoice { p with lexer } container next.position
    else .ok { p with lexer }
  let container := p.current.getD container
  let p ← p.adopt container node
  p.endOption container

/-- Adds a finished node to the container that is open. A look-ahead is closed with its operand and
is added itself. The fuel bounds how many of them are closed. -/
def attach : (fuel : Nat) → GraphParser → NodeId → Option (Except ParserError GraphParser)
  | 0, _, _ => none
  | fuel + 1, p, node =>
    match p.current with
    | none => some (.error (.outside (p.graph.node node).position))
    | some container =>
      if p.openKind = .lookAhead then
        match p.adopt container node with
        | .error e => some (.error e)
        | .ok p => attach fuel { p with current := (p.graph.node container).parent } container
      else some (p.hold container node)

def element (p : GraphParser) (token : Token) : Except ParserError (Option NodeId × GraphParser) :=
  match token.lexeme with
  | .opening => .ok (none, p.openContainer (Node.ofKind (.group []) token.position))
  | .lookAhead positive =>
    if p.openKind = .lookAhead then .error (fault token.position .nestedLookAhead)
    else .ok (none, p.openContainer (Node.ofKind (.lookAhead positive none) token.position))
  | .closing label => do
    let (node, p) ← p.closeGroup label token.position
    let p ← p.qualify node
    return (some node, p)
  | _ => do
    let (node, p) ← p.createLeaf token
    let p ← p.qualify node
    return (some node, p)

def readElement (p : GraphParser) (token : Token) : Option (Except ParserError GraphParser) :=
  match p.element token with
  | .error e => some (.error e)
  | .ok (none, p) => some (.ok p)
  | .ok (some node, p) => attach (p.graph.size + 1) p node

def turn (p : GraphParser) (token : Token) : Option (Except ParserError GraphParser) :=
  if p.openKind = .nothing then some (p.openRule token)
  else
    match token.lexeme with
    | .name word =>
      match look p.lexer with
      | .error e => some (.error e)
      | .ok (next, lexer) =>
        let p := { p with lexer }
        if next.lexeme = .define then
          some (p.closeRule word token.position >>= fun _ => p.openRule token)
        else p.readElement token
    | _ => p.readElement token

def finish (p : GraphParser) : Except ParserError (Graph × List (String × NodeId)) :=
  match p.root with
  | none => .ok (p.graph, p.rules)
  | some root =>
    if p.current = some root then .ok (p.graph, p.rules)
    else do
      let (next, _) ← look p.lexer
      .error (fault next.position (.unclosedRule (ruleName p.graph root)))

def run : (fuel : Nat) → GraphParser →
    Option (Except ParserError (Graph × List (String × NodeId)))
  | 0, _ => none
  | fuel + 1, p =>
    match p.lexer.hasNext with
    | (.error e, _) => some (.error (.grammar e))
    | (.ok false, lexer) => some (finish { p with lexer })
    | (.ok true, lexer) =>
      match take lexer with
      | .error e => some (.error e)
      | .ok (token, lexer) =>
        match turn { p with lexer } token with
        | none => none
        | some (.error e) => some (.error e)
        | some (.ok p) => run fuel p

def ofString (source : String) : GraphParser := ⟨.ofString source, .empty, [], none, none⟩

end GraphParser

namespace Graph

def resolve (rules : List (String × NodeId)) (g : Graph) (id : NodeId) :
    Except GrammarError Graph :=
  match (g.node id).kind with
  | .reference rule _ =>
    match rules.lookup rule with
    | some root => .ok (g.modifyKind id fun _ => .reference rule (some root))
    | none => .error (.link (g.node id).position rule)
  | _ => .ok g

def resolveNames (g : Graph) (rules : List (String × NodeId)) : Except GrammarError Graph :=
  (List.range g.size).foldlM (resolve rules) g

def distribute (g : Graph) (id : NodeId) : Graph :=
  match (g.node id).kind with
  | .choice options _ _ =>
    (g.setWeights id (.uniform options.length)).setEscapes id
      (.indicator (options.map fun o => !g.isPotentiallyRecursive o))
  | _ => g

def finalize (g : Graph) (rules : List (String × NodeId)) : Graph :=
  (List.range g.size).foldl distribute (g.withFiniteRules (rules.map Prod.snd))

end Graph

namespace Grammar

def validate (graph : Graph) (rules : List (String × NodeId)) (settings : EngineSettings) :
    Except GrammarError Grammar := do
  let graph ← graph.resolveNames rules
  let warnings := graph.looseCuts.map fun id => ⟨(graph.node id).position⟩
  return ⟨graph.finalize rules, rules, settings, warnings⟩

/-- The grammar of a source as it is built node by node. The fuel bounds the number of turns. -/
def build (fuel : Nat) (source : String) (settings : EngineSettings) :
    Option (Except ParserError Grammar) :=
  match GraphParser.run fuel (.ofString source) with
  | none => none
  | some (.error e) => some (.error e)
  | some (.ok (graph, rules)) => some ((validate graph rules settings).mapError .grammar)

end Grammar

end Ebnf
