import Ebnf.Grammar
import Ebnf.Recent

/-! Matching a text against a node. A node matches by repeated attempts at one occurrence; groups
take their children in turn, alternatives take the first option that matches, and a cut keeps the
alternative around it from trying further options. An attempt that fails leaves a chain of entries
that says why, and with tracing on every attempt is logged.

Attempts nest as deep as the text and the graph make them, which has no bound on graphs that recurse
to the left. So an attempt is given fuel, and answers `none` when it runs out; more fuel than
`Graph.enough` never helps. -/

namespace Ebnf

inductive Reason where
  | found (text : List Char)
  | endOfInput
  | unlinked (rule : String)
  | operandMatched (text : List Char)
  | committed
  | inherited
  | unmatched (rest : List Char)

namespace Reason

def message : Reason → String
  | found text => s!"found '{String.ofList text}'"
  | endOfInput => "unexpected end of input"
  | unlinked rule => s!"rule `{rule}` is not linked"
  | operandMatched text => s!"operand matched '{String.ofList text}'"
  | committed => "(committed by cut)"
  | inherited => ""
  | unmatched rest => s!"There are unmatched characters left: '{String.ofList rest}'"

def ofFound (text : List Char) : Reason := if text.isEmpty then endOfInput else found text

end Reason

structure Failed where
  node : Option NodeId
  position : Position
  reason : Reason

inductive TraceEvent where
  | tried (position : Position)
  | ended (matched : Bool)

structure TraceLine where
  depth : Nat
  node : NodeId
  event : TraceEvent

structure Session where
  /-- For each alternative being tried, innermost first, whether a cut committed it. -/
  cuts : List Bool
  /-- The chain of the last failure, its deepest entry last. -/
  failures : List Failed
  trace : Option (Recent TraceLine)
  depth : Nat

namespace Session

def fail (s : Session) (node : Option NodeId) (position : Position) (reason : Reason) : Session :=
  { s with failures := [⟨node, position, reason⟩] }

def failOn (s : Session) (node : NodeId) (position : Position) (reason : Reason) : Session :=
  { s with failures := ⟨some node, position, reason⟩ :: s.failures }

def record (s : Session) (node : NodeId) (event : TraceEvent) : Session :=
  { s with trace := s.trace.map fun t => t.push ⟨s.depth, node, event⟩ }

def enter (s : Session) (node : NodeId) (position : Position) : Session :=
  let s := s.record node (.tried position)
  { s with depth := s.depth + 1 }

def leave (s : Session) (node : NodeId) (matched : Bool) : Session :=
  record { s with depth := s.depth - 1 } node (.ended matched)

def cut (s : Session) : Session :=
  match s.cuts with
  | [] => s
  | _ :: cuts => { s with cuts := true :: cuts }

def isCommitted (s : Session) : Bool := s.cuts.head? = some true

end Session

/-- From a place and a session to the place after the match, if there is one, and the session
then. Without an answer the attempt ran out of fuel. -/
abbrev Attempt := Cursor → Session → Option (Option Cursor × Session)

namespace Attempt

def inTurn (attempt : NodeId → Attempt) : List NodeId → Attempt
  | [], c, s => some (some c, s)
  | id :: ids, c, s =>
    match attempt id c s with
    | some (some c, s) => inTurn attempt ids c s
    | failed => failed

def firstOf (attempt : NodeId → Attempt) : List NodeId → Attempt
  | [], _, s => some (none, s)
  | id :: ids, c, s =>
    match attempt id c s with
    | some (none, s) => if s.isCommitted then some (none, s) else firstOf attempt ids c s
    | ended => ended

def settle (r : Repetition) (count : Nat) (c : Cursor) (s : Session) : Option Cursor × Session :=
  (if r.min ≤ count then some c else none, s)

def repeated (attempt : Attempt) (r : Repetition) : (fuel : Nat) → (count : Nat) → Attempt
  | 0, _, _, _ => none
  | fuel + 1, count, c, s =>
    if r.hasRoom count then
      match attempt c s with
      | none => none
      | some (none, s) => some (settle r count c s)
      | some (some d, s) =>
        if d.index = c.index then some (settle r (max (count + 1) r.min) d s)
        else repeated attempt r fuel (count + 1) d s
    else some (settle r count c s)

def lookAhead (positive : Bool) (attempt : Attempt) (id : NodeId) : Attempt := fun c s =>
  match attempt c s with
  | none => none
  | some (result, s) =>
    match result, positive with
    | some _, true | none, false => some (some c, s)
    | none, true => some (none, s.failOn id c.position .inherited)
    | some d, false =>
      some (none, s.fail (some id) c.position (.operandMatched (d.sliceFrom c.index)))

end Attempt

namespace Graph

def occurrence (once repeated : NodeId → Attempt) (id : NodeId) : NodeKind → Attempt
  | .terminal literal, c, s =>
    match c.consume literal.toList with
    | some d => some (some d, s)
    | none =>
      some (none, s.fail (some id) c.position (.ofFound (c.peek literal.toList.length)))
  | .charClass set, c, s =>
    match c.next with
    | some (ch, d) =>
      if set.contains ch then some (some d, s)
      else some (none, s.fail (some id) c.position (.found [ch]))
    | none => some (none, s.fail (some id) c.position .endOfInput)
  | .reference _ (some target), c, s => once target c s
  | .reference rule none, c, s => some (none, s.fail (some id) c.position (.unlinked rule))
  | .group children, c, s | .rule _ children, c, s =>
    match Attempt.inTurn repeated children c s with
    | some (none, s) => some (none, s.failOn id c.position .inherited)
    | ended => ended
  | .choice options _ _, c, s =>
    match Attempt.firstOf repeated options c { s with cuts := false :: s.cuts } with
    | none => none
    | some (result, s) =>
      let committed := s.isCommitted
      let s := { s with cuts := s.cuts.tail }
      match result with
      | some d => some (some d, s)
      | none =>
        some (none, s.failOn id c.position (if committed then .committed else .inherited))
  | .lookAhead positive (some operand), c, s => Attempt.lookAhead positive (repeated operand) id c s
  | .lookAhead _ none, c, s => some (some c, s)
  | .cut, c, s => some (some c, s.cut)

/-- One occurrence of a node, logged. The fuel bounds how deep attempts nest and how often a node
is repeated. -/
def attempt (g : Graph) : (fuel : Nat) → NodeId → Attempt
  | 0, _, _, _ => none
  | fuel + 1, id, c, s =>
    let once := g.attempt fuel
    let repeated := fun child =>
      Attempt.repeated (once child) (g.node child).repetition fuel 0
    match occurrence once repeated id (g.node id).kind c (s.enter id c.position) with
    | none => none
    | some (result, s) => some (result, s.leave id result.isSome)

def matchNode (g : Graph) (fuel : Nat) (id : NodeId) : Attempt :=
  Attempt.repeated (g.attempt fuel id) (g.node id).repetition fuel 0

/-- Fuel for a text. A node that is tried again at the same place, inside its own attempt, is tried
for ever, so attempts that end nest no deeper than there are nodes and places; and a row of
occurrences is no longer than the text. -/
def enough (g : Graph) (text : List Char) : Nat := (g.size + 2) * (text.length + 2)

end Graph

structure MatchFailure where
  backtrace : List Failed

namespace MatchFailure

def position? (f : MatchFailure) : Option Position := f.backtrace.head?.map Failed.position

def isTrailing (f : MatchFailure) : Bool :=
  match f.backtrace with
  | [entry] => entry.node.isNone
  | _ => false

end MatchFailure

/-- The answer to a match: nothing against it or why it failed, and the log if one was kept. -/
structure Outcome where
  failure : Option MatchFailure
  trace : List TraceLine

namespace Outcome

def isMatch (o : Outcome) : Bool := o.failure.isNone

def traceCapacity : Nat := 4096

end Outcome

namespace Graph

def matchText (g : Graph) (root : NodeId) (text : String) (trace : Bool) : Option Outcome :=
  let c := Cursor.ofString text
  let s : Session := ⟨[], [], if trace then some (.empty Outcome.traceCapacity) else none, 0⟩
  match g.matchNode (g.enough c.ahead) root c s with
  | none => none
  | some (result, s) =>
    let failure := match result with
      | some d =>
        if d.hasNext then
          some ⟨(s.fail none d.position (.unmatched d.ahead)).failures.reverse⟩
        else none
      | none => some ⟨s.failures.reverse⟩
    some ⟨failure, match s.trace with
      | some t => t.toList
      | none => []⟩

def failureLabel (g : Graph) (f : Failed) : String :=
  match f.node with
  | some id => (g.node id).kind.failureLabel
  | none => ""

def renderFailed (g : Graph) (f : Failed) : String :=
  let text := " ".intercalate ([g.failureLabel f, f.reason.message].filter (· ≠ ""))
  s!"at line {f.position.render}: {text}"

def renderFailure (g : Graph) (f : MatchFailure) : String :=
  "Matching Error:" ++ String.join (f.backtrace.map fun entry => "\n    " ++ g.renderFailed entry)

def renderTrace (g : Graph) (l : TraceLine) : String :=
  let indent := String.ofList (List.replicate (2 * l.depth) ' ')
  let name := (g.node l.node).kind.describe
  match l.event with
  | .tried position => s!"{indent}{name} at {position.render}"
  | .ended true => s!"{indent}{name} matched"
  | .ended false => s!"{indent}{name} failed"

end Graph

namespace Grammar

def matchRule (g : Grammar) (rule text : String) : Except GrammarError (Option Outcome) :=
  (g.root rule).map fun id => g.graph.matchText id text g.settings.traceMatches

end Grammar

end Ebnf
