import Ebnf.Chance
import Ebnf.Grammar

/-! Random text for a node. Nesting is limited: past the depth limit alternatives choose only among
options that cannot recurse, and past twice the limit references to rules that are not finite are
no longer followed. Where no way out is left a placeholder is written instead.

A graph put together by hand may refer to itself without coming deeper, or call a rule finite that
is not, so generating is given fuel as well, and answers `none` when it runs out. -/

namespace Ebnf

structure Draft (σ : Type) where
  chance : σ
  overflows : Nat
  /-- The text so far, its last character first. -/
  written : List Char

namespace Draft

variable {σ : Type}

def placeholder : String := "<depth-limit>"

def write (d : Draft σ) (text : List Char) : Draft σ :=
  { d with written := text.reverseAux d.written }

def overflow (d : Draft σ) : Draft σ :=
  { d.write placeholder.toList with overflows := d.overflows + 1 }

end Draft

abbrev Writer (σ : Type) := Draft σ → Option (Draft σ)

namespace Writer

variable {σ : Type}

def times (write : Writer σ) : Nat → Writer σ
  | 0, d => some d
  | n + 1, d =>
    match write d with
    | some d => times write n d
    | none => none

def inTurn (write : NodeId → Writer σ) : List NodeId → Writer σ
  | [], d => some d
  | id :: ids, d =>
    match write id d with
    | some d => inTurn write ids d
    | none => none

end Writer

namespace Graph

variable {σ : Type}

def drawCount (settings : EngineSettings) (chance : Chance σ) (bounds : Yield) (state : σ) :
    Nat × σ :=
  let max := max (bounds.max.getD settings.repetitionLimit) bounds.min
  if max = bounds.min then (max, state) else chance.count bounds.min max bounds.pow state

def writeOccurrence (g : Graph) (settings : EngineSettings) (chance : Chance σ) (depth : Nat)
    (once repeated : NodeId → Writer σ) : NodeKind → Writer σ
  | .terminal literal, d => some (d.write literal.toList)
  | .charClass set, d =>
    match chance.char set d.chance with
    | none => none
    | some (c, state) => some ({ d with chance := state }.write c.toList)
  | .reference _ none, d => some d
  | .reference _ (some target), d =>
    if !g.isFinite target && 2 * settings.depthLimit < depth then some d.overflow
    else once target d
  | .group children, d | .rule _ children, d => Writer.inTurn repeated children d
  | .choice options weights escapes, d =>
    let (item, state) :=
      chance.item (if settings.depthLimit < depth then escapes else weights) d.chance
    let d := { d with chance := state }
    match item.bind (options[·]?) with
    | some option => repeated option d
    | none => some d.overflow
  | .lookAhead _ _, d | .cut, d => some d

def writeRepeated (g : Graph) (settings : EngineSettings) (chance : Chance σ)
    (once : NodeId → Writer σ) (id : NodeId) : Writer σ := fun d =>
  let (count, state) := drawCount settings chance (g.node id).yield d.chance
  Writer.times (once id) count { d with chance := state }

def writeOnce (g : Graph) (settings : EngineSettings) (chance : Chance σ) :
    (fuel : Nat) → (depth : Nat) → NodeId → Writer σ
  | 0, _, _, _ => none
  | fuel + 1, depth, id, d =>
    let once := g.writeOnce settings chance fuel
    g.writeOccurrence settings chance depth (once depth)
      (g.writeRepeated settings chance (once (depth + 1))) (g.node id).kind d

def writeNode (g : Graph) (settings : EngineSettings) (chance : Chance σ) (fuel depth : Nat) :
    NodeId → Writer σ :=
  g.writeRepeated settings chance (g.writeOnce settings chance fuel (depth + 1))

/-- Fuel for a grammar's graph with its finite rules as they are. The depth stays below twice the
limit plus the number of nodes, and at each depth references lead through no node twice. -/
def enoughToWrite (g : Graph) (settings : EngineSettings) : Nat :=
  (2 * settings.depthLimit + g.size + 2) * (g.size + 2)

end Graph

/-- A generated text, and how often a placeholder was written. -/
structure Sample where
  text : String
  overflows : Nat
deriving DecidableEq

namespace Sample

def isComplete (s : Sample) : Bool := s.overflows = 0

end Sample

namespace Graph

variable {σ : Type}

def generate (g : Graph) (settings : EngineSettings) (chance : Chance σ) (fuel : Nat)
    (root : NodeId) (state : σ) : Option (Sample × σ) :=
  (g.writeNode settings chance fuel 0 root ⟨state, 0, []⟩).map fun d =>
    (⟨String.ofList d.written.reverse, d.overflows⟩, d.chance)

end Graph

namespace Grammar

variable {σ : Type}

def generate (g : Grammar) (chance : Chance σ) (rule : String) (state : σ) :
    Except GrammarError (Option (Sample × σ)) :=
  (g.root rule).map fun id =>
    g.graph.generate g.settings chance (g.graph.enoughToWrite g.settings) id state

end Grammar

end Ebnf
