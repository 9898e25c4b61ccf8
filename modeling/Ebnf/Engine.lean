import Ebnf.Generation
import Ebnf.Grammar.Configure
import Ebnf.Matching

/-! A grammar in use, with a log of what happened to it. -/

namespace Ebnf

inductive Event where
  | warned (w : Warning)
  | parsed (rules nodes : Nat)
  | depthLimitReached (limit placeholders : Nat)
  | configured (rule : String) (labels : List String)

namespace Event

def message : Event → String
  | warned w => w.render
  | parsed rules nodes => s!"parsed grammar with {rules} rule(s) and {nodes} node(s)"
  | depthLimitReached limit placeholders =>
    s!"generation reached depth limit {limit} and emitted {placeholders} placeholder(s)"
  | configured rule labels =>
    let labels := ", ".intercalate labels
    s!"applied generator config to rule `{rule}`: {labels}"

end Event

structure Engine where
  grammar : Grammar
  log : Recent Event

namespace Engine

/-- How many events are kept. -/
def logCapacity : Nat := 256

def parse (source : String) (settings : EngineSettings) : Except GrammarError Engine := do
  let grammar ← Grammar.parse source settings
  let events := grammar.warnings.map Event.warned ++
    [.parsed grammar.rules.length grammar.graph.size]
  return ⟨grammar, (Recent.empty logCapacity).append events⟩

def setSettings (e : Engine) (settings : EngineSettings) : Engine :=
  { e with grammar := { e.grammar with settings } }

def matchRule (e : Engine) (rule text : String) : Except GrammarError (Option Outcome) :=
  e.grammar.matchRule rule text

def noteOverflow (e : Engine) (sample : Sample) : Engine :=
  let event := Event.depthLimitReached e.grammar.settings.depthLimit sample.overflows
  { e with log := e.log.push event }

/-- Generates a text; a text that is not complete is logged. -/
def generate {σ : Type} (e : Engine) (chance : Chance σ) (rule : String) (state : σ) :
    Except GrammarError (Option (Sample × σ × Engine)) :=
  (e.grammar.generate chance rule state).map fun result => result.map fun (sample, state) =>
    (sample, state, if sample.isComplete then e else e.noteOverflow sample)

/-- Applies generator settings to a rule; only a success is logged. -/
def configure (e : Engine) (rule : String) (settings : RuleSettings) :
    Except GrammarError Engine :=
  (e.grammar.configure rule settings).map fun grammar =>
    ⟨grammar, e.log.push (.configured rule settings.keys)⟩

end Engine

namespace Grammar

def renderPosition (p : Position) : String :=
  s!"Position \x7b index: {p.index}, line: {p.line}, column: {p.column} \x7d"

def renderWarning (w : Warning) : String :=
  s!"Warning \x7b position: {renderPosition w.position}, message: \"{w.message}\" \x7d"

def renderSettings (s : EngineSettings) : String :=
  s!"EngineConfig \x7b max_gen_repetition: {s.repetitionLimit}, max_gen_depth: {s.depthLimit}, " ++
    s!"create_match_trace: {s.traceMatches} \x7d"

def renderList (items : List String) : String := "[" ++ ", ".intercalate items ++ "]"

def summary (g : Grammar) : String :=
  let rules := renderList (g.ruleNames.map fun name => s!"\"{name}\"")
  let warnings := renderList (g.warnings.map renderWarning)
  s!"Grammar \x7b rules: {rules}, nodes: {g.graph.size}, config: {renderSettings g.settings}, " ++
    s!"warnings: {warnings} \x7d"

end Grammar

end Ebnf
