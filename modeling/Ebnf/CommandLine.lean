import Ebnf.CommandLine.Arguments
import Ebnf.Config
import Ebnf.Engine
import Ebnf.Text.WhiteSpace

/-! The command line: checking whether a file matches a rule, and generating random text. -/

namespace Ebnf

inductive Trimming where
  | keep
  | collapse
  | remove
deriving DecidableEq

namespace Trimming

def apply (t : Trimming) (text : String) : String :=
  match t with
  | keep => text
  | collapse => " ".intercalate ((words text.toList).map String.ofList)
  | remove => String.ofList (words text.toList).flatten

end Trimming

inductive Command where
  | matchFile (rule file : String) (trimming : Trimming) (trace : Bool)
  | generate (rule : String) (output : Option String) (count : Nat)

structure Invocation where
  config : String
  verbose : Bool
  command : Command

namespace Invocation

def standardConfig : String := "ebnfgen.toml"

def path? (s : String) : Option String := if s = "" then none else some s

def count? (s : String) : Option Nat :=
  let digits := match s.toList with
    | '+' :: cs => cs
    | cs => cs
  if digits.isEmpty ∨ !digits.all Char.isDigit then none
  else
    let n := Counted.value digits
    if n < Counted.limit then some n else none

def matchOptions : List OptionSpec :=
  [⟨none, "trim", false⟩, ⟨none, "trim-all", false⟩, ⟨none, "trace", false⟩]

def generateOptions : List OptionSpec := [⟨some 'o', "output", true⟩, ⟨some 'n', "count", true⟩]

def globalOptions : List OptionSpec := [⟨some 'c', "config", true⟩, ⟨some 'v', "verbose", false⟩]

def trimming? (a : Arguments) : Option Trimming :=
  match a.has "trim", a.has "trim-all" with
  | false, false => some .keep
  | true, false => some .collapse
  | false, true => some .remove
  | true, true => none

def matchCommand? (args : List String) : Option Command := do
  let a ← Arguments.all? matchOptions (args.length + 1) .empty args
  match a.others with
  | [rule, file] => return .matchFile rule (← path? file) (← trimming? a) (a.has "trace")
  | _ => none

def generateCommand? (args : List String) : Option Command := do
  let a ← Arguments.all? generateOptions (args.length + 1) .empty args
  let output ← match a.value? "output" with
    | some path => (path? path).map some
    | none => some none
  let count ← match a.value? "count" with
    | some n => count? n
    | none => some 1
  match a.others with
  | [rule] => return .generate rule output count
  | _ => none

def parse? (args : List String) : Option Invocation := do
  let (a, rest) ← Arguments.leading? globalOptions (args.length + 1) .empty args
  let config ← match a.value? "config" with
    | some path => path? path
    | none => some standardConfig
  let command ← match rest with
    | "match" :: rest => matchCommand? rest
    | "generate" :: rest => generateCommand? rest
    | _ => none
  return ⟨config, a.has "verbose", command⟩

end Invocation

inductive ExitCode where
  | ok
  | usage
  | mismatch
  | inputOutput
  | config
  | unending
deriving DecidableEq

def ExitCode.toNat : ExitCode → Nat
  | ok => 0
  | usage => 2
  | mismatch => 65
  | unending => 70
  | inputOutput => 74
  | config => 78

structure Report where
  code : ExitCode
  output : List String
  errors : List String

namespace Report

def failed (code : ExitCode) (errors : List String) : Report := ⟨code, [], errors⟩

/-- A report after lines that were printed before it. -/
def after (errors : List String) (r : Report) : Report := { r with errors := errors ++ r.errors }

end Report

namespace Engine

/-- Applies the settings of all rules, and reports every rule at fault. -/
def applyAll (e : Engine) (rules : List (String × RuleSettings)) : Engine × List GrammarError :=
  rules.foldl (fun (e, faults) (rule, settings) =>
    match e.configure rule settings with
    | .ok e => (e, faults)
    | .error fault => (e, faults ++ [fault])) (e, [])

def reportMatch (e : Engine) (rule text : String) : Report :=
  match e.matchRule rule text with
  | .error fault => .failed .config [fault.message]
  | .ok none => .failed .unending [s!"matching rule `{rule}` does not end"]
  | .ok (some o) =>
    let trace := o.trace.map e.grammar.graph.renderTrace
    match o.failure with
    | none => ⟨.ok, [s!"input matches rule `{rule}`"], trace⟩
    | some f => ⟨.mismatch, [e.grammar.graph.renderFailure f], trace⟩

inductive SampleFault where
  | grammar (e : GrammarError)
  | unending

def samples {σ : Type} (chance : Chance σ) (rule : String) :
    Nat → Engine → σ → Except SampleFault (List String × Engine)
  | 0, e, _ => .ok ([], e)
  | n + 1, e, state =>
    match e.generate chance rule state with
    | .error fault => .error (.grammar fault)
    | .ok none => .error .unending
    | .ok (some (sample, state, e)) =>
      (samples chance rule n e state).map fun (rest, e) => (sample.text :: rest, e)

end Engine

namespace Command

variable {m : Type → Type} [Monad m] {σ : Type}

/-- Runs a command on a configured engine; answers with the engine after it, or without one if the
run ends here. -/
def run (files : FileAccess m) (chance : Chance σ) (state : σ) (e : Engine) :
    Command → m (Report × Option Engine)
  | matchFile rule file trimming trace => do
    match ← files.read file with
    | .error fault =>
      return (.failed .inputOutput [s!"error reading input file {file}: {fault.message}"], none)
    | .ok text =>
      let settings := e.grammar.settings
      let e := e.setSettings { settings with traceMatches := settings.traceMatches || trace }
      return (e.reportMatch rule (trimming.apply text), some e)
  | generate rule output count => do
    match Engine.samples chance rule count e state with
    | .error (.grammar fault) => return (.failed .config [fault.message], some e)
    | .error .unending =>
      return (.failed .unending [s!"generating rule `{rule}` does not end"], some e)
    | .ok (texts, e) =>
      let text := "\n".intercalate texts
      match output with
      | none => return (⟨.ok, [text], []⟩, some e)
      | some path =>
        match ← files.write path text with
        | .ok _ => return (⟨.ok, [], []⟩, some e)
        | .error fault =>
          return (.failed .inputOutput [s!"failed to write {path}: {fault.message}"], some e)

end Command

namespace Invocation

variable {m : Type → Type} [Monad m] {σ : Type}

/-- Runs a command with the settings and the grammar it needs. The stamp stands before each line of
the engine's log, which is shown at the end if asked for. -/
def run (files : FileAccess m) (chance : Chance σ) (state : σ) (stamp : String) (i : Invocation) :
    m Report := do
  match ← ToolSettings.load files i.config with
  | .error (.file path fault) =>
    return .failed .inputOutput [ConfigReadFault.message (.file path fault)]
  | .error fault => return .failed .config [fault.message]
  | .ok settings =>
    match ← files.read settings.grammar with
    | .error fault =>
      return .failed .inputOutput
        [s!"error reading grammar file {settings.grammar}: {fault.message}"]
    | .ok source =>
      match Engine.parse source settings.engine with
      | .error fault => return .failed .config ["errors while parsing grammar", fault.message]
      | .ok e =>
        let warnings := e.grammar.warnings.map Warning.render
        let (e, faults) := e.applyAll settings.rules.entries
        if !faults.isEmpty then
          return .after warnings (.failed .config
            ("errors in generator config" :: faults.map GrammarError.message))
        let (report, e) ← i.command.run files chance state e
        let log := match e with
          | some e => if i.verbose then e.log.toList else []
          | none => []
        return .after warnings
          { report with errors := report.errors ++ log.map fun ev => s!"{stamp} {ev.message}" }

end Invocation

def runTool {m : Type → Type} [Monad m] {σ : Type} (files : FileAccess m) (chance : Chance σ)
    (state : σ) (stamp : String) (args : List String) : m Report :=
  match Invocation.parse? args with
  | none => pure (.failed .usage [])
  | some i => i.run files chance state stamp

end Ebnf
