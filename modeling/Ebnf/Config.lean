import Ebnf.Config.Datum
import Ebnf.Files
import Ebnf.Settings

/-! Configuration files. A file in one of two formats, told by its extension, names a grammar and
may hold engine settings and generator settings; any other file is a grammar itself. -/

namespace Ebnf

structure ToolSettings where
  grammar : String
  engine : EngineSettings
  rules : Table RuleSettings

namespace ToolSettings

def ofGrammar (path : String) : ToolSettings := ⟨path, .standard, .empty⟩

end ToolSettings

/-- The data formats, and what sets them apart for their readers. -/
inductive Format where
  | toml
  | json
deriving DecidableEq

namespace Format

def name : Format → String
  | toml => "TOML"
  | json => "JSON"

def nesting : Format → Nat
  | toml => 65536
  | json => 125

end Format

namespace Datum

def member? (members : List (String × Datum)) (key : String) : Option (Option Datum) :=
  match members.filter (·.1 = key) with
  | [] => some none
  | [(_, v)] => some (some v)
  | _ => none

def members? : Datum → Option (List (String × Datum))
  | record ms => ms.mapM fun (k, v) => k.map (·, v)
  | _ => none

def toNat? : Datum → Option Nat
  | int i => if 0 ≤ i ∧ i < UInt64.size then some i.toNat else none
  | _ => none

def toInt? : Datum → Option Int
  | int i => if Int64.minValue.toInt ≤ i ∧ i ≤ Int64.maxValue.toInt then some i else none
  | _ => none

def toDouble? : Datum → Option Double
  | int i =>
    let x := i.natAbs.toUInt64.toFloat
    some (.ofFloat (if i < 0 then -x else x))
  | float x => some x
  | _ => none

def toBool? : Datum → Option Bool
  | bool b => some b
  | _ => none

def toText? : Datum → Option String
  | text s => some s
  | _ => none

def optional {α : Type} (read : Datum → Option α) : Option Datum → Option (Option α)
  | none | some null => some none
  | some d => (read d).map some

def withDefault {α : Type} (default : α) (read : Datum → Option α) : Option Datum → Option α
  | none => some default
  | some d => read d

def toWeights? : Datum → Option (List Double)
  | list es => es.mapM toDouble?
  | _ => none

def toNodeSettings? (d : Datum) : Option NodeSettings :=
  match d with
  | list es => if es.length ≤ 4 then build es[0]? es[1]? es[2]? es[3]? else none
  | d => do
    let ms ← members? d
    guard (ms.all fun (k, _) => ["min", "max", "pow", "dist"].contains k)
    build (← member? ms "min") (← member? ms "max") (← member? ms "pow") (← member? ms "dist")
where
  build (min max pow weights : Option Datum) : Option NodeSettings := do
    return ⟨← optional toNat? min, ← optional toInt? max, ← optional toDouble? pow,
      ← optional toWeights? weights⟩

/-- A table with entries of one kind. All of them must be readable, and of those with one name the
last one counts. -/
def toTable? {α : Type} (read : Datum → Option α) (d : Datum) : Option (Table α) := do
  let entries ← (← members? d).mapM fun (k, v) => (read v).map (k, ·)
  return .ofList entries

def toEngineSettings? (ms : List (String × Datum)) : Option EngineSettings := do
  let d := EngineSettings.standard
  return ⟨← withDefault d.repetitionLimit toNat? (← member? ms "maxGenRepetition"),
    ← withDefault d.depthLimit toNat? (← member? ms "maxGenDepth"),
    ← withDefault d.traceMatches toBool? (← member? ms "createMatchTrace")⟩

/-- Engine settings side by side with the settings of rules. A date counts as a record of nothing
that is known. -/
def toGeneratorSettings? (format : Format) (d : Datum) :
    Option (EngineSettings × Table RuleSettings) := do
  let ms ← match d with
    | date => some []
    | d => members? d
  let others := ms.filter (·.1 ≠ "rules")
  guard (others.all fun (_, v) => v.isReadable format.nesting)
  let rules ← withDefault .empty (toTable? (toTable? toNodeSettings?))
    (← member? ms "rules")
  return (← toEngineSettings? others, rules)

def toToolSettings? (format : Format) (d : Datum) : Option ToolSettings :=
  match d with
  | list [grammar] => build (some grammar) none
  | list [grammar, generator] => build (some grammar) (some generator)
  | list _ => none
  | d => do
    let ms ← members? d
    build (← member? ms "grammar") (← member? ms "generator")
where
  build (grammar generator : Option Datum) : Option ToolSettings := do
    let grammar ← toText? (← grammar)
    let (engine, rules) ← withDefault (.standard, .empty) (toGeneratorSettings? format) generator
    return ⟨grammar, engine, rules⟩

end Datum

namespace Format

def ofExtension : Option String → Option Format
  | some "toml" => some toml
  | some "json" => some json
  | _ => none

def read? (format : Format) (text : String) : Option ToolSettings := do
  let d ← match format with
    | json => (Json.read? text).map Datum.ofJson
    | toml => (Toml.read? text).map fun ms => Datum.ofToml (.table false ms)
  d.toToolSettings? format

end Format

inductive ConfigReadFault where
  | file (path : String) (fault : FileFault)
  | invalid (format : Format)
deriving DecidableEq

def ConfigReadFault.message : ConfigReadFault → String
  | file path fault => s!"failed to read {path}: {fault.message}"
  | invalid format => s!"invalid {format.name} config: these are no settings of the tool"

/-- The settings that a path stands for. A grammar named in a file is seen from its directory. -/
def ToolSettings.load {m : Type → Type} [Monad m] (files : FileAccess m) (path : String) :
    m (Except ConfigReadFault ToolSettings) :=
  match Format.ofExtension (Path.extension? path) with
  | none => pure (.ok (.ofGrammar path))
  | some format => do
    match ← files.read path with
    | .error fault => return .error (.file path fault)
    | .ok text =>
      match format.read? text with
      | none => return .error (.invalid format)
      | some s => return .ok { s with grammar := Path.within (Path.directory path) s.grammar }

end Ebnf
