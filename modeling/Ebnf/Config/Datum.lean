import Ebnf.Json
import Ebnf.Toml

/-! Configuration data in one form, whatever format it was written in. What a format leaves without
meaning stays unreadable, and is an error only where it is asked for. -/

namespace Ebnf

inductive Datum where
  | null
  | bool (b : Bool)
  | int (i : Int)
  | float (x : Double)
  | text (s : String)
  | date
  | list (elements : List Datum)
  | record (members : List (Option String × Datum))
  | unreadable

namespace Datum

mutual

def ofJson : Json → Datum
  | .null => null
  | .bool b => bool b
  | .number n =>
    match n.toInt?, n.toFloat? with
    | some i, _ => int i
    | none, some x => float (.ofFloat x)
    | none, none => unreadable
  | .string (some s) => text s
  | .string none => unreadable
  | .array es => list (ofElements es)
  | .object ms => record (ofMembers ms)

def ofElements : List Json → List Datum
  | [] => []
  | e :: es => ofJson e :: ofElements es

def ofMembers : List (Option String × Json) → List (Option String × Datum)
  | [] => []
  | (k, v) :: ms => (k, ofJson v) :: ofMembers ms

end

mutual

def ofToml : Toml → Datum
  | .string s => text s
  | .integer i => int i
  | .float x => float x
  | .bool b => bool b
  | .date => date
  | .array es => list (ofTomlElements es)
  | .table _ ms => record (ofTomlMembers ms)

def ofTomlElements : List Toml → List Datum
  | [] => []
  | e :: es => ofToml e :: ofTomlElements es

def ofTomlMembers : List (String × Toml) → List (Option String × Datum)
  | [] => []
  | (k, v) :: ms => (some k, ofToml v) :: ofTomlMembers ms

end

/-- Whether everything in a datum has a meaning, down to a depth that it must not exceed. -/
def isReadable : (depth : Nat) → Datum → Bool
  | _, unreadable => false
  | 0, list _ | 0, record _ => false
  | depth + 1, list es => es.all (isReadable depth)
  | depth + 1, record ms => ms.all fun (k, v) => k.isSome && isReadable depth v
  | _, _ => true

end Datum

end Ebnf
