/-! Command line arguments. Options have a short and a long form and may be given once; short ones
may be joined. Whatever does not fit the forms is refused, without saying why. -/

namespace Ebnf

structure OptionSpec where
  short : Option Char
  long : String
  takesValue : Bool

/-- Options that were given, by their long names, and the other arguments in order. -/
structure Arguments where
  options : List (String × String)
  others : List String

namespace Arguments

def empty : Arguments := ⟨[], []⟩

def has (a : Arguments) (long : String) : Bool := a.options.any (·.1 = long)

def value? (a : Arguments) (long : String) : Option String := a.options.lookup long

def give (a : Arguments) (spec : OptionSpec) (value : String) : Option Arguments :=
  if a.has spec.long then none else some { a with options := (spec.long, value) :: a.options }

def isOption (arg : String) : Bool := arg.toList.head? = some '-' && arg ≠ "-"

def splitLong (cs : List Char) : String × Option String :=
  let name := cs.takeWhile (· ≠ '=')
  match cs.drop name.length with
  | _ :: value => (String.ofList name, some (String.ofList value))
  | [] => (String.ofList name, none)

/-- What joined short options leave to do: nothing, or to give a value to the last one. -/
inductive Joined where
  | complete (a : Arguments)
  | wanting (a : Arguments) (spec : OptionSpec)

/-- Joined short options. The rest of the argument is the value of one that takes a value. -/
def joined? (specs : List OptionSpec) : Arguments → List Char → Option Joined
  | a, [] => some (.complete a)
  | a, c :: cs => do
    let spec ← specs.find? (·.short = some c)
    if spec.takesValue then
      match cs with
      | [] => some (.wanting a spec)
      | '=' :: value => (a.give spec (String.ofList value)).map .complete
      | value => (a.give spec (String.ofList value)).map .complete
    else joined? specs (← a.give spec "") cs

def giveNext (a : Arguments) (spec : OptionSpec) : List String → Option (Arguments × List String)
  | value :: rest => if isOption value then none else (a.give spec value).map (·, rest)
  | [] => none

def takeOption (specs : List OptionSpec) (a : Arguments) (arg : String) (rest : List String) :
    Option (Arguments × List String) :=
  match arg.toList with
  | '-' :: '-' :: cs => do
    let (name, value) := splitLong cs
    let spec ← specs.find? (·.long = name)
    match spec.takesValue, value with
    | true, some value => (a.give spec value).map (·, rest)
    | true, none => a.giveNext spec rest
    | false, none => (a.give spec "").map (·, rest)
    | false, some _ => none
  | _ :: cs => do
    match ← joined? specs a cs with
    | .complete a => some (a, rest)
    | .wanting a spec => a.giveNext spec rest
  | [] => none

def leading? (specs : List OptionSpec) : (fuel : Nat) → Arguments → List String →
    Option (Arguments × List String)
  | 0, _, _ => none
  | _ + 1, a, [] => some (a, [])
  | fuel + 1, a, arg :: rest =>
    if isOption arg then do
      let (a, rest) ← takeOption specs a arg rest
      leading? specs fuel a rest
    else some (a, arg :: rest)

def all? (specs : List OptionSpec) : (fuel : Nat) → Arguments → List String → Option Arguments
  | 0, _, _ => none
  | _ + 1, a, [] => some a
  | fuel + 1, a, arg :: rest =>
    if arg = "--" then some { a with others := a.others ++ rest }
    else if isOption arg then do
      let (a, rest) ← takeOption specs a arg rest
      all? specs fuel a rest
    else all? specs fuel { a with others := a.others ++ [arg] } rest

end Arguments

end Ebnf
