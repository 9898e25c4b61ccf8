import Ebnf.Toml.Number
import Ebnf.Toml.Text

/-! TOML texts as values. A text is read line by line, and the tables that its headers open are then
put together by their paths. -/

namespace Ebnf

/-- Members keep their order, and a name may occur twice. A table that dotted keys have opened can
take more of them. -/
inductive Toml where
  | string (s : String)
  | integer (i : Int)
  | float (x : Double)
  | bool (b : Bool)
  | date
  | array (elements : List Toml)
  | table (dotted : Bool) (members : List (String × Toml))

namespace Toml

def comment? (cs : List Char) : Option (List Char) :=
  match cs with
  | '#' :: rest =>
    match rest.dropWhile fun c => c = '\t' || 0x20 ≤ c.toNat with
    | '\n' :: rest => some rest
    | [] => some []
    | _ => none
  | _ => none

def lineEnd? (cs : List Char) : Option (List Char) :=
  match skipBlanks cs with
  | [] => some []
  | '\n' :: rest => some rest
  | '#' :: rest => comment? ('#' :: rest)
  | _ => none

def skipLines : (fuel : Nat) → List Char → List Char
  | 0, cs => cs
  | fuel + 1, cs =>
    match skipBlanks cs with
    | '\n' :: rest => skipLines fuel rest
    | '#' :: rest =>
      match comment? ('#' :: rest) with
      | some rest => skipLines fuel rest
      | none => '#' :: rest
    | cs => cs

def key? : List Char → Option (String × List Char)
  | '"' :: cs => quoted '"' cs
  | '\'' :: cs => quoted '\'' cs
  | cs => (word? cs).map fun (word, rest) => (String.ofList word, rest)
where
  quoted (quote : Char) (cs : List Char) : Option (String × List Char) :=
    match string? quote cs with
    | some (false, key, rest) => some (key, rest)
    | _ => none

def path? : (fuel : Nat) → List Char → Option (List String × List Char)
  | 0, _ => none
  | fuel + 1, cs => do
    let (key, cs) ← key? cs
    match skipBlanks cs with
    | '.' :: rest => (path? fuel (skipBlanks rest)).map fun (keys, rest) => (key :: keys, rest)
    | rest => some ([key], rest)

def isDate (word : List Char) : Bool :=
  word.any (fun c => c = 'T' || c = 't') ||
    ((word.drop 1).contains '-' &&
      !(word.zip (word.drop 1)).any fun (a, b) => (a = 'e' || a = 'E') && b = '-')

def marked? (mark : Char) : List Char → Option (List Char)
  | c :: rest => if c = mark then (word? rest).map Prod.snd else some (c :: rest)
  | [] => some []

/-- What follows a date whose first word has been read. A single blank and the hour may stand
between the day and the minutes. -/
def dateEnd? (cs : List Char) : Option (List Char) := do
  let cs := match cs with
    | ' ' :: rest =>
      match word? rest with
      | some (_, rest) => rest
      | none => ' ' :: rest
    | cs => cs
  match cs with
  | ':' :: rest => minutes? rest
  | cs => some cs
where
  minutes? (cs : List Char) : Option (List Char) := do
    let (_, cs) ← word? cs
    match cs with
    | ':' :: rest =>
      let (_, cs) ← word? rest
      marked? ':' (← marked? '+' (← marked? '.' cs))
    | _ => none

def isNamed (word : List Char) : Bool := word = ['i', 'n', 'f'] || word = ['n', 'a', 'n']

def scalar? (word rest : List Char) : Option (Toml × List Char) :=
  if isNamed word || word.head?.any fun c => c = '-' || c.isDigit then
    if isDate word || rest.head? = some ':' then (dateEnd? rest).map (date, ·)
    else number? word rest
  else none
where
  number? (word rest : List Char) : Option (Toml × List Char) :=
    let based := word.take 2 = ['0', 'x'] ∨ word.take 2 = ['0', 'o'] ∨ word.take 2 = ['0', 'b']
    if based then (integer? word).map fun i => (integer i, rest)
    else if word.any (fun c => c = 'e' || c = 'E') then
      (decimal? word none rest).map fun (x, rest) => (float x, rest)
    else
      match rest with
      | '.' :: after => do
        let (fraction, rest) ← word? after
        (decimal? word (some fraction) rest).map fun (x, rest) => (float x, rest)
      | rest =>
        match String.ofList word with
        | "inf" => some (float (.infinite false), rest)
        | "-inf" => some (float (.infinite true), rest)
        | "nan" => some (float (.undefined false), rest)
        | "-nan" => some (float (.undefined true), rest)
        | _ => (integer? word).map fun i => (integer i, rest)

def addUnder (value : Toml) : List String → List (String × Toml) → Option (List (String × Toml))
  | [], _ => none
  | [key], members => some (members ++ [(key, value)])
  | key :: keys, members =>
    match members.find? (·.1 = key) with
    | none => (addUnder value keys []).map fun inner => members ++ [(key, table true inner)]
    | some (_, table true inner) =>
      (addUnder value keys inner).map fun inner => replace key (table true inner) members
    | some _ => none
where
  replace (key : String) (t : Toml) : List (String × Toml) → List (String × Toml)
    | [] => []
    | (k, v) :: rest => if k = key then (k, t) :: rest else (k, v) :: replace key t rest

def equals? (cs : List Char) : Option (List Char) :=
  match skipBlanks cs with
  | '=' :: rest => some (skipBlanks rest)
  | _ => none

mutual

def value? : (fuel : Nat) → List Char → Option (Toml × List Char)
  | 0, _ => none
  | fuel + 1, cs =>
    match cs with
    | '"' :: rest => (string? '"' rest).map fun (_, s, rest) => (string s, rest)
    | '\'' :: rest => (string? '\'' rest).map fun (_, s, rest) => (string s, rest)
    | '[' :: rest => (elements? fuel (skipLines fuel rest)).map fun (es, rest) => (array es, rest)
    | '\x7b' :: rest =>
      match skipBlanks rest with
      | '\x7d' :: rest => some (table false [], rest)
      | rest => (members? fuel [] rest).map fun (ms, rest) => (table false ms, rest)
    | '+' :: rest => do
      let (word, rest) ← word? rest
      scalar?.number? word rest
    | cs => do
      let (word, rest) ← word? cs
      match String.ofList word with
      | "true" => some (bool true, rest)
      | "false" => some (bool false, rest)
      | _ => scalar? word rest

def elements? : (fuel : Nat) → List Char → Option (List Toml × List Char)
  | 0, _ => none
  | fuel + 1, cs =>
    match cs with
    | ']' :: rest => some ([], rest)
    | cs => do
      let (e, cs) ← value? fuel cs
      match skipLines fuel cs with
      | ',' :: rest =>
        (elements? fuel (skipLines fuel rest)).map fun (es, rest) => (e :: es, rest)
      | ']' :: rest => some ([e], rest)
      | _ => none

def members? : (fuel : Nat) → List (String × Toml) → List Char →
    Option (List (String × Toml) × List Char)
  | 0, _, _ => none
  | fuel + 1, before, cs => do
    let (path, cs) ← path? fuel cs
    let (v, cs) ← value? fuel (← equals? cs)
    let members ← addUnder v path before
    match skipBlanks cs with
    | '\x7d' :: rest => some (members, rest)
    | ',' :: rest => members? fuel members (skipBlanks rest)
    | _ => none

end

/-- A header with the members below it; a header in double brackets opens an element of an array. -/
structure Section where
  path : List String
  isElement : Bool
  members : List (String × Toml)

def header? (fuel : Nat) (cs : List Char) : Option (Section × List Char) := do
  let (isElement, cs) := match cs with
    | '[' :: rest => (true, rest)
    | cs => (false, cs)
  let (path, cs) ← path? fuel (skipBlanks cs)
  let cs ← match isElement, cs with
    | false, ']' :: rest => some rest
    | true, ']' :: ']' :: rest => some rest
    | _, _ => none
  return (⟨path, isElement, []⟩, ← lineEnd? cs)

def sections? : (fuel : Nat) → Section → List Char → Option (List Section)
  | 0, _, _ => none
  | fuel + 1, s, cs =>
    match skipLines fuel cs with
    | [] => some [s]
    | '[' :: rest => do
      let (next, rest) ← header? fuel rest
      (sections? fuel next rest).map (s :: ·)
    | cs => do
      let (path, cs) ← path? fuel cs
      let (v, cs) ← value? fuel (← equals? cs)
      let members ← addUnder v path s.members
      sections? fuel { s with members } (← lineEnd? cs)

def Section.isWithin (path : List String) (s : Section) : Bool := path.isPrefixOf s.path

def Section.splitElement (path : List String) (ss : List Section) : List Section × List Section :=
  (ss.takeWhile fun s => !(s.isElement && s.path = path),
    ss.dropWhile fun s => !(s.isElement && s.path = path))

mutual

/-- The members of the table at a path, from the sections there and below, in order. A table may be
opened once, and not as an element too. -/
def tableAt? : (fuel : Nat) → (path : List String) → List Section → Option (List (String × Toml))
  | 0, _, _ => none
  | _ + 1, _, [] => some []
  | fuel + 1, path, s :: rest =>
    if s.path = path then
      if s.isElement ∨ rest.any (·.path = path) then none
      else (tableAt? fuel path rest).map (s.members ++ ·)
    else do
      let below := s.path.take (path.length + 1)
      let key := below.getLast?.getD ""
      let inside := s :: rest.filter (·.isWithin below)
      let v ← if s.isElement ∧ s.path = below then (elementsAt? fuel below inside).map array
        else (tableAt? fuel below inside).map (table false)
      (tableAt? fuel path (rest.filter fun t => !t.isWithin below)).map ((key, v) :: ·)

def elementsAt? : (fuel : Nat) → (path : List String) → List Section → Option (List Toml)
  | 0, _, _ => none
  | _ + 1, _, [] => some []
  | fuel + 1, path, s :: rest =>
    let (own, others) := Section.splitElement path rest
    if own.any (·.path = path) then none
    else do
      let inner ← tableAt? fuel path own
      (elementsAt? fuel path others).map (table false (s.members ++ inner) :: ·)

end

def foldBreaks : List Char → List Char
  | '\r' :: '\n' :: rest => '\n' :: foldBreaks rest
  | c :: rest => c :: foldBreaks rest
  | [] => []

def read? (text : String) : Option (List (String × Toml)) := do
  let cs := match foldBreaks text.toList with
    | '\ufeff' :: rest => rest
    | cs => cs
  let sections ← sections? (2 * cs.length + 2) ⟨[], false, []⟩ cs
  tableAt? (2 * cs.length + sections.length + 2) [] sections

end Toml

end Ebnf
