/-! Paths as text: segments between slashes. Empty segments and single dots, except a leading one,
do not count. -/

namespace Ebnf.Path

def segments (path : String) : List String := path.splitOn "/"

def isAbsolute (path : String) : Bool := path.toList.head? = some '/'

def isIdle (segment : String) : Bool := segment = "" || segment = "."

def fileName? (path : String) : Option String :=
  match (segments path).reverse.dropWhile isIdle with
  | name :: _ => if name = ".." then none else some name
  | [] => none

/-- What stands behind the last dot of the file name, in lower case. A dot in front of the name
starts no extension. -/
def extension? (path : String) : Option String := do
  let name := (← fileName? path).toList.reverse
  let ending := name.takeWhile (· ≠ '.')
  match name.drop ending.length with
  | _ :: _ :: _ => some (String.ofList ending.reverse).toLower
  | _ => none

/-- Drops trailing segments that do not count, from a list that starts with the last one. -/
def trim : List String → List String
  | [] => []
  | [first] => [first]
  | s :: rest => if isIdle s then trim rest else s :: rest

def directory (path : String) : String :=
  match trim ((trim (segments path).reverse).drop 1) with
  | [""] => "/"
  | kept => "/".intercalate kept.reverse

def within (directory path : String) : String :=
  if isAbsolute path || directory = "" then path
  else if directory.toList.getLast? = some '/' then directory ++ path
  else directory ++ "/" ++ path

end Ebnf.Path
