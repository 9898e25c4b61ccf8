import Ebnf.Files.Path

/-! Files by their paths: what can go wrong with them, how a program gets at them, and a tree of
files that is a plain value. -/

namespace Ebnf

inductive FileFault where
  | notFound
  | notDirectory
  | isDirectory
  | nameTooLong
  | invalidName
  | invalidText
  | other (text : String)
deriving DecidableEq

def FileFault.message : FileFault → String
  | notFound => "No such file or directory (os error 2)"
  | notDirectory => "Not a directory (os error 20)"
  | isDirectory => "Is a directory (os error 21)"
  | nameTooLong => "File name too long (os error 36)"
  | invalidName => "file name contained an unexpected NUL byte"
  | invalidText => "stream did not contain valid UTF-8"
  | other text => text

structure FileAccess (m : Type → Type) where
  read : String → m (Except FileFault String)
  write : String → String → m (Except FileFault Unit)

/-- Files with their content, by the segments of their paths from the top. The directories are those
that hold a file. -/
structure FileTree where
  files : List (List String × ByteArray)

namespace FileTree

def ofList (files : List (String × ByteArray)) : FileTree :=
  ⟨files.map fun (path, content) => ((Path.segments path).filter (!Path.isIdle ·), content)⟩

inductive Place where
  | file (content : ByteArray)
  | directory
  | missing

def lookup (t : FileTree) (path : List String) : Place :=
  match t.files.find? (·.1 = path) with
  | some (_, content) => .file content
  | none =>
    if path.isEmpty || t.files.any (fun (p, _) => path.isPrefixOf p) then .directory else .missing

def follow (t : FileTree) : List String → List String → Except FileFault (List String)
  | here, [] => .ok here
  | here, s :: rest =>
    if Path.isIdle s then follow t here rest
    else if s = ".." then
      match here with
      | [] => .error (if rest.all Path.isIdle then .isDirectory else .notFound)
      | _ :: above => follow t above rest
    else if 255 < s.utf8ByteSize then .error .nameTooLong
    else
      match t.lookup (s :: here).reverse with
      | .directory => follow t (s :: here) rest
      | .file _ => if rest.isEmpty then .ok (s :: here) else .error .notDirectory
      | .missing => .error .notFound

def resolve (t : FileTree) (path : String) : Except FileFault (List String) :=
  if path.toList.contains '\x00' then .error .invalidName
  else if path = "" then .error .notFound
  else if Path.isAbsolute path then
    .error (if (Path.segments path).all Path.isIdle then .isDirectory else .notFound)
  else (t.follow [] (Path.segments path)).map List.reverse

def read (t : FileTree) (path : String) : Except FileFault String := do
  match t.lookup (← t.resolve path) with
  | .file content =>
    match String.fromUTF8? content with
    | some text => .ok text
    | none => .error .invalidText
  | .directory => .error .isDirectory
  | .missing => .error .notFound

/-- Replaces a file, or adds one to a directory that is there. A slash behind the name asks for a
directory. -/
def write (t : FileTree) (path text : String) : Except FileFault FileTree := do
  if path.toList.contains '\x00' then .error .invalidName
  else if path = "" ∨ Path.isAbsolute path then .error .notFound
  else
    let backwards := (Path.segments path).reverse
    let slashes := backwards.takeWhile (· = "")
    let named := backwards.drop slashes.length
    let directory ← (t.follow [] (named.drop 1).reverse).map List.reverse
    match t.lookup directory with
    | .directory =>
      let name := named.head?.getD ""
      if !slashes.isEmpty ∨ name = "." ∨ name = ".." then .error .isDirectory
      else if 255 < name.utf8ByteSize then .error .nameTooLong
      else
        let place := directory ++ [name]
        match t.lookup place with
        | .directory => .error .isDirectory
        | _ => .ok ⟨(place, text.toUTF8) :: t.files.filter (·.1 ≠ place)⟩
    | _ => .error .notDirectory

def access : FileAccess (StateM FileTree) where
  read path := do return (← get).read path
  write path text := do
    match (← get).write path text with
    | .ok t => set t; return .ok ()
    | .error fault => return .error fault

end FileTree

end Ebnf
