/-! Strings as TOML spells them: basic ones in double quotes, with escapes, and literal ones in
single quotes, each on one line or, in three quotes, on several. -/

namespace Ebnf.Toml

def isBlank (c : Char) : Bool := c = ' ' || c = '\t'

def skipBlanks (cs : List Char) : List Char := cs.dropWhile isBlank

def isPlain (c : Char) : Bool := c = '\t' || (0x20 ≤ c.toNat && c.toNat ≠ 0x7F)

def isHexDigit (c : Char) : Bool :=
  c.isDigit || ('a' ≤ c && c ≤ 'f') || ('A' ≤ c && c ≤ 'F')

def hexValue (cs : List Char) : Nat :=
  cs.foldl (fun n c => n * 16 +
    (if c.isDigit then c.toNat - 48 else if 'a' ≤ c then c.toNat - 87 else c.toNat - 55)) 0

def coded? (size : Nat) (cs : List Char) : Option (Char × List Char) :=
  let run := cs.take size
  let code := hexValue run
  if run.length = size ∧ run.all isHexDigit ∧ code.isValidChar then
    some (Char.ofNat code, cs.drop size)
  else none

def escape? (multi : Bool) : List Char → Option (List Char × List Char)
  | '"' :: cs => some (['"'], cs)
  | '\\' :: cs => some (['\\'], cs)
  | 'b' :: cs => some (['\x08'], cs)
  | 'f' :: cs => some (['\x0c'], cs)
  | 'n' :: cs => some (['\n'], cs)
  | 'r' :: cs => some (['\r'], cs)
  | 't' :: cs => some (['\t'], cs)
  | 'u' :: cs => (coded? 4 cs).map fun (c, cs) => ([c], cs)
  | 'U' :: cs => (coded? 8 cs).map fun (c, cs) => ([c], cs)
  | cs =>
    if multi && cs.head?.any (fun c => isBlank c || c = '\n') then
      match skipBlanks cs with
      | '\n' :: cs => some ([], cs.dropWhile fun c => isBlank c || c = '\n')
      | [] => some ([], [])
      | _ => none
    else none

/-- The content up to the closing quote or quotes. Inside three quotes one or two of them may stand
in the text, also right before the closing three. -/
def content? (quote : Char) (multi : Bool) :
    (fuel : Nat) → List Char → Option (List Char × List Char)
  | 0, _ => none
  | _ + 1, [] => none
  | fuel + 1, c :: cs =>
    if c = quote then
      if multi then
        let run := (c :: cs).takeWhile (· = quote)
        let rest := cs.drop (run.length - 1)
        if run.length < 3 then (content? quote multi fuel rest).map fun (t, r) => (run ++ t, r)
        else
          let inside := min (run.length - 3) 2
          some (List.replicate inside quote, (c :: cs).drop (3 + inside))
      else some ([], cs)
    else if c = '\n' then
      if multi then (content? quote multi fuel cs).map fun (t, r) => ('\n' :: t, r) else none
    else if c = '\\' && quote = '"' then do
      let (e, cs) ← escape? multi cs
      (content? quote multi fuel cs).map fun (t, r) => (e ++ t, r)
    else if isPlain c then (content? quote multi fuel cs).map fun (t, r) => (c :: t, r)
    else none

/-- A string that starts with `quote`: whether it may span lines, its text, and what follows it. A
line break right behind three quotes is no part of the text. -/
def string? (quote : Char) (cs : List Char) : Option (Bool × String × List Char) :=
  let read (multi : Bool) (cs : List Char) :=
    (content? quote multi (cs.length + 1) cs).map fun (t, r) => (multi, String.ofList t, r)
  match cs with
  | a :: b :: rest =>
    if a = quote ∧ b = quote then
      match rest with
      | '\n' :: rest => read true rest
      | rest => read true rest
    else if a = quote then some (false, "", b :: rest)
    else read false cs
  | [a] => if a = quote then some (false, "", []) else read false cs
  | [] => none

end Ebnf.Toml
