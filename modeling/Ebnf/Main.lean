import Ebnf.CommandLine
import Std.Time.Zoned

/-! The tool as a program: real files, real randomness, and the time of the run. -/

namespace Ebnf

def FileFault.ofError : IO.Error → FileFault
  | .noFileOrDirectory .. => .notFound
  | .inappropriateType .. => .notDirectory
  | e => .other (toString e)

def realFiles : FileAccess IO where
  read path := do
    try
      match String.fromUTF8? (← IO.FS.readBinFile path) with
      | some text => return .ok text
      | none => return .error .invalidText
    catch e => return .error (.ofError e)
  write path text := do
    try
      IO.FS.writeFile path text
      return .ok ()
    catch e => return .error (.ofError e)

def twoDigits (n : Int) : String := if n < 10 then s!"0{n}" else s!"{n}"

def timeStamp : IO String := do
  let t ← Std.Time.PlainDateTime.now
  let date := s!"{twoDigits t.day.val}.{twoDigits t.month.val}"
  let time := s!"{twoDigits t.hour.val}:{twoDigits t.minute.val}:{twoDigits t.second.val}"
  return s!"[{date} {time}]"

def randomSeed : IO UInt64 := do
  let bytes ← IO.getRandomBytes 8
  return bytes.foldl (fun n b => n * 256 + b.toUInt64) 0

end Ebnf

def main (args : List String) : IO UInt32 := do
  let seed ← Ebnf.randomSeed
  let stamp ← Ebnf.timeStamp
  let chance := Ebnf.Chance.ofWords (Ebnf.Words.supplied #[] seed)
  let report ← Ebnf.runTool Ebnf.realFiles chance 0 stamp args
  for line in report.output do IO.println line
  for line in report.errors do IO.eprintln line
  return report.code.toNat.toUInt32
