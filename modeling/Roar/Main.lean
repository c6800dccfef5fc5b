import Roar.CommandLine.Run

/-!
# The program

`lionc` compiles one LionCode file to JavaScript. All it decides is in `Roar.CommandLine`; here
files are read and written and texts are printed.
-/

open Roar Roar.CommandLine

namespace Roar.Main

def toBytes (s : String) : Bytes := s.toUTF8.toList

def ofBytes (b : Bytes) : ByteArray := ⟨b.toArray⟩

/-- The size of a file that can be opened. -/
def sizeOf? (path : String) : IO (Option Nat) := do
  try
    let info ← ((← IO.currentDir) / path).metadata
    let _ ← IO.FS.Handle.mk path .read
    return some info.byteSize.toNat
  catch _ => return none

/-- Write a file, and say whether it could be opened. -/
def write (path : String) (text : Bytes) : IO Bool := do
  try
    let file ← IO.FS.Handle.mk path .write
    file.write (ofBytes text)
    return true
  catch _ => return false

/-- Print what a run prints, and give its exit status. -/
def report (o : Outcome) : IO UInt32 := do
  (← IO.getStderr).write (ofBytes o.stderr)
  (← IO.getStdout).write (ofBytes o.stdout)
  return o.status.toUInt32

/-- The text that some bytes encode, for a path. -/
def pathText (path : Bytes) : String := (String.fromUTF8? (ofBytes path)).getD ""

/-- End a compilation, writing what it wants written. -/
def settle (d : Delivery) : IO UInt32 := do
  match d with
  | .done outcome => report outcome
  | .write path text _ => report (d.finish (← write (pathText path) text))

def run (args : List String) : IO UInt32 := do
  match plan (args.map toBytes) with
  | .answer outcome => report outcome
  | .compile c =>
    let source := pathText c.source
    match ← sizeOf? source with
    | none => report c.unopened
    | some size =>
      match c.refuse? size with
      | some outcome => report outcome
      | none => settle (c.deliver (← IO.FS.readBinFile source).toList)

end Roar.Main

def main (args : List String) : IO UInt32 := Roar.Main.run args
