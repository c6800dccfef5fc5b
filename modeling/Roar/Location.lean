import Roar.Bytes

/-!
# Places in a source

A `Location` names a file, a line and a column, each counted from one; zero means "not known". Lines
and columns are words of 32 bits: the one after the last is zero. Reading a byte moves a location
(`Location.step`), and `Location.after` moves it over a text.
-/

namespace Roar

/-- A place in a source file. -/
structure Location where
  file : Nat := 0
  line : UInt32 := 0
  column : UInt32 := 0
deriving DecidableEq, Repr, Inhabited

namespace Location

/-- The place of the first byte of a file. -/
def start (file : Nat) : Location := ⟨file, 1, 1⟩

/-- A location says something when it has a line. -/
def isKnown (l : Location) : Bool := l.line != 0

def hasFile (l : Location) : Bool := l.file != 0

def hasLine (l : Location) : Bool := l.line != 0

def hasColumn (l : Location) : Bool := l.column != 0

/-- The place after one byte: a line feed begins the next line. -/
def step (l : Location) (c : UInt8) : Location :=
  if c == byte '\n' then { l with line := l.line + 1, column := 1 }
  else { l with column := l.column + 1 }

/-- The place after a text. -/
def after (l : Location) (text : Bytes) : Location := text.foldl step l

/-- Line and column, as an outline of a program shows them. -/
def text (l : Location) : Bytes := decimal l.line.toNat ++ [byte ':'] ++ decimal l.column.toNat

/-- Earlier in the same file: by line, then by column. -/
def before (a b : Location) : Bool :=
  decide (a.line < b.line) || (a.line == b.line && decide (a.column < b.column))

end Location

end Roar
