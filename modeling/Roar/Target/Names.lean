import Roar.Bytes

/-!
# Names in the output

LionCode names become JavaScript names. Every declaration gets a name of its own, different from
the reserved words and from every name handed out before: the name itself where it is free, else
the name with a number, counted from two (`Names.fresh`). A use of a name means the latest
declaration of it in the innermost open scope that has one (`Names.resolve?`).
-/

namespace Roar

/-- The words that the output cannot use as names. -/
def reservedWords : List Bytes := [
  ascii "arguments", ascii "await", ascii "break", ascii "case", ascii "catch", ascii "class",
  ascii "console", ascii "const", ascii "continue", ascii "debugger", ascii "default",
  ascii "delete", ascii "do", ascii "else", ascii "enum", ascii "eval", ascii "export",
  ascii "extends", ascii "false", ascii "finally", ascii "for", ascii "function", ascii "if",
  ascii "implements", ascii "import", ascii "in", ascii "Infinity", ascii "instanceof",
  ascii "interface", ascii "let", ascii "Math", ascii "NaN", ascii "new", ascii "null",
  ascii "package", ascii "private", ascii "protected", ascii "public", ascii "return",
  ascii "static", ascii "super", ascii "switch", ascii "this", ascii "throw", ascii "true",
  ascii "try", ascii "typeof", ascii "undefined", ascii "var", ascii "void", ascii "while",
  ascii "with", ascii "yield"]

def isReserved (name : Bytes) : Bool := reservedWords.contains name

/-- The open scopes, the innermost first, each with the output names of its declarations, the latest
first; and the names that cannot be handed out any more. -/
structure Names where
  innermost : List (Bytes × Bytes) := []
  outer : List (List (Bytes × Bytes)) := []
  used : List Bytes := reservedWords
deriving DecidableEq, Repr

namespace Names

/-- A name with a number. -/
def numbered (name : Bytes) (k : Nat) : Bytes := name ++ ascii "_" ++ decimal k

/-- The first free name among `name_k`, `name_(k + 1)` and so on, of which `n` are looked at. The number
is a word of 32 bits: after the last one comes zero. -/
def firstFree? (used : List Bytes) (name : Bytes) : Nat → UInt32 → Option Bytes
  | 0, _ => none
  | n + 1, k =>
    if used.contains (numbered name k.toNat) then firstFree? used name n (k + 1)
    else some (numbered name k.toNat)

/-- The name with something behind it that makes it longer than all names in use. -/
def longer (used : List Bytes) (name : Bytes) : Bytes :=
  name ++ List.replicate (used.flatten.length + 1) (byte '_')

/-- The name itself if it is free, else the first free numbered one, from two on. A search among
numbers that are all taken would not end; the name is then made longer instead. -/
def fresh (used : List Bytes) (name : Bytes) : Bytes :=
  if used.contains name then (firstFree? used name UInt32.size 2).getD (longer used name) else name

/-- Declare a name in the innermost scope. -/
def declare (t : Names) (name : Bytes) : Bytes × Names :=
  let emitted := fresh t.used name
  (emitted, { t with innermost := (name, emitted) :: t.innermost, used := emitted :: t.used })

/-- Declare names one after the other. -/
def declareAll (t : Names) : List Bytes → List Bytes × Names
  | [] => ([], t)
  | name :: names =>
    let (emitted, t) := t.declare name
    let (rest, t) := t.declareAll names
    (emitted :: rest, t)

/-- The open scopes, the innermost first. -/
def scopes (t : Names) : List (List (Bytes × Bytes)) := t.innermost :: t.outer

/-- The output name that a name has here. -/
def resolve? (t : Names) (name : Bytes) : Option Bytes := t.scopes.findSome? (·.lookup name)

/-- Open a scope. -/
def push (t : Names) : Names := { t with innermost := [], outer := t.innermost :: t.outer }

/-- Leave the innermost scope; the outermost stays. -/
def pop (t : Names) : Names :=
  match t.outer with
  | [] => t
  | scope :: outer => { t with innermost := scope, outer }

/-- How many scopes are open. -/
def depth (t : Names) : Nat := t.outer.length + 1

end Names

end Roar
