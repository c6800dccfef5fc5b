import Roar.Program.Typing

/-!
# Scopes

A scope maps names to symbols and says whether it lies in a loop and in a function. Scopes are
nested: a chain of them is a list with the innermost first, and a name means the symbol of the
innermost scope that has one (`Scope.find?`). A scope of a chain is identified by its depth, the
number of scopes around it, which does not change while inner scopes come and go.
-/

namespace Roar

inductive SymbolKind where
  | assigned
  | parameter
  | loopVariable
  | function
  | builtin
deriving DecidableEq, Repr

def SymbolKind.text : SymbolKind → Bytes
  | .assigned => ascii "variable"
  | .parameter => ascii "parameter"
  | .loopVariable => ascii "loop"
  | .function => ascii "function"
  | .builtin => ascii "builtin"

/-- What a name means. The last two fields are those of a function. -/
structure Meaning where
  kind : SymbolKind
  name : Bytes
  type : ValueType := .unknown
  paramCount : Nat := 0
  returns : ValueType := .unknown
deriving DecidableEq, Repr

/-- A function of the program or a built-in one. -/
def Meaning.isCallable (m : Meaning) : Bool := m.kind == .function || m.kind == .builtin

/-- A scope, the latest definition first. -/
structure Scope where
  meanings : List Meaning := []
  inLoop : Bool := false
  inFunction : Bool := false
deriving DecidableEq, Repr

namespace Scope

/-- Give a name a meaning; an earlier one is hidden. -/
def define (s : Scope) (m : Meaning) : Scope := { s with meanings := m :: s.meanings }

/-- The meaning of a name in this scope alone. -/
def local? (s : Scope) (name : Bytes) : Option Meaning := s.meanings.find? (·.name == name)

/-- Change the meaning of a name in this scope. -/
def modify (s : Scope) (name : Bytes) (change : Meaning → Meaning) : Scope :=
  { s with meanings := go s.meanings }
where
  go : List Meaning → List Meaning
    | [] => []
    | m :: ms => if m.name == name then change m :: ms else m :: go ms

/-- The meaning of a name in a chain of scopes, with the depth of the scope that has it. -/
def find? (name : Bytes) : List Scope → Option (Nat × Meaning)
  | [] => none
  | s :: outer =>
    match s.local? name with
    | some m => some (outer.length, m)
    | none => find? name outer

/-- The meaning of a name in a chain of scopes. -/
def lookup? (name : Bytes) (chain : List Scope) : Option Meaning := (find? name chain).map (·.2)

/-- Change the meaning of a name in the scope of some depth. -/
def modifyAt (depth : Nat) (name : Bytes) (change : Meaning → Meaning) : List Scope → List Scope
  | [] => []
  | s :: outer =>
    if outer.length = depth then s.modify name change :: outer
    else s :: modifyAt depth name change outer

/-- Give a name a meaning in the innermost scope. -/
def defineIn (m : Meaning) : List Scope → List Scope
  | [] => [({} : Scope).define m]
  | s :: outer => s.define m :: outer

end Scope

/-- The functions that every program has, each of one number. -/
def builtinNames : List Bytes := [ascii "sqrt", ascii "abs", ascii "floor", ascii "ceil"]

/-- The outermost scope, with the built-in functions. -/
def builtinScope : Scope where
  meanings := builtinNames.map fun name => ⟨.builtin, name, .unknown, 1, .number⟩

end Roar
