import Roar.Location
import Roar.Source.Registry

/-!
# Diagnostics

A diagnostic is a message with a severity, a place and a stable code. A `Report` keeps the
diagnostics of a run in the order in which they were made. `Diagnostic.render` writes one line
`path:line:column: severity[CODE]: message`, leaving out what is not known.
-/

namespace Roar

inductive Severity where
  | note
  | warning
  | error
deriving DecidableEq, Repr

def Severity.text : Severity → Bytes
  | .note => ascii "note"
  | .warning => ascii "warning"
  | .error => ascii "error"

/-- A message about a place. The code is empty when the message belongs to no category. -/
structure Diagnostic where
  severity : Severity
  message : Bytes
  location : Location := {}
  code : Bytes := []
deriving DecidableEq, Repr

namespace Diagnostic

/-- The codes of the categories. -/
def syntaxCode : Bytes := ascii "L1000"

def semanticCode : Bytes := ascii "L2000"

def targetCode : Bytes := ascii "L3000"

/-- An error with its place and code. -/
def error (location : Location) (message : Bytes) (code : Bytes) : Diagnostic :=
  ⟨.error, message, location, code⟩

/-- What stands before the severity: the path, if the file is known and has one, then line and
column, as far as they are known. -/
def place (files : Option Registry) (l : Location) : Bytes :=
  let path := match files with
    | some r => if l.hasFile then r.path l.file else []
    | none => []
  let colon := if path = [] then [] else ascii ":"
  let position :=
    if l.hasLine then
      colon ++ decimal l.line.toNat ++
        (if l.hasColumn then ascii ":" ++ decimal l.column.toNat else [])
    else []
  let place := path ++ position
  if place = [] then [] else place ++ ascii ": "

/-- One line for one diagnostic. -/
def render (files : Option Registry) (d : Diagnostic) : Bytes :=
  let code := if d.code = [] then [] else ascii "[" ++ d.code ++ ascii "]"
  place files d.location ++ d.severity.text ++ code ++ ascii ": " ++ d.message ++ ascii "\n"

end Diagnostic

/-- The diagnostics of a run, in the order in which they were made. -/
structure Report where
  entries : List Diagnostic := []
deriving DecidableEq, Repr

namespace Report

def add (r : Report) (d : Diagnostic) : Report := ⟨r.entries ++ [d]⟩

def size (r : Report) : Nat := r.entries.length

/-- How many entries have a severity. -/
def count (r : Report) (s : Severity) : Nat := r.entries.countP (·.severity == s)

def errors (r : Report) : Nat := r.count .error

def warnings (r : Report) : Nat := r.count .warning

/-- All entries, a line each. -/
def render (files : Option Registry) (r : Report) : Bytes :=
  r.entries.flatMap (Diagnostic.render files)

end Report

end Roar
