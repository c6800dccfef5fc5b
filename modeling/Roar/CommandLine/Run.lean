import Roar.CommandLine.Config

/-!
# A run of the compiler

A run has steps between which files are touched: read the command line (`plan`), see whether the
source can be opened (`Config.unopened`) and is not too large (`Config.refuse?`), compile its text
(`Config.deliver`), and say how it ended once the output file was opened or not
(`Delivery.finish`). `Store.run` takes these steps on a store of
files, which it gives back as the run leaves it.
-/

namespace Roar.CommandLine

/-- What a run prints, and its exit status. -/
structure Outcome where
  status : Nat
  stdout : Bytes := []
  stderr : Bytes := []
deriving DecidableEq, Repr

/-- A command line is answered at once, or asks for a compilation. -/
inductive Plan where
  | answer (outcome : Outcome)
  | compile (config : Config)

/-- What a command line leads to. Help goes before the version. -/
def plan (args : List Bytes) : Plan :=
  match Config.ofArgs args with
  | .error e => .answer { status := 1, stderr := e.diagnostic.render none ++ usage }
  | .ok c =>
    if c.help then .answer { status := 0, stdout := usage }
    else if c.version then .answer { status := 0, stdout := versionLine }
    else .compile c

/-- Sources have at most so many bytes. -/
def sizeLimit : Nat := 64 * 1024 * 1024

/-- A failed run with one message that has no place. -/
def failure (message : Bytes) : Outcome :=
  { status := 1, stderr := (Diagnostic.error {} message []).render none }

/-- The outcome if the source cannot be opened. -/
def Config.unopened (c : Config) : Outcome := failure (ascii "unable to open " ++ c.source)

/-- The outcome if a source of so many bytes is too large. -/
def Config.refuse? (c : Config) (size : Nat) : Option Outcome :=
  if sizeLimit < size then
    some (failure (ascii "source file too large: " ++ c.source ++ ascii " (limit: 64 MB)"))
  else none

/-- A compilation ends at once, or wants a text written to a file. -/
inductive Delivery where
  | done (outcome : Outcome)
  | write (path text stderr : Bytes)

/-- Compile the text of the source. The output ends with a line feed. -/
def Config.deliver (c : Config) (text : Bytes) : Delivery :=
  let (result, files) := Roar.compile { text, path := c.source } c.compile {}
  if result.succeeded then
    let output := result.output ++ ascii "\n"
    if c.output = [] then .done { status := 0, stdout := output, stderr := result.outlines }
    else .write c.output output result.outlines
  else
    .done { status := 1, stderr := result.outlines ++ result.report.render (some files) }

/-- The outcome once the output file could be opened, or could not. -/
def Delivery.finish (opened : Bool) : Delivery → Outcome
  | .done outcome => outcome
  | .write path _ stderr =>
    if opened then { status := 0, stderr }
    else
      { status := 1
        stderr := stderr ++ ascii "error: unable to open " ++ path ++ ascii " for writing\n" }

/-! ## Runs on a store of files -/

/-- What a file holds: a text, or so many zero bytes. -/
inductive Contents where
  | text (bytes : Bytes)
  | blank (size : Nat)
deriving DecidableEq, Repr

def Contents.size : Contents → Nat
  | text bytes => bytes.length
  | blank size => size

def Contents.bytes : Contents → Bytes
  | text bytes => bytes
  | blank size => List.replicate size 0

/-- Files and directories by the names on the way to them from the root, and the working directory. What
lies on the way to any of these is a directory too. -/
structure Store where
  files : List (List Bytes × Contents) := []
  directories : List (List Bytes) := []
  working : List Bytes := []
deriving DecidableEq, Repr

namespace Store

/-- The root, the working directory, one that is listed, or one above any of these or above a file. -/
def isDirectory (s : Store) (dir : List Bytes) : Bool :=
  dir.isPrefixOf s.working || s.directories.any (dir.isPrefixOf ·) ||
    s.files.any fun f => dir.isPrefixOf f.1 && f.1 != dir

/-- Follow a path from a directory, which is given with its last name first. The path must end with
the name of a file; above the root is the root. -/
def follow (s : Store) (dir : List Bytes) : List Bytes → Option (List Bytes)
  | [] => none
  | [name] =>
    if name = [] ∨ name = Path.dot ∨ name = Path.dotdot then none else some (name :: dir).reverse
  | name :: names =>
    if name = [] ∨ name = Path.dot then follow s dir names
    else if name = Path.dotdot then follow s dir.tail names
    else if s.isDirectory (name :: dir).reverse then follow s (name :: dir) names
    else none

/-- Where a path starts, with the last name first: at the root, or in the working directory. -/
def origin (s : Store) (path : Bytes) : List Bytes :=
  if path.head? = some (byte '/') then [] else s.working.reverse

/-- The file that a path leads to, whether it is there or not. -/
def locate (s : Store) (path : Bytes) : Option (List Bytes) :=
  s.follow (s.origin path) (Bytes.splitOn (byte '/') path)

/-- What a file holds. -/
def contents? (s : Store) (file : List Bytes) : Option Contents := s.files.lookup file

/-- What the file that a path leads to holds. -/
def read? (s : Store) (path : Bytes) : Option Contents := (s.locate path).bind s.contents?

/-- Make a file hold a text. -/
def put (s : Store) (file : List Bytes) (text : Bytes) : Store :=
  { s with files := (file, .text text) :: s.files.filter (·.1 != file) }

/-- Write a text to the file that a path leads to. Its directory must be there, and it must not be
a directory itself. -/
def write? (s : Store) (path text : Bytes) : Option Store :=
  match s.locate path with
  | none => none
  | some file => if s.isDirectory file then none else some (s.put file text)

/-- End a compilation, writing what it wants written. -/
def settle (s : Store) (d : Delivery) : Outcome × Store :=
  match d with
  | .done outcome => (outcome, s)
  | .write path text _ =>
    match s.write? path text with
    | none => (d.finish false, s)
    | some s => (d.finish true, s)

/-- Run a command line. -/
def run (s : Store) (args : List Bytes) : Outcome × Store :=
  match plan args with
  | .answer outcome => (outcome, s)
  | .compile c =>
    match s.read? c.source with
    | none => (c.unopened, s)
    | some contents =>
      match c.refuse? contents.size with
      | some outcome => (outcome, s)
      | none => s.settle (c.deliver contents.bytes)

/-- The texts of a store that an earlier one does not hold; files of zero bytes are left out. -/
def changes (before after : Store) : List (List Bytes × Bytes) :=
  after.files.filterMap fun (file, contents) =>
    match contents, before.contents? file with
    | .blank _, _ | _, some (.blank _) => none
    | .text new, some (.text old) => if new = old then none else some (file, new)
    | .text new, none => some (file, new)

end Store

end Roar.CommandLine
