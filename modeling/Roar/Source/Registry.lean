import Roar.Source.Path

/-!
# The files of a compilation

Files are numbered 1, 2, 3, … in the order in which their normal paths first appear, so that a
location can name its file by a number. The number 0 belongs to no file, and a number is a word of
32 bits.
-/

namespace Roar

/-- The files known so far. -/
structure Registry where
  /-- Their normal paths; the file numbered `i + 1` is at index `i`. -/
  paths : List Bytes := []
  /-- The number of the next file. -/
  next : Nat := 1
  /-- The numbers of the normal paths. -/
  numbers : List (Bytes × Nat) := []

namespace Registry

/-- How many files are known. -/
def size (r : Registry) : Nat := r.paths.length

/-- The largest number that a file can have. -/
def limit : Nat := 4294967295

/-- The number of a path: the one it has, or the next one. Where no number is left, a new path gets
the number 0 and is not kept. -/
def add (r : Registry) (path : Bytes) : Nat × Registry :=
  let normal := Path.normalize path
  match r.numbers.lookup normal with
  | some id => (id, r)
  | none =>
    if limit < r.next then (0, r)
    else (r.next, ⟨r.paths ++ [normal], r.next + 1, (normal, r.next) :: r.numbers⟩)

/-- The path of a file, if the number is one of a known file. -/
def path? (r : Registry) : Nat → Option Bytes
  | 0 => none
  | i + 1 => r.paths[i]?

/-- The path of a file, empty when the number is of no known file. -/
def path (r : Registry) (id : Nat) : Bytes := (r.path? id).getD []

end Registry

end Roar
