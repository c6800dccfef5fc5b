import Roar.Bytes

/-!
# Lexical paths

A path is a text of names divided by slashes. `Path.normalize` gives the shortest text for the
same place that can be had without asking a file system: repeated slashes count once, `.` goes,
`name/..` goes, and `..` at the root goes. A slash at the end stays, also where a last `.` or
`name/..` was dropped before it, but not after a last `..`. What becomes empty is written `.`,
and the empty path stays empty.
-/

namespace Roar.Path

/-- The names of a path kept so far, the last one first, and whether a slash follows it. -/
structure Trail where
  names : List Bytes := []
  slash : Bool := false

def dot : Bytes := ascii "."

def dotdot : Bytes := ascii ".."

/-- Follow one piece of a path between two slashes. At the root there is nothing above. -/
def Trail.enter (rooted : Bool) (t : Trail) (piece : Bytes) : Trail :=
  if piece = [] ∨ piece = dot then { t with slash := true }
  else if piece = dotdot then
    match t.names with
    | [] => if rooted then { t with slash := true } else ⟨[dotdot], false⟩
    | name :: names =>
      if name = dotdot then ⟨dotdot :: name :: names, false⟩ else ⟨names, true⟩
  else ⟨piece :: t.names, false⟩

/-- The text of a trail. -/
def Trail.text (rooted : Bool) (t : Trail) : Bytes :=
  let root := if rooted then ascii "/" else []
  let tail := if t.slash && t.names.head?.any (· != dotdot) then ascii "/" else []
  let body := root ++ Bytes.join (ascii "/") t.names.reverse ++ tail
  if body = [] then dot else body

/-- The normal form of a path. -/
def normalize (path : Bytes) : Bytes :=
  if path = [] then []
  else
    let rooted := path.head? == some (byte '/')
    Trail.text rooted ((Bytes.splitOn (byte '/') path).foldl (Trail.enter rooted) {})

end Roar.Path
