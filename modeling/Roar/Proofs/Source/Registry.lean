import Mathlib.Data.List.Induction
import Mathlib.Data.List.Nodup
import Roar.Proofs.Source.Path
import Roar.Source.Registry

/-!
# Numbers of files

A registry has a list of paths, a counter and a number for each path. An addition keeps the three in
step, and so does a run of additions (`Registry.Agrees.addAll`).

`Registry.answers` and `Registry.addAll` are such a run: the numbers given and the files known at its
end. As long as numbers are left, the files known are the different normal paths of the run in
the order in which they first appear (`run_of_room`), so that the number of a path is its
place among them (`placeAmong`).

`files_numbered` collects what follows: numbers and normal paths correspond one to one, a number keeps
its path, and a path that is known finds its number again.
-/

namespace Roar

namespace Registry

/-! ## One addition -/

/-- The counter and the numbers of the paths say what the list of paths says. -/
structure Agrees (r : Registry) : Prop where
  next : r.next = r.size + 1
  numbers : ∀ path, r.numbers.lookup path =
    if path ∈ r.paths then some (r.paths.idxOf path + 1) else none

variable {r : Registry} {path : Bytes}

/-- A path whose normal form is known has a number already. -/
theorem add_of_mem (hr : r.Agrees) (h : Path.normalize path ∈ r.paths) :
    r.add path = (r.paths.idxOf (Path.normalize path) + 1, r) := by
  have hfound := hr.numbers (Path.normalize path)
  rw [if_pos h] at hfound
  simp only [add, hfound]

/-- A path whose normal form is not known gets the next number, if one is left. -/
theorem add_of_notMem (hr : r.Agrees) (h : Path.normalize path ∉ r.paths) :
    r.add path = if r.size < limit then
      (r.size + 1, ⟨r.paths ++ [Path.normalize path], r.size + 2,
        (Path.normalize path, r.size + 1) :: r.numbers⟩) else (0, r) := by
  have hfound := hr.numbers (Path.normalize path)
  rw [if_neg h] at hfound
  simp only [add, hfound, hr.next]
  by_cases hroom : r.size < limit
  · rw [if_pos hroom, if_neg (by omega)]
  · rw [if_neg hroom, if_pos (by omega)]

theorem Agrees.empty : ({} : Registry).Agrees := ⟨rfl, fun path => by simp⟩

/-- An addition keeps the three in step. -/
theorem Agrees.add (hr : r.Agrees) (path : Bytes) : (r.add path).2.Agrees := by
  by_cases h : Path.normalize path ∈ r.paths
  · rw [add_of_mem hr h]
    exact hr
  rw [add_of_notMem hr h]
  split
  · refine ⟨by simp [size], fun other => ?_⟩
    by_cases hother : other = Path.normalize path
    · subst hother
      simp [List.idxOf_append_of_notMem h, size]
    · have hne : (other == Path.normalize path) = false := beq_eq_false_iff_ne.mpr hother
      simp only [List.lookup_cons, hne, hr.numbers, List.mem_append, List.mem_singleton, hother,
        or_false]
      split
      · rename_i hmem
        rw [List.idxOf_append_of_mem hmem]
      · rfl
  · exact hr

theorem path_succ (r : Registry) (i : Nat) : r.path (i + 1) = r.paths[i]?.getD [] := rfl

/-! ## Runs -/

/-- The files known after some additions. -/
def addAll (r : Registry) (paths : List Bytes) : Registry :=
  paths.foldl (fun r path => (r.add path).2) r

/-- The numbers that some additions give. -/
def answers : Registry → List Bytes → List Nat
  | _, [] => []
  | r, path :: paths => (r.add path).1 :: answers (r.add path).2 paths

theorem answers_append (r : Registry) (front back : List Bytes) :
    r.answers (front ++ back) = r.answers front ++ (r.addAll front).answers back := by
  induction front generalizing r with
  | nil => rfl
  | cons path front ih => exact congrArg ((r.add path).1 :: ·) (ih (r.add path).2)

theorem addAll_append (r : Registry) (front back : List Bytes) :
    r.addAll (front ++ back) = (r.addAll front).addAll back := List.foldl_append

/-- They are in step at every time of a run. -/
theorem Agrees.addAll (hr : r.Agrees) (paths : List Bytes) : (r.addAll paths).Agrees := by
  induction paths generalizing r with
  | nil => exact hr
  | cons path paths ih => exact ih (hr.add path)

end Registry

open Registry

/-- The different normal forms of some paths, in the order in which they first appear. -/
def normals (paths : List Bytes) : List Bytes := (paths.map Path.normalize).eraseDups

/-- The place of a path among the different normal forms of some paths, from 1 on. -/
def placeAmong (paths : List Bytes) (path : Bytes) : Nat :=
  (normals paths).idxOf (Path.normalize path) + 1

theorem mem_normals {paths : List Bytes} {path : Bytes} (h : path ∈ paths) :
    Path.normalize path ∈ normals paths :=
  List.mem_eraseDups.mpr (List.mem_map_of_mem h)

/-- One path more is new, or its normal form is there already. -/
theorem normals_append_singleton (paths : List Bytes) (path : Bytes) :
    normals (paths ++ [path]) =
      if Path.normalize path ∈ normals paths then normals paths
      else normals paths ++ [Path.normalize path] := by
  unfold normals
  rw [List.map_append, List.eraseDups_append, List.map_singleton]
  generalize paths.map Path.normalize = known
  generalize Path.normalize path = normal
  split
  · rename_i hknown
    simp [List.removeAll, List.mem_eraseDups.mp hknown]
  · rename_i hnew
    simp [List.removeAll, List.mem_eraseDups.not.mp hnew, List.eraseDups_cons]

/-- What is there stays in its place when more paths follow. -/
theorem normals_grows (front back : List Bytes) : normals front <+: normals (front ++ back) := by
  unfold normals
  rw [List.map_append, List.eraseDups_append]
  exact List.prefix_append _ _

theorem placeAmong_append {front : List Bytes} {path : Bytes} (h : path ∈ front)
    (back : List Bytes) : placeAmong (front ++ back) path = placeAmong front path := by
  obtain ⟨more, hmore⟩ := normals_grows front back
  rw [placeAmong, ← hmore, List.idxOf_append_of_mem (mem_normals h)]
  rfl

private theorem nodup_normals (paths : List Bytes) : (normals paths).Nodup := by
  induction paths using List.reverseRecOn with
  | nil => exact List.nodup_nil
  | append_singleton paths path ih =>
    rw [normals_append_singleton]
    split
    · exact ih
    · rename_i hnew
      exact List.nodup_append.mpr ⟨ih, List.nodup_singleton _, by
        intro known hknown added hadded
        rw [List.mem_singleton.mp hadded]
        exact fun heq => hnew (heq ▸ hknown)⟩

/-- A run of additions for which there are numbers enough: the files known are the different normal
paths, and each addition gave the place of its path. -/
theorem run_of_room {paths : List Bytes} (hroom : (normals paths).length ≤ limit) :
    (addAll {} paths).paths = normals paths ∧ answers {} paths = paths.map (placeAmong paths) := by
  induction paths using List.reverseRecOn with
  | nil => exact ⟨rfl, rfl⟩
  | append_singleton paths path ih =>
    have hgrows := (normals_grows paths [path]).length_le
    obtain ⟨hpaths, hanswers⟩ := ih (by omega)
    have hearlier : paths.map (placeAmong (paths ++ [path])) = paths.map (placeAmong paths) :=
      List.map_congr_left fun p hp => placeAmong_append hp [path]
    rw [addAll_append, answers_append, List.map_append, hearlier, hanswers]
    have hnormals := normals_append_singleton paths path
    have hagrees := Agrees.empty.addAll paths
    by_cases hknown : Path.normalize path ∈ normals paths
    · rw [if_pos hknown] at hnormals
      have hadd := add_of_mem hagrees (hpaths ▸ hknown)
      refine ⟨?_, congrArg (_ ++ ·) ?_⟩
      · rw [hnormals, ← hpaths]
        exact congrArg (·.2.paths) hadd
      · simp only [answers, hadd, hpaths, List.map_cons, List.map_nil, placeAmong, hnormals]
    · rw [if_neg hknown] at hnormals
      have hsize : (addAll {} paths).size < limit := by
        rw [size, hpaths]
        rw [hnormals, List.length_append] at hroom
        exact hroom
      have hadd := add_of_notMem hagrees (hpaths ▸ hknown)
      rw [if_pos hsize] at hadd
      refine ⟨?_, congrArg (_ ++ ·) ?_⟩
      · rw [hnormals, ← hpaths]
        exact congrArg (·.2.paths) hadd
      · have hplace : (normals paths ++ [Path.normalize path]).idxOf (Path.normalize path) =
            (normals paths).length := by
          rw [List.idxOf_append_of_notMem hknown]
          simp
        simp only [answers, hadd, size, hpaths, List.map_cons, List.map_nil, placeAmong, hnormals,
          hplace]

theorem Registry.path_of_outside {r : Registry} {id : ℕ} (h : id = 0 ∨ r.size < id) :
    r.path id = [] := by
  rcases h with rfl | hid
  · rfl
  · obtain ⟨i, rfl⟩ : ∃ i, id = i + 1 := ⟨id - 1, by omega⟩
    rw [path_succ, List.getElem?_eq_none (by rw [size] at hid; omega)]
    rfl

/-- The path of a number is added as nothing new. -/
theorem Registry.add_path {r : Registry} {paths : List Bytes} (hr : r.Agrees)
    (hpaths : r.paths = normals paths) {id : ℕ} (hpos : 0 < id) (hid : id ≤ r.size) : r.add (r.path id) = (id, r) := by
  obtain ⟨i, rfl⟩ : ∃ i, id = i + 1 := ⟨id - 1, by omega⟩
  have hi : i < r.paths.length := hid
  have hpath : r.path (i + 1) = r.paths[i] := by
    rw [path_succ, List.getElem?_eq_getElem hi]
    rfl
  -- what is kept is a normal form, and so its own
  have hnormal : Path.normalize r.paths[i] = r.paths[i] := by
    have hmem : r.paths[i] ∈ normals paths := hpaths ▸ List.getElem_mem hi
    obtain ⟨p, -, hp⟩ := List.mem_map.mp (List.mem_eraseDups.mp hmem)
    rw [← hp, Path.normalize_normalize]
  have hnodup : r.paths.Nodup := hpaths ▸ nodup_normals _
  rw [hpath, add_of_mem hr (hnormal.symm ▸ List.getElem_mem hi), hnormal, hnodup.idxOf_getElem i hi]

/-- Additions of fewer different paths than there are numbers. The numbers given are the places of the
normal paths in the order in which they first appear, so that two paths have one number exactly if they
have one normal form. At every time of the run a number that has been given has the normal form of its
path, no other number has a path, and the path of a number is added as nothing new. -/
theorem files_numbered (paths : List Bytes) (hroom : (normals paths).length < limit) :
    answers {} paths = paths.map (placeAmong paths) ∧
      (∀ p ∈ paths, ∀ q ∈ paths,
        placeAmong paths p = placeAmong paths q ↔ Path.normalize p = Path.normalize q) ∧
      ∀ n, (addAll {} (paths.take n)).size = (normals (paths.take n)).length ∧
        (∀ p ∈ paths.take n,
          (addAll {} (paths.take n)).path (placeAmong paths p) = Path.normalize p) ∧
        (∀ id, id = 0 ∨ (addAll {} (paths.take n)).size < id →
          (addAll {} (paths.take n)).path id = []) ∧
        ∀ id, 0 < id → id ≤ (addAll {} (paths.take n)).size →
          (addAll {} (paths.take n)).add ((addAll {} (paths.take n)).path id) =
            (id, addAll {} (paths.take n)) := by
  refine ⟨(run_of_room (Nat.le_of_lt hroom)).2, fun p hp q _ => ?_, fun n => ?_⟩
  · rw [placeAmong, placeAmong, Nat.add_right_cancel_iff]
    exact List.idxOf_inj (mem_normals hp)
  · have hroom' : (normals (paths.take n)).length ≤ limit := by
      have hgrows := (normals_grows (paths.take n) (paths.drop n)).length_le
      rw [List.take_append_drop] at hgrows
      omega
    have hpaths := (run_of_room hroom').1
    refine ⟨by rw [size, hpaths], fun p hp => ?_, fun id => path_of_outside,
      fun id => add_path (Agrees.empty.addAll _) hpaths⟩
    have hplace := placeAmong_append hp (paths.drop n)
    rw [List.take_append_drop] at hplace
    rw [hplace, placeAmong, path_succ, hpaths, List.getElem?_idxOf (mem_normals hp)]
    rfl

/-- Five additions of three files. -/
def libraryPaths : List Bytes :=
  [ascii "lib/./main", ascii "/../a//b/", ascii "lib/x/../main", ascii "c/..", ascii "/a/b/."]

theorem libraryPaths_numbered :
    (normals libraryPaths).length < limit ∧ answers {} libraryPaths = [1, 2, 1, 3, 2] ∧
      (addAll {} libraryPaths).path 2 = ascii "/a/b/" ∧
      (addAll {} libraryPaths).add (ascii "/a/b/") = (2, addAll {} libraryPaths) := by
  have hroom : (normals libraryPaths).length < limit := by decide +kernel
  obtain ⟨hanswers, -, htimes⟩ := files_numbered libraryPaths hroom
  obtain ⟨-, hpath, -, hagain⟩ := htimes 5
  have hplaces : libraryPaths.map (placeAmong libraryPaths) = [1, 2, 1, 3, 2] := by decide +kernel
  have hsecond : (addAll {} libraryPaths).path 2 = ascii "/a/b/" := by
    have hplace : placeAmong libraryPaths (ascii "/../a//b/") = 2 := by decide +kernel
    have hnormal : Path.normalize (ascii "/../a//b/") = ascii "/a/b/" := by decide +kernel
    rw [← hnormal, ← hplace]
    exact hpath _ (by decide +kernel)
  refine ⟨hroom, hanswers.trans hplaces, hsecond, ?_⟩
  rw [← hsecond]
  exact hagain 2 (by decide) (by decide +kernel)

end Roar
