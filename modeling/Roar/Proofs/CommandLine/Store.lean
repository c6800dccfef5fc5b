import Roar.CommandLine.Run
import Roar.Proofs.Source.Path

/-!
# Where paths lead

A path starts at the root or in the working directory and goes from one directory to the next
(`Enters` is one name of it, `Reaches` all but the last), and its last name is that of a file in the
directory reached (`LeadsTo`). `Store.locate` finds this file whenever there is a way to it
(`locate_eq_some_iff`), so a source can be opened exactly if its path leads to a file that is there
(`read?_eq_some_iff`), and an output exactly if the directory of its path is there and it is none
itself (`write?_eq_some_iff`). In particular each file can be read from anywhere by the names on the
way to it from the root (`read?_absolute`).
-/

namespace Roar.CommandLine.Store

open Roar.Path (dot dotdot)

/-! ## Directories -/

section Directories

variable {s : Store} {dir outer : List Bytes}

theorem isDirectory_iff : s.isDirectory dir ↔ dir <+: s.working ∨
    (∃ d ∈ s.directories, dir <+: d) ∨ ∃ f ∈ s.files, dir <+: f.1 ∧ f.1 ≠ dir := by
  simp only [isDirectory, Bool.or_eq_true, List.any_eq_true, List.isPrefixOf_iff_prefix,
    Bool.and_eq_true, bne_iff_ne, or_assoc]

/-- What lies above a directory is a directory. -/
theorem isDirectory_above (h : s.isDirectory dir) (houter : outer <+: dir) :
    s.isDirectory outer := by
  rw [isDirectory_iff] at h ⊢
  obtain h | ⟨d, hd, h⟩ | ⟨f, hf, h, hne⟩ := h
  · exact .inl (houter.trans h)
  · exact .inr (.inl ⟨d, hd, houter.trans h⟩)
  · refine .inr (.inr ⟨f, hf, houter.trans h, ?_⟩)
    rintro rfl
    exact hne (houter.eq_of_length_le h.length_le)

/-- What lies above a file that is there is a directory. -/
theorem isDirectory_of_contents? {name : Bytes} {contents : Contents}
    (h : s.contents? (dir ++ [name]) = some contents) : s.isDirectory dir := by
  obtain ⟨front, rest, hfiles, -⟩ := List.lookup_eq_some_iff.mp h
  refine isDirectory_iff.mpr (.inr (.inr ⟨(dir ++ [name], contents), ?_, ?_, by simp⟩))
  · rw [hfiles]
    exact List.mem_append_right _ List.mem_cons_self
  · exact List.prefix_append dir [name]

end Directories

/-! ## Ways -/

/-- The name of an entry of a directory. -/
def Entry (name : Bytes) : Prop := ¬ (name = [] ∨ name = dot ∨ name = dotdot)

/-- One name of a path leads from a directory to another. Both are given with their last names
first. -/
inductive Enters (s : Store) (dir : List Bytes) : Bytes → List Bytes → Prop
  | stay {name : Bytes} (h : name = [] ∨ name = dot) : Enters s dir name dir
  | up : Enters s dir dotdot dir.tail
  | down {name : Bytes} (h : Entry name) (hdir : s.isDirectory (name :: dir).reverse) :
      Enters s dir name (name :: dir)

/-- The names of a path lead from a directory to another. -/
inductive Reaches (s : Store) : List Bytes → List Bytes → List Bytes → Prop
  | here (dir : List Bytes) : Reaches s dir [] dir
  | step {dir next last : List Bytes} {name : Bytes} {names : List Bytes}
      (first : Enters s dir name next) (rest : Reaches s next names last) :
      Reaches s dir (name :: names) last

/-- A path leads through directories to the name of a file, which need not be there. -/
def LeadsTo (s : Store) (path : Bytes) (file : List Bytes) : Prop :=
  ∃ front name dir, Bytes.splitOn (byte '/') path = front ++ [name] ∧
    s.Reaches (s.origin path) front dir ∧ Entry name ∧ file = (name :: dir).reverse

/-- A path leads to a file with these contents. -/
def Holds (s : Store) (path : Bytes) (contents : Contents) : Prop :=
  ∃ file, s.LeadsTo path file ∧ s.contents? file = some contents

/-- The file that a path leads to can be written: its directory is there, and it is none itself. -/
def Writable (s : Store) (path : Bytes) (file : List Bytes) : Prop :=
  s.LeadsTo path file ∧ s.isDirectory file = false

section Ways

variable {s : Store} {path name : Bytes} {dir next last names file : List Bytes}

theorem follow_cons (hne : names ≠ []) :
    s.follow dir (name :: names) =
      if name = [] ∨ name = dot then s.follow dir names
      else if name = dotdot then s.follow dir.tail names
      else if s.isDirectory (name :: dir).reverse then s.follow (name :: dir) names
      else none := by
  obtain ⟨second, more, rfl⟩ := List.exists_cons_of_ne_nil hne
  rfl

private theorem follow_of_enters (h : s.Enters dir name next) (hne : names ≠ []) :
    s.follow dir (name :: names) = s.follow next names := by
  cases h with
  | stay h => rw [follow_cons hne, if_pos h]
  | up => rw [follow_cons hne, if_neg (by decide), if_pos rfl]
  | down h hdir =>
    obtain ⟨hnil, hdot, hdotdot⟩ : name ≠ [] ∧ name ≠ dot ∧ name ≠ dotdot := by
      simpa only [Entry, not_or] using h
    rw [follow_cons hne, if_neg (not_or.mpr ⟨hnil, hdot⟩), if_neg hdotdot, if_pos hdir]

private theorem exists_enters (hne : names ≠ []) (h : s.follow dir (name :: names) = some file) :
    ∃ next, s.Enters dir name next ∧ s.follow next names = some file := by
  rw [follow_cons hne] at h
  split at h
  · rename_i hstay
    exact ⟨dir, .stay hstay, h⟩
  · rename_i hstay
    split at h
    · rename_i hup
      exact ⟨dir.tail, hup ▸ .up, h⟩
    · rename_i hup
      split at h
      · rename_i hdir
        have hentry : Entry name := by
          obtain ⟨hnil, hdot⟩ := not_or.mp hstay
          exact not_or.mpr ⟨hnil, not_or.mpr ⟨hdot, hup⟩⟩
        exact ⟨name :: dir, .down hentry hdir, h⟩
      · cases h

theorem Reaches.follow (h : s.Reaches dir names last) (hname : Entry name) :
    s.follow dir (names ++ [name]) = some (name :: last).reverse := by
  induction h with
  | here dir => exact if_neg hname
  | step first rest ih =>
    rw [List.cons_append, follow_of_enters first (by simp), ih]

private theorem exists_reaches (h : s.follow dir names = some file) :
    ∃ front name last, names = front ++ [name] ∧ s.Reaches dir front last ∧ Entry name ∧
      file = (name :: last).reverse := by
  induction names generalizing dir with
  | nil => cases h
  | cons first rest ih =>
    by_cases hrest : rest = []
    · subst hrest
      unfold Store.follow at h
      split at h
      · cases h
      · rename_i hname
        exact ⟨[], first, dir, rfl, .here dir, hname, (Option.some.inj h).symm⟩
    · obtain ⟨next, hnext, h⟩ := exists_enters hrest h
      obtain ⟨front, name, last, rfl, hreaches, hname, hfile⟩ := ih h
      exact ⟨first :: front, name, last, rfl, .step hnext hreaches, hname, hfile⟩

/-- The file that a path leads to is found, and no other. -/
theorem locate_eq_some_iff : s.locate path = some file ↔ s.LeadsTo path file := by
  refine ⟨exists_reaches, ?_⟩
  rintro ⟨front, name, last, hpath, hreaches, hname, rfl⟩
  rw [locate, hpath]
  exact hreaches.follow hname

/-- A source can be opened exactly if it is there. -/
theorem read?_eq_some_iff {contents : Contents} :
    s.read? path = some contents ↔ s.Holds path contents := by
  simp only [read?, Option.bind_eq_some_iff, locate_eq_some_iff, Holds]

theorem Holds.unique {contents contents' : Contents} (h : s.Holds path contents)
    (h' : s.Holds path contents') : contents = contents' :=
  Option.some.inj ((read?_eq_some_iff.mpr h).symm.trans (read?_eq_some_iff.mpr h'))

/-- An output can be opened exactly if its directory is there and it is none itself. -/
theorem write?_eq_some_iff {text : Bytes} {after : Store} :
    s.write? path text = some after ↔ ∃ file, s.Writable path file ∧ after = s.put file text := by
  unfold write? Writable
  cases h : s.locate path with
  | none =>
    have hnone : ∀ file, ¬ s.LeadsTo path file := fun file hfile => by
      simp [locate_eq_some_iff.mpr hfile] at h
    simp [hnone]
  | some file =>
    have hfile : ∀ other, s.LeadsTo path other ↔ file = other := fun other => by
      rw [← locate_eq_some_iff, h, Option.some_inj]
    simp only [hfile, Option.ite_none_left_eq_some, Option.some.injEq, Bool.not_eq_true]
    constructor
    · rintro ⟨hdir, rfl⟩
      exact ⟨file, ⟨rfl, hdir⟩, rfl⟩
    · rintro ⟨other, ⟨rfl, hdir⟩, rfl⟩
      exact ⟨hdir, rfl⟩

end Ways

/-! ## Plain paths -/

section Plain

variable {s : Store} {dir names : List Bytes} {name : Bytes}

/-- The path of a file from the root. -/
def absolute (file : List Bytes) : Bytes := Bytes.join [byte '/'] ([] :: file)

/-- The names of directories that are there lead down to the last of them. -/
theorem reaches_down (hnames : ∀ name ∈ names, Entry name)
    (hdir : s.isDirectory (dir.reverse ++ names)) :
    s.Reaches dir names (dir.reverse ++ names).reverse := by
  induction names generalizing dir with
  | nil => simpa using Reaches.here dir
  | cons name names ih =>
    rw [List.forall_mem_cons] at hnames
    have hsplit : dir.reverse ++ name :: names = (name :: dir).reverse ++ names := by simp
    rw [hsplit] at hdir ⊢
    exact .step (.down hnames.1 (isDirectory_above hdir (List.prefix_append _ _)))
      (ih hnames.2 hdir)

/-- A path from the root leads to its file, wherever the run takes place. -/
theorem leadsTo_absolute (hnames : ∀ piece ∈ dir ++ [name], Entry piece ∧ byte '/' ∉ piece)
    (hdir : s.isDirectory dir) : s.LeadsTo (absolute (dir ++ [name])) (dir ++ [name]) := by
  have hslash : ∀ piece ∈ [] :: (dir ++ [name]), byte '/' ∉ piece :=
    List.forall_mem_cons.mpr ⟨List.not_mem_nil, fun piece h => (hnames piece h).2⟩
  have horigin : s.origin (absolute (dir ++ [name])) = [] := by
    rw [origin, absolute, Bytes.join, List.intercalate_cons_of_ne_nil (by simp)]
    exact if_pos rfl
  refine ⟨[] :: dir, name, dir.reverse, Bytes.splitOn_join hslash (by simp), ?_,
    (hnames name (by simp)).1, by simp⟩
  rw [horigin]
  exact .step (.stay (.inl rfl)) (reaches_down (fun n hn => (hnames n (by simp [hn])).1) hdir)

/-- Each file can be read by its path from the root. -/
theorem read?_absolute {contents : Contents}
    (hnames : ∀ piece ∈ dir ++ [name], Entry piece ∧ byte '/' ∉ piece)
    (h : s.contents? (dir ++ [name]) = some contents) :
    s.read? (absolute (dir ++ [name])) = some contents :=
  read?_eq_some_iff.mpr ⟨_, leadsTo_absolute hnames (isDirectory_of_contents? h), h⟩

end Plain

/-! ## Writing -/

section Writing

variable {s : Store} {path name : Bytes} {dir names last file : List Bytes}

theorem Reaches.isDirectory (h : s.Reaches dir names last) (hdir : s.isDirectory dir.reverse) :
    s.isDirectory last.reverse := by
  induction h with
  | here => exact hdir
  | step first rest ih =>
    apply ih
    cases first with
    | stay => exact hdir
    | up =>
      refine isDirectory_above hdir ?_
      rw [List.reverse_prefix]
      exact List.tail_suffix _
    | down _ h => exact h

/-- The directory of the file that a path leads to is there. -/
theorem LeadsTo.exists_directory (h : s.LeadsTo path file) :
    ∃ parent name, file = parent ++ [name] ∧ s.isDirectory parent := by
  obtain ⟨front, name, last, -, hreaches, -, rfl⟩ := h
  refine ⟨last.reverse, name, List.reverse_cons, hreaches.isDirectory (isDirectory_iff.mpr (.inl ?_))⟩
  unfold origin
  split
  · exact List.nil_prefix
  · exact ⟨[], by rw [List.append_nil, List.reverse_reverse]⟩

theorem isDirectory_put {parent : List Bytes} (h : s.isDirectory parent) (text : Bytes) :
    (s.put (parent ++ [name]) text).isDirectory dir = s.isDirectory dir := by
  rw [Bool.eq_iff_iff]
  constructor
  · intro hdir
    rw [isDirectory_iff] at hdir ⊢
    obtain hdir | hdir | ⟨f, hf, hdir, hne⟩ := hdir
    · exact .inl hdir
    · exact .inr (.inl hdir)
    obtain rfl | hf := List.mem_cons.mp hf
    · -- what lies above the written file was a directory before
      obtain rfl | hdir := List.prefix_concat_iff.mp hdir
      · exact absurd rfl hne
      · exact isDirectory_iff.mp (isDirectory_above h hdir)
    · exact .inr (.inr ⟨f, (List.mem_filter.mp hf).1, hdir, hne⟩)
  · intro hdir
    rw [isDirectory_iff] at hdir ⊢
    obtain hdir | hdir | ⟨f, hf, hdir, hne⟩ := hdir
    · exact .inl hdir
    · exact .inr (.inl hdir)
    by_cases hfile : f.1 = parent ++ [name]
    · exact .inr (.inr ⟨_, List.mem_cons_self, hfile ▸ hdir, hfile ▸ hne⟩)
    · exact .inr (.inr ⟨f, List.mem_cons_of_mem _ (List.mem_filter.mpr ⟨hf, by simpa using hfile⟩),
        hdir, hne⟩)

/-- The files beside one hold what they held. -/
theorem lookup_filter_ne {files : List (List Bytes × Contents)} {other : List Bytes}
    (h : other ≠ file) : (files.filter (·.1 != file)).lookup other = files.lookup other := by
  induction files with
  | nil => rfl
  | cons f rest ih =>
    by_cases hf : f.1 = file
    · have hother : (other == f.1) = false := beq_eq_false_iff_ne.mpr (hf ▸ h)
      rw [List.filter_cons_of_neg (by simp [hf]), ih, List.lookup_cons, hother]
    · rw [List.filter_cons_of_pos (by simp [hf]), List.lookup_cons, List.lookup_cons, ih]

/-- One file holds a text afterwards. Every other file holds what it held before, and no directory
has come or gone. -/
structure Rewrites (before after : Store) (file : List Bytes) (text : Bytes) : Prop where
  written : after.contents? file = some (.text text)
  others : ∀ other, other ≠ file → after.contents? other = before.contents? other
  directories : ∀ dir, after.isDirectory dir = before.isDirectory dir
  working : after.working = before.working

theorem LeadsTo.rewrites (h : s.LeadsTo path file) (text : Bytes) :
    s.Rewrites (s.put file text) file text where
  written := List.lookup_cons_self
  others := by
    intro other hne
    rw [put, contents?, List.lookup_cons, beq_eq_false_iff_ne.mpr hne]
    exact lookup_filter_ne hne
  directories := by
    obtain ⟨parent, name, rfl, hparent⟩ := h.exists_directory
    exact fun dir => isDirectory_put hparent text
  working := rfl

end Writing

end Roar.CommandLine.Store
