import Roar.Proofs.CommandLine.Store
import Roar.Proofs.Compile.Diagnostics

/-!
# What a run leaves behind

A run is answered at once, or it opens its source, compiles it and delivers the output. `Ends` lists
the ways in which it can end, each with what leads to it (`Store.run_ends`): the output file is
written in one of them only, after everything else has gone well. So a run that fails leaves all
files as they were and prints nothing on the standard output, and one that succeeds delivers the
whole output in one place (`run_leaves_no_trace`).
-/

namespace Roar.CommandLine

/-- What compiling the source gives, if it has these contents. -/
def Config.compiled (c : Config) (contents : Contents) : Compiled :=
  (Roar.compile { text := contents.bytes, path := c.source } c.compile {}).1

/-- What a run delivers of it: its output and a line feed. -/
def Config.delivered (c : Config) (contents : Contents) : Bytes :=
  (c.compiled contents).output ++ ascii "\n"

/-- A compilation is asked for: neither help nor the version is. -/
def Config.Compiles (c : Config) : Prop := c.help = false ∧ c.version = false

/-- The source is there and not too large, and it can be compiled. -/
structure Config.Compilable (s : Store) (c : Config) (contents : Contents) : Prop where
  opened : s.Holds c.source contents
  size : contents.size ≤ sizeLimit
  succeeded : (c.compiled contents).succeeded

/-! ## Endings -/

/-- How a run can end: what led there, what it prints and the files afterwards. -/
inductive Ends (s : Store) (args : List Bytes) : Outcome → Store → Prop
  | misused {e : UsageError} {stderr : Bytes} (h : Config.ofArgs args = .error e) :
      Ends s args { status := 1, stderr } s
  | answered {c : Config} {stdout : Bytes} (h : Config.ofArgs args = .ok c) (hc : ¬ c.Compiles) :
      Ends s args { status := 0, stdout } s
  | failed {c : Config} {stderr : Bytes} (h : Config.ofArgs args = .ok c) (hc : c.Compiles)
      (hcompile : ∀ contents, ¬ c.Compilable s contents) :
      Ends s args { status := 1, stderr } s
  | printed {c : Config} {contents : Contents} {stderr : Bytes} (h : Config.ofArgs args = .ok c)
      (hc : c.Compiles) (hcompile : c.Compilable s contents) (houtput : c.output = []) :
      Ends s args { status := 0, stdout := c.delivered contents, stderr } s
  | unwritable {c : Config} {stderr : Bytes} (h : Config.ofArgs args = .ok c) (hc : c.Compiles)
      (houtput : c.output ≠ []) (hfile : ∀ file, ¬ s.Writable c.output file) :
      Ends s args { status := 1, stderr } s
  | written {c : Config} {contents : Contents} {file : List Bytes} {stderr : Bytes}
      (h : Config.ofArgs args = .ok c) (hc : c.Compiles) (hcompile : c.Compilable s contents)
      (houtput : c.output ≠ []) (hfile : s.Writable c.output file) :
      Ends s args { status := 0, stderr } (s.put file (c.delivered contents))

section Steps

variable {s : Store} {args : List Bytes} {c : Config} {contents : Contents}

/-- Compiling fails, or it succeeds and the output is to be printed or to be written. -/
theorem Config.deliver_cases (c : Config) (contents : Contents) :
    (∃ stderr, c.deliver contents.bytes = .done { status := 1, stderr } ∧
        ¬ (c.compiled contents).succeeded) ∨
      (c.compiled contents).succeeded ∧
        ((c.output = [] ∧ ∃ stderr, c.deliver contents.bytes =
            .done { status := 0, stdout := c.delivered contents, stderr }) ∨
          c.output ≠ [] ∧ ∃ stderr, c.deliver contents.bytes =
            .write c.output (c.delivered contents) stderr) := by
  unfold Config.deliver Config.delivered Config.compiled
  generalize Roar.compile { text := contents.bytes, path := c.source } c.compile {} = compiled
  obtain ⟨result, files⟩ := compiled
  by_cases hs : result.succeeded
  · refine .inr ⟨hs, ?_⟩
    by_cases ho : c.output = []
    · exact .inl ⟨ho, result.outlines, by simp only [hs, ho, if_true]⟩
    · exact .inr ⟨ho, result.outlines, by simp only [hs, ho, if_true, if_false]⟩
  · refine .inl ⟨result.outlines ++ result.report.render (some files), ?_, hs⟩
    simp only [hs, Bool.false_eq_true, if_false]

/-- The end of a run that has read its source. -/
theorem Store.settle_ends (h : Config.ofArgs args = .ok c) (hc : c.Compiles)
    (hopened : s.Holds c.source contents) (hsize : contents.size ≤ sizeLimit) :
    Ends s args (s.settle (c.deliver contents.bytes)).1
      (s.settle (c.deliver contents.bytes)).2 := by
  rcases c.deliver_cases contents with ⟨stderr, hd, hs⟩ | ⟨hs, ⟨ho, stderr, hd⟩ | ⟨ho, stderr, hd⟩⟩
  · rw [hd]
    refine .failed h hc fun contents' hcompile => hs ?_
    rw [hopened.unique hcompile.opened]
    exact hcompile.succeeded
  · rw [hd]
    exact .printed h hc ⟨hopened, hsize, hs⟩ ho
  · rw [hd]
    unfold settle
    cases hw : s.write? c.output (c.delivered contents) with
    | none =>
      simp only [hw]
      refine .unwritable h hc ho fun file hfile => ?_
      simp [write?_eq_some_iff.mpr ⟨file, hfile, rfl⟩] at hw
    | some after =>
      obtain ⟨file, hfile, rfl⟩ := write?_eq_some_iff.mp hw
      simp only [hw]
      exact .written h hc ⟨hopened, hsize, hs⟩ ho hfile

/-- Every run ends in one of these ways. -/
theorem Store.run_ends (s : Store) (args : List Bytes) :
    Ends s args (s.run args).1 (s.run args).2 := by
  unfold run plan
  cases h : Config.ofArgs args with
  | error e => exact .misused h
  | ok c =>
    by_cases hhelp : c.help
    · simp only [hhelp, if_true]
      exact .answered h fun hc => by simp [hc.1] at hhelp
    by_cases hversion : c.version
    · simp only [hhelp, hversion, Bool.false_eq_true, if_true, if_false]
      exact .answered h fun hc => by simp [hc.2] at hversion
    have hc : c.Compiles := ⟨by simpa using hhelp, by simpa using hversion⟩
    simp only [hhelp, hversion, Bool.false_eq_true, if_false]
    cases hread : s.read? c.source with
    | none =>
      refine .failed h hc fun contents hcompile => ?_
      cases hread.symm.trans (read?_eq_some_iff.mpr hcompile.opened)
    | some contents =>
      by_cases hsize : sizeLimit < contents.size
      · simp only [Config.refuse?, hsize, if_true]
        refine .failed h hc fun contents' hcompile => ?_
        rw [← (read?_eq_some_iff.mp hread).unique hcompile.opened] at hcompile
        exact absurd hcompile.size (Nat.not_le.mpr hsize)
      · simp only [Config.refuse?, hsize, if_false]
        exact settle_ends h hc (read?_eq_some_iff.mp hread) (Nat.not_lt.mp hsize)

end Steps

/-! ## Runs -/

/-- A compilation that succeeds reports nothing, and its output is the text of a program. -/
theorem delivered_of_succeeded {source : Source} {options : CompileOptions} {files : Registry}
    (h : (Roar.compile source options files).1.succeeded) :
    (Roar.compile source options files).1.Delivered options.target := by
  rw [compile_fst] at h ⊢
  obtain ⟨d, hrejected, -⟩ | ⟨-, ⟨-, hdelivered⟩ | ⟨-, d, huntargeted⟩⟩ :=
    compileFile_cases source.text (source.file.getD (files.add source.path).1) options
  · exact hrejected.failed.succeeded_iff.mp h
  · exact hdelivered
  · exact huntargeted.failed.succeeded_iff.mp h

/-- The run can do all that is asked of it. -/
def Config.Feasible (s : Store) (c : Config) : Prop :=
  c.Compiles → (∃ contents, c.Compilable s contents) ∧
    (c.output ≠ [] → ∃ file, s.Writable c.output file)

/-- A text has gone to one place: it was printed and all files are as they were, or it was written
to the output file and all others are as they were. -/
def Config.DeliversOnce (c : Config) (text : Bytes) (before after : Store) (stdout : Bytes) :
    Prop :=
  (c.output = [] ∧ stdout = text ∧ after = before) ∨
    (c.output ≠ [] ∧ stdout = [] ∧
      ∃ file, before.LeadsTo c.output file ∧ before.Rewrites after file text)

namespace Ends

variable {s after : Store} {args : List Bytes} {o : Outcome} {c : Config}

theorem no_trace (hends : Ends s args o after) (hne : o.status ≠ 0) :
    o.stdout = [] ∧ after = s := by
  cases hends with
  | misused | failed | unwritable => exact ⟨rfl, rfl⟩
  | answered | printed | written => exact absurd rfl hne

theorem delivers (hends : Ends s args o after) (hargs : Config.ofArgs args = .ok c)
    (hc : c.Compiles) (hstatus : o.status = 0) :
    ∃ contents, s.Holds c.source contents ∧
      (c.compiled contents).Delivered c.compile.target ∧
        c.DeliversOnce (c.delivered contents) s after o.stdout := by
  cases hends with
  | misused | failed | unwritable => cases hstatus
  | answered h hnot =>
    cases h.symm.trans hargs
    exact absurd hc hnot
  | @printed c' contents _ h _ hcompile houtput =>
    cases h.symm.trans hargs
    exact ⟨contents, hcompile.opened, delivered_of_succeeded hcompile.succeeded,
      .inl ⟨houtput, rfl, rfl⟩⟩
  | @written c' contents file _ h _ hcompile houtput hfile =>
    cases h.symm.trans hargs
    exact ⟨contents, hcompile.opened, delivered_of_succeeded hcompile.succeeded,
      .inr ⟨houtput, rfl, file, hfile.1, hfile.1.rewrites _⟩⟩

theorem status_eq_zero_iff (hends : Ends s args o after) :
    o.status = 0 ↔ ∃ c, Config.ofArgs args = .ok c ∧ c.Feasible s := by
  cases hends with
  | misused h => simp [h]
  | answered h hnot => exact iff_of_true rfl ⟨_, h, fun hc => absurd hc hnot⟩
  | failed h hc hcompile =>
    refine iff_of_false Nat.one_ne_zero ?_
    rintro ⟨c, hargs, hfeasible⟩
    cases h.symm.trans hargs
    obtain ⟨⟨contents, hcontents⟩, -⟩ := hfeasible hc
    exact hcompile contents hcontents
  | printed h hc hcompile houtput =>
    exact iff_of_true rfl ⟨_, h, fun _ => ⟨⟨_, hcompile⟩, fun hne => absurd houtput hne⟩⟩
  | unwritable h hc houtput hfile =>
    refine iff_of_false Nat.one_ne_zero ?_
    rintro ⟨c, hargs, hfeasible⟩
    cases h.symm.trans hargs
    obtain ⟨file, hwritable⟩ := (hfeasible hc).2 houtput
    exact hfile file hwritable
  | written h hc hcompile houtput hfile =>
    exact iff_of_true rfl ⟨_, h, fun _ => ⟨⟨_, hcompile⟩, fun _ => ⟨_, hfile⟩⟩⟩

end Ends

/-- A run that fails prints nothing on the standard output and leaves all files as they were. One
that succeeds, and was not asked for help or the version, has compiled its source without a
diagnostic and delivered the output in one place. A run fails only if the command line is wrong, the
source is not there or cannot be compiled, or the directory of the output file is not there. -/
theorem run_leaves_no_trace (s : Store) (args : List Bytes) :
    ((s.run args).1.status ≠ 0 → (s.run args).1.stdout = [] ∧ (s.run args).2 = s) ∧
    (∀ c, Config.ofArgs args = .ok c → c.Compiles → (s.run args).1.status = 0 →
      ∃ contents, s.Holds c.source contents ∧
        (c.compiled contents).Delivered c.compile.target ∧
          c.DeliversOnce (c.delivered contents) s (s.run args).2 (s.run args).1.stdout) ∧
    ((s.run args).1.status = 0 ↔ ∃ c, Config.ofArgs args = .ok c ∧ c.Feasible s) := by
  have hends := s.run_ends args
  exact ⟨hends.no_trace, fun _ => hends.delivers, hends.status_eq_zero_iff⟩

/-- The source may lie beside the working directory, and the output in an empty one that is named
from the root. -/
example :
    (Store.run
      { files := [([ascii "w", ascii "a.lion"], .text (ascii "roar -hi-"))]
        directories := [[ascii "tmp"]]
        working := [ascii "home"] }
      [ascii "../w/a.lion", ascii "-o", ascii "/tmp/out.js"]).2.contents?
        [ascii "tmp", ascii "out.js"] = some (.text (ascii "console.log(\"hi\");\n")) := by
  decide +kernel

end Roar.CommandLine
