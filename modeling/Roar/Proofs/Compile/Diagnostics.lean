import Roar.Compile
import Roar.Proofs.Compile.Places
import Roar.Proofs.Grammar.Calls
import Roar.Proofs.Token.Tiling

/-!
# One failure, one diagnostic

A compilation ends with a program and its text, or with one error. An error in the source stands at an
offset of it (`InSource`): what the parser reports stands at a token or at the beginning of a comment
(`parse_error`), and what analysis finds stands at a place of the tree (`analyze_error`). Every message
says what is wrong (`unexplained`): a parser that fails has reported something (`mem_report_of_parse`),
and so has an analyzer, because every conditional of a parsed tree has an arm (`analyze_eq_error`). The
result is `compile_reports_once`.
-/

namespace Roar

open Byte

/-- The place is that of an offset of the source. -/
def InSource (file : Nat) (source : Bytes) (l : Location) : Prop :=
  ∃ offset ≤ source.length, l = placeAt file source offset

/-- The messages of failures that nobody has explained. -/
def unexplained : List Bytes := [ascii "syntax error", ascii "semantic analysis failed"]

/-- They are told from others by their first letter. -/
theorem not_unexplained {message : Bytes} {c : UInt8} (h : message.head? = some c)
    (hc : c ≠ byte 's') : message ∉ unexplained := by
  intro hmem
  unfold unexplained at hmem
  simp only [List.mem_cons, List.not_mem_nil, or_false] at hmem
  obtain rfl | rfl := hmem
  · exact hc (Option.some.inj h).symm
  · exact hc (Option.some.inj h).symm

theorem ScanError.explained (cause : ScanError) : cause.message ∉ unexplained := by
  cases cause <;> exact not_unexplained rfl (by decide)

theorem SemanticError.explained (e : SemanticError) : e.message ∉ unexplained := by
  cases e <;> exact not_unexplained rfl (by decide)

theorem TargetError.explained (e : TargetError) : e.message ∉ unexplained := by
  cases e <;> exact not_unexplained rfl (by decide)

/-! ## Tokens -/

namespace Scanner

variable {file done : Nat} {source : Bytes} {s : Scanner}

/-- A token stands in the source, and so does its fault if it is one. -/
theorem At.inSource (h : s.At file source done) :
    InSource file source s.next.1.location ∧
      ∀ d, s.next.1.diagnostic? = some d → InSource file source d.location := by
  obtain ⟨start, hstands, -⟩ := h.next
  obtain ⟨gap, hsteps⟩ := s.next_steps
  generalize s.next.1 = t at hstands hsteps ⊢
  generalize s.next.2 = s' at hsteps
  have hinside := hstands.inside
  have htoken : InSource file source t.location := ⟨start, by omega, hstands.location⟩
  refine ⟨htoken, fun d hd => ?_⟩
  unfold Token.diagnostic? at hd
  split at hd
  · rename_i cause value hfault
    cases hd
    cases cause with
    | unterminatedComment begin =>
      obtain ⟨blank, comment, rfl, rfl⟩ := hsteps.reported begin value hfault
      have hrest : source.drop done =
          blank ++ (byte '~' :: comment ++ (t.text ++ s'.rest)) := by
        rw [← h.rest, hsteps.source]
        simp only [List.append_assoc, List.cons_append]
      have hlength := congrArg List.length hrest
      simp only [List.length_drop, List.length_append] at hlength
      have hdone := h.inside
      refine ⟨done + blank.length, by omega, ?_⟩
      rw [placeAt_add file source done hrest, ← h.location]
      rfl
    | _ => exact htoken
  · cases hd

theorem At.collect_inSource {last : Lexeme → Bool} {n : Nat} (h : s.At file source done) :
    ∀ t ∈ collect last n s, InSource file source t.location ∧
      ∀ d, t.diagnostic? = some d → InSource file source d.location := by
  induction n generalizing s done with
  | zero => simp [collect]
  | succ n ih =>
    obtain ⟨start, -, hnext⟩ := h.next
    simp only [collect]
    split
    · intro t ht
      rw [List.mem_singleton.mp ht]
      exact h.inSource
    · exact List.forall_mem_cons.mpr ⟨h.inSource, ih hnext⟩

end Scanner

/-! ## Parsing -/

namespace Grammar

open Roar.Grammar.Parser (Behind)

private theorem faults_ne_nil {t : Token} (h : t.lexeme.isFault) : faults [t] ≠ [] := by
  unfold faults Token.diagnostic?
  cases hx : t.lexeme with
  | fault cause value => simp [hx]
  | _ =>
    rw [hx] at h
    cases h

/-- A rule that fails, where nothing was missing before, leaves a report. -/
theorem Outcome.entries_ne_nil {α : Type} {least d k : Nat} {p : Parser}
    {x y : Option α × Parser} {ts : List Token} (h : Outcome least d p x y) (hp : Behind ts k [] p)
    (hsound : p.failed = false) (hnone : x.1 = none) : x.2.report.entries ≠ [] := by
  cases h with
  | done => cases hnone
  | @missed j _ p' _ what moved _ _ =>
    have hfailed : p'.failed = false := moved.failed.trans hsound
    have hbehind := hp.goes moved
    obtain ⟨t, ht, hsame⟩ := hbehind.tokens
    simp only [Parser.miss, hfailed, Bool.false_or]
    split
    · -- nothing is reported here, but the fault itself was when it became the current token
      rename_i hfault
      rw [hbehind.report, hbehind.faults_seen ht]
      exact faults_ne_nil (hsame.lexeme ▸ hfault)
    · simp [Report.add]
  | halted moved _ _ failed =>
    rw [moved.failed, hsound] at failed
    cases failed

/-- A source that cannot be parsed leaves a report, of which the diagnostic is a part. -/
theorem mem_report_of_parse {source : Bytes} {file : Nat} {d : Diagnostic}
    (h : parse source file = .error d) :
    d ∈ (Parser.start source file).program.2.report.entries := by
  obtain ⟨e, halike, hbehind⟩ := Parser.start_alike source file
  have hsound : (Parser.start source file).failed = false := by
    unfold Parser.start Parser.ofTokens
    split <;> rfl
  have hreported := (Parser.perform_outcome halike .program).entries_ne_nil hbehind hsound
  obtain ⟨-, -, hearliest⟩ := Parser.program_report source file 0
  simp only [Parser.perform, Option.map_eq_none_iff] at hreported
  unfold parse at h
  generalize (Parser.start source file).program = run at h hreported hearliest ⊢
  obtain ⟨tree, p⟩ := run
  have hmem (hne : p.report.entries ≠ [])
      (hd : (earliest? p.report).getD
        (.error (.start file) (ascii "syntax error") Diagnostic.syntaxCode) = d) :
      d ∈ p.report.entries := by
    obtain ⟨first, rest, hentries⟩ := List.exists_cons_of_ne_nil hne
    simp only [hearliest, hentries, List.head?_cons, Option.getD_some] at hd
    rw [hentries, ← hd]
    exact List.mem_cons_self
  cases tree with
  | none => exact hmem (hreported rfl) (Except.error.inj h)
  | some tree =>
    simp only at h
    split at h
    · cases h
    · rename_i herrors
      refine hmem (fun hnil => herrors ?_) (Except.error.inj h)
      simp [Report.errors, Report.count, hnil]

/-- A source that cannot be parsed has an error at one of its offsets. -/
theorem parse_error {source : Bytes} {file : Nat} {d : Diagnostic}
    (h : parse source file = .error d) :
    d.severity = .error ∧ d.code = Diagnostic.syntaxCode ∧ d.message ∉ unexplained ∧
      InSource file source d.location := by
  obtain ⟨e, halike, hbehind⟩ := Parser.start_alike source file
  obtain ⟨j, e', own, -, hafter, -⟩ := (Parser.perform_outcome halike .program).behind hbehind
  obtain ⟨t, ht, hwhat⟩ := hafter.mem_report (mem_report_of_parse h)
  obtain ⟨htoken, hfault⟩ := (Scanner.At.start file source).collect_inSource t ht
  obtain ⟨what, rfl⟩ | hdiagnostic := hwhat
  · exact ⟨rfl, rfl, not_unexplained rfl (by decide), htoken⟩
  · have hplace := hfault d hdiagnostic
    unfold Token.diagnostic? at hdiagnostic
    split at hdiagnostic
    · rename_i cause _ _
      cases hdiagnostic
      exact ⟨rfl, rfl, cause.explained, hplace⟩
    · cases hdiagnostic

end Grammar

/-! ## Analysis -/

/-- The places of a tree are those of offsets of its source. -/
theorem statements_placed {source : Bytes} {file : Nat} {tree : Grammar.Tree}
    (h : Grammar.parse source file = .ok tree) :
    Grammar.Stmt.PlacedList (InSource file source) tree.statements := by
  obtain ⟨q, hprogram⟩ := Grammar.program_of_parse h
  obtain ⟨-, ts, stop, hts, -, hderives⟩ :=
    Grammar.Parse.program_reads (Grammar.start_at source file) hprogram
  apply hderives.placed
  intro t ht
  have hread : t ∈ Scanner.readable source file := hts ▸ List.mem_append_left _ ht
  exact ((Scanner.At.start file source).collect_inSource t hread).1

/-- A tree that has no program has an error at an offset of its source. -/
theorem analyze_error {source : Bytes} {file : Nat} {tree : Grammar.Tree} {d : Diagnostic}
    (h : Grammar.parse source file = .ok tree) (hd : analyze tree = .error d) :
    d.severity = .error ∧ d.code = Diagnostic.semanticCode ∧ d.message ∉ unexplained ∧
      InSource file source d.location := by
  obtain ⟨fault, hfault, rfl⟩ := analyze_eq_error (Grammar.aligned_of_parse h) hd
  have hwithin := analyzeStmts_within tree.statements (statements_placed h) fault hfault
  exact ⟨rfl, rfl, fault.error.explained, hwithin⟩

/-! ## Compiling -/

namespace Compiled

/-- There is no diagnostic, and the output is the text of the program. -/
def Delivered (c : Compiled) (target : Bytes) : Prop :=
  c.report.entries = [] ∧ ∃ program, c.program = some program ∧ generate program target = .ok c.output

/-- There is one diagnostic, an error that says what is wrong, and no output. -/
structure Failed (c : Compiled) (d : Diagnostic) : Prop where
  report : c.report.entries = [d]
  severity : d.severity = .error
  explained : d.message ∉ unexplained
  output : c.output = []

/-- The source is at fault: it cannot be parsed, or the tree cannot be analysed. -/
structure Rejected (c : Compiled) (text : Bytes) (d : Diagnostic) : Prop where
  failed : c.Failed d
  program : c.program = none
  place : InSource c.file text d.location
  stage : d.code = Diagnostic.syntaxCode ∧ Grammar.parse text c.file = .error d ∨
    d.code = Diagnostic.semanticCode ∧
      ∃ tree, Grammar.parse text c.file = .ok tree ∧ analyze tree = .error d

/-- The target is at fault. -/
structure Untargeted (c : Compiled) (d : Diagnostic) : Prop where
  failed : c.Failed d
  program : ∃ program, c.program = some program
  place : d.location = {}
  code : d.code = Diagnostic.targetCode

end Compiled

theorem generate_eq_ok {p : Program} {target : Bytes} :
    (∃ output, generate p target = .ok output) ↔ target = ascii "js" := by
  unfold generate
  constructor
  · rintro ⟨output, h⟩
    split at h
    · cases h
    · split at h
      · rename_i hjs
        exact hjs
      · cases h
  · rintro rfl
    exact ⟨p.script, rfl⟩

theorem analyzeSource_eq_ok {text : Bytes} {file : Nat} {program : Program} :
    analyzeSource text file = .ok program ↔
      ∃ tree, Grammar.parse text file = .ok tree ∧ analyze tree = .ok program := by
  unfold analyzeSource
  cases Grammar.parse text file with
  | error d => simp [Bind.bind, Except.bind]
  | ok tree => simp [Bind.bind, Except.bind]

theorem analyzeSource_eq_error {text : Bytes} {file : Nat} {d : Diagnostic} :
    analyzeSource text file = .error d ↔ Grammar.parse text file = .error d ∨
      ∃ tree, Grammar.parse text file = .ok tree ∧ analyze tree = .error d := by
  unfold analyzeSource
  cases Grammar.parse text file with
  | error d => simp [Bind.bind, Except.bind]
  | ok tree => simp [Bind.bind, Except.bind]

theorem compileFile_rejected {text : Bytes} {file : Nat} {d : Diagnostic}
    (h : analyzeSource text file = .error d) (options : CompileOptions) :
    (compileFile text file options).Rejected text d := by
  unfold compileFile
  rw [h]
  obtain hparse | ⟨tree, hparse, hanalyze⟩ := analyzeSource_eq_error.mp h
  · obtain ⟨hseverity, hcode, hmessage, hplace⟩ := Grammar.parse_error hparse
    exact ⟨⟨rfl, hseverity, hmessage, rfl⟩, rfl, hplace, .inl ⟨hcode, hparse⟩⟩
  · obtain ⟨hseverity, hcode, hmessage, hplace⟩ := analyze_error hparse hanalyze
    exact ⟨⟨rfl, hseverity, hmessage, rfl⟩, rfl, hplace, .inr ⟨hcode, tree, hparse, hanalyze⟩⟩

theorem compileFile_delivered {text : Bytes} {file : Nat} {program : Program}
    {options : CompileOptions} (h : analyzeSource text file = .ok program)
    (htarget : options.target = ascii "js") :
    (compileFile text file options).Delivered options.target := by
  unfold compileFile
  rw [h]
  simp only
  generalize (if options.optimize then program.optimize else program) = final
  obtain ⟨output, houtput⟩ := (generate_eq_ok (p := final)).mpr htarget
  rw [houtput]
  exact ⟨rfl, final, rfl, houtput⟩

theorem compileFile_untargeted {text : Bytes} {file : Nat} {program : Program}
    {options : CompileOptions} (h : analyzeSource text file = .ok program)
    (htarget : options.target ≠ ascii "js") :
    ∃ d, (compileFile text file options).Untargeted d := by
  unfold compileFile
  rw [h]
  simp only
  cases hgenerate : generate (if options.optimize then program.optimize else program)
    options.target with
  | ok output => exact absurd (generate_eq_ok.mp ⟨output, hgenerate⟩) htarget
  | error e => exact ⟨e.diagnostic, ⟨rfl, rfl, e.explained, rfl⟩, ⟨_, rfl⟩, rfl, rfl⟩

/-- The stages of a compilation, as far as they come. -/
theorem compileFile_cases (text : Bytes) (file : Nat) (options : CompileOptions) :
    (∃ d, (compileFile text file options).Rejected text d ∧ analyzeSource text file = .error d) ∨
    (∃ program, analyzeSource text file = .ok program) ∧
      (options.target = ascii "js" ∧ (compileFile text file options).Delivered options.target ∨
        options.target ≠ ascii "js" ∧ ∃ d, (compileFile text file options).Untargeted d) := by
  cases h : analyzeSource text file with
  | error d => exact .inl ⟨d, compileFile_rejected h options, rfl⟩
  | ok program =>
    refine .inr ⟨⟨program, rfl⟩, ?_⟩
    by_cases htarget : options.target = ascii "js"
    · exact .inl ⟨htarget, compileFile_delivered h htarget⟩
    · exact .inr ⟨htarget, compileFile_untargeted h htarget⟩

theorem compile_fst (source : Source) (options : CompileOptions) (files : Registry) :
    (compile source options files).1 =
      compileFile source.text (source.file.getD (files.add source.path).1) options := by
  unfold compile
  cases source.file <;> rfl

namespace Compiled

variable {c : Compiled} {d : Diagnostic} {target text : Bytes}

theorem Failed.not_delivered (h : c.Failed d) : ¬ c.Delivered target := by
  rintro ⟨hnone, -⟩
  rw [h.report] at hnone
  cases hnone

theorem Failed.succeeded_iff (h : c.Failed d) : c.succeeded ↔ c.Delivered target := by
  have hnot : c.succeeded = false := by
    simp [succeeded, Report.errors, Report.count, h.report, h.severity]
  rw [hnot]
  exact iff_of_false Bool.false_ne_true h.not_delivered

theorem Delivered.succeeded (h : c.Delivered target) : c.succeeded := by
  simp [Compiled.succeeded, Report.errors, Report.count, h.1]

end Compiled

end Roar
