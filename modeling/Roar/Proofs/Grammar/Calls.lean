import Roar.Proofs.Grammar.Agreement
import Roar.Proofs.Grammar.Soundness
import Roar.Proofs.Token.Stream

/-!
# Calls of a parser

A parser can be asked for an expression, a statement or a program, again and again, also after it has
failed (`Call`, `Parser.performAll`). Here it is given all tokens of its source, those behind a fault
too, and the end of input any number of times (`Parser.live`): if a rule passed a fault or the end, it
would be seen.

`Parser.Behind` says where a parser is among its tokens and what it has reported. `Outcome.behind` is
what one rule does to it and `Parser.Behind.performAll` what any number of calls do. The result is
`calls_stop_at_fault`: no fault is passed and nothing is reported twice.
-/

namespace Roar.Grammar

/-- What a parser can be asked for. -/
inductive Call where
  | expression
  | statement
  | program
deriving DecidableEq, Repr

/-- What a parser answers. -/
inductive Answer where
  | expression (value : Expr)
  | statement (value : Stmt)
  | program (tree : Tree)

namespace Parser

/-- One call. -/
def perform (p : Parser) : Call → Option Answer × Parser
  | .expression => (p.expression.1.map .expression, p.expression.2)
  | .statement => (p.statement.1.map .statement, p.statement.2)
  | .program => (p.program.1.map .program, p.program.2)

/-- One call after the other, with the answers. -/
def performAll (p : Parser) : List Call → List (Option Answer) × Parser
  | [] => ([], p)
  | call :: calls =>
    ((p.perform call).1 :: ((p.perform call).2.performAll calls).1,
      ((p.perform call).2.performAll calls).2)

/-- The tokens of a source, and the end of input so many times more. -/
def liveTokens (source : Bytes) (file extra : Nat) : List Token :=
  Scanner.stream (Scanner.tokenLimit source + extra) (Scanner.start source file)

/-- The parser of a source that does not stop at a fault by itself. -/
def live (source : Bytes) (file extra : Nat) : Parser := ofTokens (liveTokens source file extra)

/-! ## Where a parser stands -/

/-- The diagnostic of a token in the place of something else. -/
def missing (what : Expected) (t : Token) : Diagnostic :=
  .error t.location (ascii "expected " ++ what.text ++ ascii " but found " ++ t.describe)
    Diagnostic.syntaxCode

/-- The parser has passed `k` of the tokens, none of them final. It has reported the faults that it has
seen, and before them what it missed itself, if anything. -/
structure Behind (ts : List Token) (k : Nat) (own : List Diagnostic) (p : Parser) : Prop where
  tokens : ∃ t, ts.drop k = t :: p.ahead ∧ SameToken t p.current
  passed : ∀ t ∈ ts.take k, isFinal t.lexeme = false
  report : p.report.entries = own ++ faults (ts.take (k + 1))
  once : own.length ≤ 1
  missed : ∀ m ∈ own, ∃ t ∈ ts, ∃ what, m = missing what t
  failed : own ≠ [] → p.failed

variable {ts : List Token} {k d : Nat} {own : List Diagnostic} {p q : Parser}

theorem faults_eq_nil {us : List Token} (h : ∀ t ∈ us, t.lexeme.isFault = false) :
    faults us = [] := by
  unfold faults
  rw [List.filterMap_eq_nil_iff]
  intro t ht
  have hsound := h t ht
  unfold Token.diagnostic?
  split
  · rename_i hfault
    rw [hfault] at hsound
    cases hsound
  · rfl

theorem isFault_of_isFinal {x : Lexeme} (h : isFinal x = false) : x.isFault = false := by
  cases x with
  | fault => cases h
  | _ => rfl

theorem isFinal_of_isFault {x : Lexeme} (h : x.isFault) : isFinal x := by
  unfold isFinal
  rw [h, Bool.or_true]

theorem entries_noteFault (report : Report) (t : Token) :
    (noteFault report t).entries = report.entries ++ faults [t] := by
  unfold noteFault faults
  cases hd : t.diagnostic? with
  | none => simp [hd]
  | some d => simp [hd, Report.add]

theorem faults_append (ts us : List Token) : faults (ts ++ us) = faults ts ++ faults us :=
  List.filterMap_append

theorem drop_succ {t : Token} {us : List Token} (h : ts.drop k = t :: us) : ts.drop (k + 1) = us := by
  rw [← List.tail_drop, h]
  rfl

theorem take_succ {t : Token} {us : List Token} (h : ts.drop k = t :: us) :
    ts.take (k + 1) = ts.take k ++ [t] := by
  rw [List.take_add_one, ← List.head?_drop, h]
  rfl

namespace Behind

theorem ofTokens {t : Token} {us : List Token} : Behind (t :: us) 0 [] (ofTokens (t :: us)) where
  tokens := ⟨t, rfl, rfl, rfl, rfl⟩
  passed := by simp
  report := entries_noteFault {} t
  once := by simp
  missed := by simp
  failed h := absurd rfl h

/-- Of the tokens seen so far, only the current one can be a fault. -/
theorem faults_seen {t : Token} {us : List Token} (h : Behind ts k own p)
    (ht : ts.drop k = t :: us) : faults (ts.take (k + 1)) = faults [t] := by
  have hpassed : faults (ts.take k) = [] :=
    faults_eq_nil fun u hu => isFault_of_isFinal (h.passed u hu)
  rw [take_succ ht, faults_append, hpassed, List.nil_append]

theorem length_faults_le (h : Behind ts k own p) : (faults (ts.take (k + 1))).length ≤ 1 := by
  obtain ⟨t, ht, -⟩ := h.tokens
  rw [h.faults_seen ht]
  exact List.length_filterMap_le _ _

theorem uncomment (h : Behind ts k own p) :
    Behind ts k own { p with current := { p.current with comments := [] } } := by
  obtain ⟨t, ht, hsame⟩ := h.tokens
  exact ⟨⟨t, ht, hsame.lexeme, hsame.text, hsame.location⟩, h.passed, h.report, h.once, h.missed,
    h.failed⟩

theorem advance (h : Behind ts k own p) (hpassed : isFinal p.current.lexeme = false)
    (hmore : p.ahead ≠ []) : Behind ts (k + 1) own p.advance := by
  obtain ⟨t, ht, hsame⟩ := h.tokens
  obtain ⟨current, ahead, failed, report⟩ := p
  cases ahead with
  | nil => exact absurd rfl hmore
  | cons u us =>
    have hdrop : ts.drop (k + 1) = u :: us := drop_succ ht
    refine ⟨⟨u, hdrop, rfl, rfl, rfl⟩, ?_, ?_, h.once, h.missed, h.failed⟩
    · rw [take_succ ht]
      intro v hv
      rw [List.mem_append, List.mem_singleton] at hv
      obtain hv | rfl := hv
      · exact h.passed v hv
      · rw [hsame.lexeme]
        exact hpassed
    · have hreport := h.report
      rw [take_succ hdrop, faults_append, ← List.append_assoc, ← hreport]
      exact entries_noteFault report u

theorem goes {j : Nat} (h : Behind ts k own p) (hgoes : Goes j p q) : Behind ts (k + j) own q := by
  induction hgoes with
  | refl => exact h
  | uncomment _ ih => exact (ih h).uncomment
  | advance _ passed more ih => exact (ih h).advance passed more

/-- What is missing is reported, if nothing was missing before and the current token is no fault. -/
theorem miss (h : Behind ts k own p) (what : Expected) :
    ∃ own', Behind ts k own' (p.miss what) ∧ (p.failed → own' = own) ∧
      (own = [] → (p.miss what).report.entries.length ≤ 1) := by
  obtain ⟨t, ht, hsame⟩ := h.tokens
  unfold Parser.miss
  split
  · refine ⟨own, ⟨h.tokens, h.passed, h.report, h.once, h.missed, fun _ => rfl⟩, fun _ => rfl, ?_⟩
    rintro rfl
    rw [h.report]
    exact h.length_faults_le
  · rename_i hnew
    simp only [Bool.or_eq_true, not_or, Bool.not_eq_true] at hnew
    obtain ⟨hfailed, hsound⟩ := hnew
    have hown : own = [] := by
      by_cases howned : own = []
      · exact howned
      · have := h.failed howned
        simp [hfailed] at this
    have hseen : faults (ts.take (k + 1)) = [] := by
      rw [h.faults_seen ht, faults_eq_nil]
      intro u hu
      rw [List.mem_singleton] at hu
      rw [hu, hsame.lexeme, hsound]
    have hnone : p.report.entries = [] := by rw [h.report, hown, hseen, List.append_nil]
    have hdescribe : p.current.describe = t.describe := by
      unfold Token.describe
      rw [hsame.lexeme, hsame.text]
    have hmissing : Diagnostic.error p.current.location
        (ascii "expected " ++ what.text ++ ascii " but found " ++ p.current.describe)
        Diagnostic.syntaxCode = missing what t := by
      rw [hdescribe, ← hsame.location]
      rfl
    have hmem : t ∈ ts := List.mem_of_mem_drop (ht ▸ List.mem_cons_self)
    simp only [hmissing, Report.add, hnone, List.nil_append]
    refine ⟨[missing what t], ⟨⟨t, ht, hsame⟩, h.passed, ?_, Nat.le_refl 1, ?_, fun _ => rfl⟩, ?_, ?_⟩
    · rw [hseen, List.append_nil]
    · intro m hm
      exact ⟨t, hmem, what, List.mem_singleton.mp hm⟩
    · intro hfailed'
      simp [hfailed] at hfailed'
    · intro _
      exact Nat.le_refl 1

end Behind

theorem Goes.failed {j : Nat} (h : Goes j p q) : q.failed = p.failed := by
  induction h with
  | refl => rfl
  | uncomment _ ih => exact ih
  | advance _ _ _ ih =>
    rw [← ih]
    unfold Parser.advance
    split <;> rfl

theorem Goes.length_ahead {j : Nat} (h : Goes j p q) : q.ahead.length + j = p.ahead.length := by
  induction h with
  | refl => rfl
  | uncomment _ ih => exact ih
  | @advance j p q _ _ more ih =>
    obtain ⟨current, ahead, failed, report⟩ := q
    cases ahead with
    | nil => exact absurd rfl more
    | cons t us =>
      simp only [Parser.advance, List.length_cons] at ih ⊢
      omega

theorem failed_miss (p : Parser) (what : Expected) : (p.miss what).failed := by
  unfold Parser.miss
  split <;> rfl

theorem ahead_miss (p : Parser) (what : Expected) : (p.miss what).ahead = p.ahead := by
  unfold Parser.miss
  split <;> rfl

end Parser

open Roar.Grammar.Parser (Alike Behind Goes)

/-! ## What one call does -/

namespace Outcome

variable {α β : Type} {least d k : Nat} {p : Parser} {x y : Option α × Parser} {ts : List Token}
  {own : List Diagnostic}

theorem map (f : α → β) (h : Outcome least d p x y) :
    Outcome least d p (x.1.map f, x.2) (y.1.map f, y.2) := by
  cases h with
  | done moved enough left alike => exact .done moved enough left alike
  | missed moved left alike => exact .missed moved left alike
  | halted moved left alike failed => exact .halted moved left alike failed

theorem answers_eq (h : Outcome least d p x y) : x.1 = y.1 := by
  cases h <;> rfl

/-- A rule gives no result only if something is missing. -/
theorem failed_of_none (h : Outcome least d p x y) (hnone : x.1 = none) : x.2.failed := by
  cases h with
  | done => cases hnone
  | missed => exact Parser.failed_miss _ _
  | halted _ _ _ failed => exact failed

/-- A rule that gives a result has taken the tokens that it takes at least. -/
theorem shorter_of_some {a : α} (h : Outcome least d p x y) (hsome : x.1 = some a) :
    x.2.ahead.length + least ≤ p.ahead.length := by
  cases h with
  | done moved enough =>
    have := moved.length_ahead
    simp only
    omega
  | missed => cases hsome
  | halted => cases hsome

/-- Where a parser stands after a rule. -/
theorem behind (h : Outcome least d p x y) (hp : Behind ts k own p) :
    ∃ j e own', e + j = d ∧ Behind ts (k + j) own' x.2 ∧ Alike e x.2 y.2 ∧
      (p.failed → x.2.failed ∧ own' = own) := by
  cases h with
  | done moved _ left alike =>
    exact ⟨_, _, own, left, hp.goes moved, alike, fun hf => ⟨moved.failed ▸ hf, rfl⟩⟩
  | missed moved left alike =>
    obtain ⟨own', hbehind, hsilent, -⟩ := (hp.goes moved).miss _
    refine ⟨_, _, own', left, hbehind, alike.miss _, fun hf => ?_⟩
    exact ⟨Parser.failed_miss _ _, hsilent (moved.failed ▸ hf)⟩
  | halted moved left alike failed =>
    exact ⟨_, _, own, left, hp.goes moved, alike, fun hf => ⟨moved.failed ▸ hf, rfl⟩⟩

/-- A rule that begins with nothing missing reports once. -/
theorem length_report_le (h : Outcome least d p x y) (hp : Behind ts k [] p) :
    x.2.report.entries.length ≤ 1 := by
  have hgone {j : Nat} {q : Parser} (moved : Goes j p q) : q.report.entries.length ≤ 1 := by
    have hbehind := hp.goes moved
    rw [hbehind.report]
    exact hbehind.length_faults_le
  cases h with
  | done moved => exact hgone moved
  | missed moved =>
    obtain ⟨-, -, -, hreport⟩ := (hp.goes moved).miss _
    exact hreport rfl
  | halted moved => exact hgone moved

end Outcome

namespace Parser

variable {ts : List Token} {k d : Nat} {own : List Diagnostic} {p q : Parser}

theorem AlikeAhead.le_length {x : Lexeme} {ts us : List Token} (h : AlikeAhead d x ts us) :
    d ≤ ts.length ∧ d ≤ us.length := by
  induction h with
  | final => exact ⟨Nat.zero_le _, Nat.zero_le _⟩
  | next _ _ ih =>
    simp only [List.length_cons]
    omega

theorem AlikeAhead.eq_zero {x : Lexeme} {ts us : List Token} (h : AlikeAhead d x ts us)
    (hx : isFinal x) : d = 0 := by
  cases h with
  | final => rfl
  | next passed => simp [passed] at hx

/-- Both parsers have fuel for the tokens up to the first final one. -/
theorem Alike.fuel (h : Alike d p q) (need : Nat) (hneed : need ≤ 32) :
    16 * d + need ≤ p.depth ∧ 16 * d + need ≤ q.depth := by
  obtain ⟨hp, hq⟩ := h.ahead.le_length
  unfold depth
  omega

theorem perform_outcome (h : Alike d p q) (call : Call) :
    Outcome 0 d p (p.perform call) (q.perform call) := by
  cases call with
  | expression =>
    obtain ⟨hp, hq⟩ := h.fuel 12 (by decide)
    exact (((Parse.expressionsAgree _ _).expression hp hq h).mono (by decide)).map _
  | statement =>
    obtain ⟨hp, hq⟩ := h.fuel 13 (by decide)
    exact (((Parse.statementsAgree _ _).statement hp hq h).mono (by decide)).map _
  | program =>
    obtain ⟨hp, hq⟩ := h.fuel 14 (by decide)
    exact (Parse.program_agree _ _ hp hq h).map _

/-- Where a parser stands after any number of calls, and that its answers do not depend on what lies
behind the first final token. -/
theorem Behind.performAll (hp : Behind ts k own p) (h : Alike d p q) (calls : List Call) :
    ∃ j e own', e + j = d ∧ Behind ts (k + j) own' (p.performAll calls).2 ∧
      Alike e (p.performAll calls).2 (q.performAll calls).2 ∧
      (p.failed → (p.performAll calls).2.failed ∧ own' = own) ∧
      (p.performAll calls).1 = (q.performAll calls).1 := by
  induction calls generalizing p q k d own with
  | nil => exact ⟨0, d, own, rfl, hp, h, fun hf => ⟨hf, rfl⟩, rfl⟩
  | cons call calls ih =>
    have hcall := perform_outcome h call
    obtain ⟨i, e, own₁, he, hbehind, halike, hfailed⟩ := hcall.behind hp
    obtain ⟨j, e', own₂, he', hbehind', halike', hfailed', hanswers⟩ := ih hbehind halike
    refine ⟨i + j, e', own₂, by omega, ?_, halike', fun hf => ?_, ?_⟩
    · rw [← Nat.add_assoc]
      exact hbehind'
    · obtain ⟨hf₁, rfl⟩ := hfailed hf
      exact hfailed' hf₁
    · simp only [Parser.performAll, hcall.answers_eq, hanswers]

theorem performAll_append (p : Parser) (calls more : List Call) :
    (p.performAll (calls ++ more)).2 = ((p.performAll calls).2.performAll more).2 := by
  induction calls generalizing p with
  | nil => rfl
  | cons call calls ih => exact ih (p.perform call).2

/-! ## The parser of a source -/

/-- With all tokens or with those up to the first fault or end, a final one is as far away as there is
weight in the source, or nearer. -/
theorem alikeAhead_stream {m n : Nat} {s : Scanner} (hm : s.weight < m) (hn : s.weight < n) :
    ∃ d t us vs, d ≤ s.weight ∧ Scanner.stream m s = t :: us ∧ Scanner.collect isFinal n s = t :: vs ∧
      AlikeAhead d t.lexeme us vs := by
  induction m generalizing n s with
  | zero => omega
  | succ m ih =>
    obtain ⟨n, rfl⟩ : ∃ n', n = n' + 1 := ⟨n - 1, by omega⟩
    by_cases hfinal : isFinal s.next.1.lexeme
    · refine ⟨0, s.next.1, Scanner.stream m s.next.2, [], Nat.zero_le _, rfl, ?_, .final hfinal⟩
      simp only [Scanner.collect, hfinal, if_true]
    · have hlighter : s.next.2.weight < s.weight := by
        apply Scanner.weight_next
        intro hend
        rw [hend] at hfinal
        exact hfinal rfl
      obtain ⟨d, t, us, vs, hd, hus, hvs, halike⟩ := ih (n := n) (s := s.next.2) (by omega) (by omega)
      refine ⟨d + 1, s.next.1, t :: us, t :: vs, by omega, ?_, ?_, ?_⟩
      · rw [Scanner.stream_succ, hus]
      · simp only [Scanner.collect, hfinal, Bool.false_eq_true, if_false, hvs]
      · exact .next (Bool.not_eq_true _ ▸ hfinal) halike

theorem live_alike (source : Bytes) (file extra : Nat) :
    ∃ d ≤ 2 * source.length, Alike d (live source file extra) (start source file) ∧
      Behind (liveTokens source file extra) 0 [] (live source file extra) := by
  have hweight := Scanner.weight_start source file
  obtain ⟨d, t, us, vs, hd, hus, hvs, halike⟩ :=
    alikeAhead_stream (m := Scanner.tokenLimit source + extra) (n := Scanner.tokenLimit source)
      (s := .start source file) (by unfold Scanner.tokenLimit; omega)
      (by unfold Scanner.tokenLimit; omega)
  have hlive : liveTokens source file extra = t :: us := hus
  have hreadable : Scanner.readable source file = t :: vs := hvs
  refine ⟨d, hweight ▸ hd, ?_, ?_⟩
  · unfold live start
    rw [hlive, hreadable]
    exact ⟨rfl, rfl, rfl, halike⟩
  · unfold live
    rw [hlive]
    exact .ofTokens

theorem start_alike (source : Bytes) (file : Nat) :
    ∃ d, Alike d (start source file) (start source file) ∧
      Behind (Scanner.readable source file) 0 [] (start source file) := by
  obtain ⟨d, -, halike, -⟩ := live_alike source file 0
  refine ⟨d, halike.symm.self, ?_⟩
  have hclosed := closed_readable source file
  unfold start
  cases hts : Scanner.readable source file with
  | nil =>
    rw [hts] at hclosed
    cases hclosed
  | cons t ts => exact .ofTokens

/-- The parser of a source after some calls. -/
def after (source : Bytes) (file extra : Nat) (calls : List Call) : Parser :=
  ((live source file extra).performAll calls).2

/-- After these calls `k` tokens are passed. The report is what the parser missed, once or never, and
then what a reader reports that has given the tokens up to the current one, once or never. -/
structure Recorded (source : Bytes) (file extra : Nat) (calls : List Call) (k : Nat)
    (own : List Diagnostic) : Prop where
  inside : k ≤ 2 * source.length
  behind : Behind (liveTokens source file extra) k own (after source file extra calls)
  report : (after source file extra calls).report.entries =
    own ++ (Reader.taken (k + 1) (.start source file)).report.entries
  own : own.length ≤ 1
  scanned : (Reader.taken (k + 1) (.start source file)).report.entries.length ≤ 1

theorem Behind.recorded {source : Bytes} {file extra : Nat} {calls : List Call}
    (h : Behind (liveTokens source file extra) k own (after source file extra calls))
    (hk : k ≤ 2 * source.length) : Recorded source file extra calls k own := by
  have hfaults : faults ((liveTokens source file extra).take (k + 1)) =
      (Reader.taken (k + 1) (.start source file)).report.entries := by
    rw [Reader.report_taken rfl]
    unfold liveTokens
    rw [Scanner.take_stream (by unfold Scanner.tokenLimit; omega)]
    rfl
  exact ⟨hk, h, hfaults ▸ h.report, h.once, hfaults ▸ h.length_faults_le⟩

/-- Two parsers that stand behind the same tokens see the same ones. -/
theorem Behind.same {own' : List Diagnostic} (h : Behind ts k own p) (h' : Behind ts k own' q) :
    SameToken p.current q.current ∧ p.ahead = q.ahead := by
  obtain ⟨t, ht, hsame⟩ := h.tokens
  obtain ⟨u, hu, hsame'⟩ := h'.tokens
  obtain ⟨rfl, hahead⟩ := List.cons.inj (ht.symm.trans hu)
  refine ⟨⟨?_, ?_, ?_⟩, hahead⟩
  · exact hsame.lexeme.symm.trans hsame'.lexeme
  · exact hsame.text.symm.trans hsame'.text
  · exact hsame.location.symm.trans hsame'.location

/-- What is reported is a fault of a token, or a token where something else was expected. -/
theorem Behind.mem_report {m : Diagnostic} (h : Behind ts k own p) (hm : m ∈ p.report.entries) :
    ∃ t ∈ ts, (∃ what, m = missing what t) ∨ t.diagnostic? = some m := by
  rw [h.report, List.mem_append] at hm
  obtain hm | hm := hm
  · obtain ⟨t, ht, hwhat⟩ := h.missed m hm
    exact ⟨t, ht, .inl hwhat⟩
  · obtain ⟨t, ht, hfault⟩ := List.mem_filterMap.mp hm
    exact ⟨t, List.mem_of_mem_take ht, .inr hfault⟩

theorem Behind.severity {m : Diagnostic} (h : Behind ts k own p) (hm : m ∈ p.report.entries) :
    m.severity = .error := by
  obtain ⟨t, -, ⟨what, rfl⟩ | hfault⟩ := h.mem_report hm
  · rfl
  · unfold Token.diagnostic? at hfault
    split at hfault
    · cases hfault
      rfl
    · cases hfault

/-- One entry leaves no choice. -/
theorem earliest?_eq_head? {report : Report} (hlength : report.entries.length ≤ 1)
    (herror : ∀ m ∈ report.entries, m.severity = .error) :
    earliest? report = report.entries.head? := by
  obtain ⟨entries⟩ := report
  cases entries with
  | nil => rfl
  | cons m rest =>
    obtain rfl : rest = [] := by simpa using hlength
    simp [earliest?, herror m List.mem_cons_self]

/-- A whole source is read with one diagnostic at most. -/
theorem program_report (source : Bytes) (file extra : Nat) :
    (live source file extra).program.2.report.entries.length ≤ 1 ∧
      (start source file).program.2.report = (live source file extra).program.2.report ∧
      earliest? (start source file).program.2.report =
        (start source file).program.2.report.entries.head? := by
  obtain ⟨d, -, halike, hbehind⟩ := live_alike source file extra
  have hcall := perform_outcome halike .program
  have hlength : (live source file extra).program.2.report.entries.length ≤ 1 :=
    hcall.length_report_le hbehind
  obtain ⟨j, e, own, -, hbehind', halike', -⟩ := hcall.behind hbehind
  have hreport : (start source file).program.2.report = (live source file extra).program.2.report :=
    halike'.report.symm
  refine ⟨hlength, hreport, ?_⟩
  rw [hreport]
  exact earliest?_eq_head? hlength fun m hm => hbehind'.severity hm

end Parser

/-- Whatever a parser is asked for, and however often, it passes no fault: one that it has come to stays
the current token. Its reader reports once at most, and so does the parser itself, which reports no more
once it has failed. It gives no answer only if it has failed. All this is so although there are tokens
behind a fault, and the answers are those of a parser that has no such tokens. One reading of a whole
source has one diagnostic at most, so there is nothing to choose from. -/
theorem calls_stop_at_fault (source : Bytes) (file extra : Nat) (calls : List Call) :
    (∃ k own, Parser.Recorded source file extra calls k own ∧
      ∀ more, ∃ k' own', Parser.Recorded source file extra (calls ++ more) k' own' ∧
        ((Parser.after source file extra calls).current.lexeme.isFault → k' = k ∧
          SameToken (Parser.after source file extra calls).current
            (Parser.after source file extra (calls ++ more)).current ∧
          (Parser.after source file extra calls).ahead =
            (Parser.after source file extra (calls ++ more)).ahead) ∧
        ((Parser.after source file extra calls).failed →
          (Parser.after source file extra (calls ++ more)).failed ∧ own' = own)) ∧
    (∀ call, ((Parser.after source file extra calls).perform call).1 = none →
      ((Parser.after source file extra calls).perform call).2.failed) ∧
    ((Parser.live source file extra).performAll calls).1 =
      ((Parser.start source file).performAll calls).1 ∧
    (Parser.after source file extra calls).failed =
      ((Parser.start source file).performAll calls).2.failed ∧
    (Parser.after source file extra calls).report =
      ((Parser.start source file).performAll calls).2.report ∧
    (Parser.live source file extra).program.2.report.entries.length ≤ 1 ∧
    (Parser.start source file).program.2.report = (Parser.live source file extra).program.2.report ∧
    earliest? (Parser.start source file).program.2.report =
      (Parser.start source file).program.2.report.entries.head? := by
  obtain ⟨d, hd, halike, hbehind⟩ := Parser.live_alike source file extra
  obtain ⟨k, e, own, he, hafter, halike', -, hanswers⟩ := hbehind.performAll halike calls
  rw [Nat.zero_add] at hafter
  refine ⟨⟨k, own, hafter.recorded (by omega), fun more => ?_⟩, fun call => ?_, hanswers,
    halike'.failed, halike'.report, Parser.program_report source file extra⟩
  · obtain ⟨j, e', own', he', hmore, -, hfailed, -⟩ := hafter.performAll halike' more
    rw [← Parser.performAll_append] at hmore hfailed
    refine ⟨k + j, own', Parser.Behind.recorded hmore (by omega), fun hfault => ?_, hfailed⟩
    -- a final token is current, so no token is left to take
    have hstay : e = 0 := halike'.ahead.eq_zero (Parser.isFinal_of_isFault hfault)
    obtain rfl : j = 0 := by omega
    exact ⟨rfl, hafter.same hmore⟩
  · exact (Parser.perform_outcome halike' call).failed_of_none

-- both can have something to report: what is missing before `2` first, then the fault behind it
example :
    ((Parser.live (ascii "f(1 2 ? 3") 0 4).performAll [.expression, .expression]).2.report.entries.map
      (·.location.column) = [5, 7] := by
  decide +kernel

end Roar.Grammar
