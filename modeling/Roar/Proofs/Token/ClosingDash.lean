import Roar.Proofs.Token.Frames
import Roar.Proofs.Token.Lines

/-!
# The closing dash that is looked for and the one that is found

Whether a dash opens a string is decided by looking along the line for a closing dash
(`closingDash?`); the string itself is read by `readText`, which stops at embedded names and goes on
behind them. Both step over escapes, but only the second stops at a line end that a backslash stands
before.

* `exists_closingDash`: the closing dash is one, and where nothing is embedded in parentheses the text
  before it is made of escapes and of bytes that mean nothing special (`Passed`).
* `Scanner.agrees_of_passed`: such a text is read up to that dash, or there is a fault in it.
* `closingDash_agrees_iff`: the two agree if and only if no backslash stands right before a line end.
-/

namespace Roar

open Byte

/-! ## What is looked over -/

/-- An embedded expression in parentheses begins in the text. -/
def HasGroup (text : Bytes) : Prop := [byte '$', byte '('] <:+: text

/-- A backslash stands right before a line end. -/
def SplicesLine (text : Bytes) : Prop := ∃ c ∈ [byte '\r', byte '\n'], [byte '\\', c] <:+: text

/-- The text has no line end in it. -/
def SameLine (text : Bytes) : Prop := ∀ c ∈ text, isNewline c = false

instance (text : Bytes) : Decidable (HasGroup text) := inferInstanceAs (Decidable (_ <:+: _))

instance (text : Bytes) : Decidable (SplicesLine text) :=
  inferInstanceAs (Decidable (∃ c ∈ _, [byte '\\', c] <:+: text))

instance (text : Bytes) : Decidable (SameLine text) :=
  inferInstanceAs (Decidable (∀ c ∈ text, isNewline c = false))

/-- A text without embedded expressions in parentheses that is looked over for a closing dash: a
backslash takes the next byte with it, whatever that is. -/
inductive Passed : Bytes → Prop
  | nil : Passed []
  | escaped {e : UInt8} {cs : Bytes} (rest : Passed cs) : Passed (byte '\\' :: e :: cs)
  | plain {c : UInt8} {cs : Bytes} (dash : c ≠ byte '-') (slash : c ≠ byte '\\')
      (line : isNewline c = false) (group : c = byte '$' → cs.head? ≠ some (byte '('))
      (rest : Passed cs) : Passed (c :: cs)

theorem HasGroup.cons {text : Bytes} (h : HasGroup text) (c : UInt8) : HasGroup (c :: text) :=
  List.infix_cons h

theorem HasGroup.of_head {text : Bytes} (h : text.head? = some (byte '(')) :
    HasGroup (byte '$' :: text) := by
  obtain ⟨rest, rfl⟩ := List.head?_eq_some_iff.mp h
  exact (List.prefix_append [byte '$', byte '('] rest).isInfix

mutual

/-- The closing dash that is found is a dash of the line. -/
theorem exists_closingDash : (cs : Bytes) → {stop : Bytes} → closingDash? cs = some stop →
    ∃ text, cs = text ++ byte '-' :: stop ∧ (¬ HasGroup text → Passed text)
  | [], _, h => by simp [closingDash?] at h
  | c :: cs, stop, h => by
    rw [closingDash?.eq_def] at h
    simp only at h
    split at h
    · cases h
    · rename_i hline
      split at h
      · rename_i hslash
        obtain rfl := beq_iff_eq.mp hslash
        cases cs with
        | nil => cases h
        | cons e cs =>
          obtain ⟨text, rfl, hpassed⟩ := exists_closingDash cs h
          exact ⟨byte '\\' :: e :: text, rfl,
            fun hgroup => .escaped (hpassed fun hg => hgroup ((hg.cons e).cons _))⟩
      · rename_i hslash
        split at h
        · rename_i hdash
          obtain rfl := beq_iff_eq.mp hdash
          cases h
          exact ⟨[], rfl, fun _ => .nil⟩
        · rename_i hdash
          cases cs with
          | nil => cases h
          | cons d cs =>
            simp only at h
            split at h
            · rename_i hgroup
              obtain ⟨text, rfl⟩ := exists_closingDash_group 0 cs h
              simp only [Bool.and_eq_true, beq_iff_eq] at hgroup
              obtain ⟨rfl, rfl⟩ := hgroup
              exact ⟨_ :: _ :: text, rfl, fun hnot => absurd (.of_head rfl) hnot⟩
            · obtain ⟨text, htext, hpassed⟩ := exists_closingDash (d :: cs) h
              refine ⟨c :: text, by rw [htext]; rfl, fun hgroup => ?_⟩
              refine .plain (by simpa using hdash) (by simpa using hslash)
                (by simpa using hline) (fun hc hhead => ?_) (hpassed fun hg => hgroup (hg.cons c))
              exact hgroup (hc ▸ HasGroup.of_head hhead)

theorem exists_closingDash_group (depth : Nat) : (cs : Bytes) → {stop : Bytes} →
    skipGroup? depth cs = some stop → ∃ text, cs = text ++ byte '-' :: stop
  | [], _, h => by simp [skipGroup?] at h
  | c :: cs, stop, h => by
    rw [skipGroup?.eq_def] at h
    simp only at h
    have hmore {text : Bytes} (htext : cs = text ++ byte '-' :: stop) :
        ∃ text, c :: cs = text ++ byte '-' :: stop := ⟨c :: text, by rw [htext]; rfl⟩
    split at h
    · cases h
    · split at h
      · obtain ⟨text, htext⟩ := exists_closingDash_group (depth + 1) cs h
        exact hmore htext
      · split at h
        · cases depth with
          | zero =>
            obtain ⟨text, htext, -⟩ := exists_closingDash cs h
            exact hmore htext
          | succ depth =>
            obtain ⟨text, htext⟩ := exists_closingDash_group depth cs h
            exact hmore htext
        · obtain ⟨text, htext⟩ := exists_closingDash_group depth cs h
          exact hmore htext

end

theorem mem_lineEnds {c : UInt8} : c ∈ [byte '\r', byte '\n'] ↔ isNewline c := by
  simp [isNewline]

theorem sameLine_append {first second : Bytes} :
    SameLine (first ++ second) ↔ SameLine first ∧ SameLine second :=
  List.forall_mem_append

theorem sameLine_cons {c : UInt8} (hc : isNewline c = false) {text : Bytes} :
    SameLine (c :: text) ↔ SameLine text :=
  List.forall_mem_cons.trans (and_iff_right hc)

/-- The only line ends that are looked over have a backslash before them. -/
theorem Passed.splicesLine {text : Bytes} (h : Passed text) (hline : ¬ SameLine text) :
    SplicesLine text := by
  induction h with
  | nil => exact absurd (List.forall_mem_nil _) hline
  | @escaped e cs _ ih =>
    by_cases he : isNewline e
    · exact ⟨e, mem_lineEnds.mpr he, (List.prefix_append [byte '\\', e] cs).isInfix⟩
    · rw [sameLine_cons (by decide), sameLine_cons (by simpa using he)] at hline
      obtain ⟨c, hc, hpair⟩ := ih hline
      exact ⟨c, hc, List.infix_cons (List.infix_cons hpair)⟩
  | plain _ _ hc _ _ ih =>
    rw [sameLine_cons hc] at hline
    obtain ⟨d, hd, hpair⟩ := ih hline
    exact ⟨d, hd, List.infix_cons hpair⟩

theorem SplicesLine.not_sameLine {text : Bytes} (h : SplicesLine text) : ¬ SameLine text := by
  obtain ⟨c, hc, hpair⟩ := h
  intro hline
  have hend := mem_lineEnds.mp hc
  rw [hline c (hpair.subset (by simp))] at hend
  cases hend

/-! ## What is read -/

/-- What reading the text of a string comes to, if `text` stands before the closing dash that was
found, and `stop` behind it. -/
inductive Stretch.Meets (text stop : Bytes) (s : Stretch) : Prop
  | closed (ending : s.stop = .closed) (rest : s.rest = stop) (line : SameLine text)
  | name {more : Bytes} (ending : s.stop = .name) (rest : s.rest = more ++ byte '-' :: stop)
      (passed : Passed more) (shorter : more.length < text.length)
      (line : SameLine more ↔ SameLine text)
  | invalidEscape {e : UInt8} {more : Bytes} (ending : s.stop = .invalidEscape e)
      (rest : s.rest = more ++ byte '-' :: stop)
  | unterminated (ending : s.stop = .unterminated) (line : ¬ SameLine text)

/-- More text in front, on the same line. -/
theorem Stretch.Meets.push {text stop : Bytes} {s : Stretch} (h : s.Meets text stop)
    {added : Bytes} (hadded : SameLine added) (t v : Bytes) :
    (s.push t v).Meets (added ++ text) stop := by
  have hiff : SameLine (added ++ text) ↔ SameLine text :=
    sameLine_append.trans (and_iff_right hadded)
  cases h with
  | closed ending rest line => exact .closed ending rest (hiff.mpr line)
  | name ending rest passed shorter line =>
    refine .name ending rest passed ?_ (line.trans hiff.symm)
    simp only [List.length_append]
    omega
  | invalidEscape ending rest => exact .invalidEscape ending rest
  | unterminated ending line => exact .unterminated ending (mt hiff.mp line)

theorem meets_readText {text : Bytes} (h : Passed text) (stop : Bytes) :
    (readText (text ++ byte '-' :: stop)).Meets text stop := by
  induction h with
  | nil =>
    rw [List.nil_append, readText_dash]
    exact .closed rfl rfl (List.forall_mem_nil _)
  | @escaped e cs _ ih =>
    have hslash : isNewline (byte '\\') = false := by decide
    rw [List.cons_append, List.cons_append, readText.eq_def]
    simp only [show (byte '\\' == byte '-') = false by decide, hslash, Bool.false_eq_true, if_false,
      beq_self_eq_true, if_true]
    split
    · rename_i he
      refine .unterminated rfl fun hline => ?_
      rw [hline e (by simp)] at he
      cases he
    · rename_i he
      split
      · have hadded : SameLine [byte '\\', e] := by
          rw [sameLine_cons hslash, sameLine_cons (by simpa using he)]
          exact List.forall_mem_nil _
        exact ih.push hadded _ _
      · exact .invalidEscape rfl rfl
  | @plain c cs dash slash line group hrest ih =>
    rw [List.cons_append, readText.eq_def]
    simp only [beq_eq_false_iff_ne.mpr dash, beq_eq_false_iff_ne.mpr slash, line,
      Bool.false_eq_true, if_false]
    split
    · exact .name rfl rfl hrest (Nat.lt_succ_self _) (sameLine_cons line).symm
    · split
      · -- an embedded expression would begin in the text
        rename_i hgroup
        simp only [Bool.and_eq_true, beq_iff_eq] at hgroup
        obtain ⟨hdollar, hhead⟩ := hgroup
        cases cs with
        | nil => cases hhead
        | cons d cs => exact absurd hhead (group hdollar)
      · exact ih.push ((sameLine_cons line).mpr (List.forall_mem_nil _)) _ _

/-- Behind a name in the text of a string. -/
theorem Passed.dropWord {text : Bytes} (h : Passed text) (stop : Bytes) : ∃ more,
    (text ++ byte '-' :: stop).dropWhile isIdentifierContinue = more ++ byte '-' :: stop ∧
      Passed more ∧ more.length ≤ text.length ∧ (SameLine more ↔ SameLine text) := by
  induction h with
  | nil =>
    exact ⟨[], List.dropWhile_cons_of_neg (by decide), .nil, Nat.le_refl _, Iff.rfl⟩
  | @escaped e cs hrest _ =>
    exact ⟨_ :: e :: cs, List.dropWhile_cons_of_neg (by decide), .escaped hrest, Nat.le_refl _,
      Iff.rfl⟩
  | @plain c cs dash slash line group hrest ih =>
    by_cases hc : isIdentifierContinue c
    · obtain ⟨more, hmore, hpassed, hlength, hline⟩ := ih
      refine ⟨more, ?_, hpassed, Nat.le_succ_of_le hlength, hline.trans (sameLine_cons line).symm⟩
      rw [List.cons_append, List.dropWhile_cons_of_pos hc, hmore]
    · exact ⟨c :: cs, List.dropWhile_cons_of_neg hc, .plain dash slash line group hrest,
        Nat.le_refl _, Iff.rfl⟩

/-! ## Strings -/

/-- How a string ends: it is closed, with this after it, or there is a fault in it. -/
inductive StringOutcome where
  | closed (rest : Bytes) (spans : List Span)
  | fault (cause : ScanError) (rest : Bytes)

/-- From here on a string is read to its end, through any number of embedded names. Its next token
is `closed` or `opened`, as in `readString`. -/
inductive Scanner.ReadsString :
    (closed opened : Bytes → Lexeme) → Scanner → StringOutcome → Prop
  | closed {closed opened : Bytes → Lexeme} {s : Scanner} {value : Bytes}
      (lexeme : s.next.1.lexeme = closed value) :
      ReadsString closed opened s (.closed s.next.2.rest s.next.2.spans)
  | fault {closed opened : Bytes → Lexeme} {s : Scanner} {cause : ScanError} {value : Bytes}
      (lexeme : s.next.1.lexeme = .fault cause value) :
      ReadsString closed opened s (.fault cause s.next.2.rest)
  | name {closed opened : Bytes → Lexeme} {s : Scanner} {value : Bytes} {outcome : StringOutcome}
      (lexeme : s.next.1.lexeme = opened value) (word : s.next.2.next.1.lexeme.isWord)
      (tail : ReadsString .stringEnd .stringMiddle s.next.2.next.2 outcome) :
      ReadsString closed opened s outcome

/-- What reading a string comes to, if `text` stands before the closing dash that was found, and
`stop` behind it. -/
inductive Scanner.Agrees (text stop : Bytes) (outer : List Span) (closed opened : Bytes → Lexeme)
    (s : Scanner) : Prop
  | closed (reads : s.ReadsString closed opened (.closed stop outer)) (line : SameLine text)
  | invalidEscape {e : UInt8} {more : Bytes}
      (reads : s.ReadsString closed opened (.fault (.invalidEscape e) (more ++ byte '-' :: stop)))
  | unterminated {rest : Bytes}
      (reads : s.ReadsString closed opened (.fault .unterminatedString rest))
      (line : ¬ SameLine text)

namespace Scanner

theorem ReadsString.of_closed {closed opened : Bytes → Lexeme} {s : Scanner} {value rest : Bytes}
    {outer : List Span} (hlexeme : s.next.1.lexeme = closed value) (hrest : s.next.2.rest = rest)
    (hspans : s.next.2.spans = outer) : s.ReadsString closed opened (.closed rest outer) :=
  hrest ▸ hspans ▸ .closed hlexeme

theorem ReadsString.of_fault {closed opened : Bytes → Lexeme} {s : Scanner} {cause : ScanError}
    {value rest : Bytes} (hlexeme : s.next.1.lexeme = .fault cause value)
    (hrest : s.next.2.rest = rest) : s.ReadsString closed opened (.fault cause rest) :=
  hrest ▸ .fault hlexeme

theorem Agrees.name {text more stop : Bytes} {outer : List Span} {closed opened : Bytes → Lexeme}
    {s : Scanner} {value : Bytes} (hlexeme : s.next.1.lexeme = opened value)
    (hword : s.next.2.next.1.lexeme.isWord) (hline : SameLine more ↔ SameLine text)
    (h : s.next.2.next.2.Agrees more stop outer .stringEnd .stringMiddle) :
    s.Agrees text stop outer closed opened := by
  cases h with
  | closed reads line => exact .closed (.name hlexeme hword reads) (hline.mp line)
  | invalidEscape reads => exact .invalidEscape (.name hlexeme hword reads)
  | unterminated reads line => exact .unterminated (.name hlexeme hword reads) (mt hline.mpr line)

/-- A string whose text has been looked over is read up to the closing dash that was found, or to a
fault. -/
theorem agrees_of_passed {text : Bytes} (h : Passed text) (stop : Bytes) (outer : List Span)
    {closed opened : Bytes → Lexeme} {opening : Bytes} {comments : List Comment} {l : Location}
    {s : Scanner}
    (hnext : s.next =
      emit comments l (readString closed opened outer opening (text ++ byte '-' :: stop))) :
    s.Agrees text stop outer closed opened := by
  cases meets_readText h stop with
  | closed ending rest line =>
    simp only [readString, ending, rest] at hnext
    exact .closed (.of_closed (by rw [hnext]; rfl) (by rw [hnext]; rfl) (by rw [hnext]; rfl)) line
  | invalidEscape ending rest =>
    simp only [readString, ending, rest] at hnext
    exact .invalidEscape (.of_fault (by rw [hnext]; rfl) (by rw [hnext]; rfl))
  | unterminated ending line =>
    simp only [readString, ending] at hnext
    exact .unterminated (.of_fault (by rw [hnext]; rfl) rfl) line
  | @name more ending rest passed shorter line =>
    -- two tokens on, behind the name, the string goes on with a shorter text
    simp only [readString, ending, rest] at hnext
    obtain ⟨tail, htail, hpassed, hlength, htailLine⟩ := passed.dropWord stop
    have hword : s.next.2.next =
        emit [] s.next.2.location (readWord (.tail :: outer) (more ++ byte '-' :: stop)) := by
      rw [hnext]
      rfl
    have hagain : s.next.2.next.2.next = emit [] s.next.2.next.2.location
        (readString .stringEnd .stringMiddle outer [] (tail ++ byte '-' :: stop)) := by
      rw [hword, ← htail]
      rfl
    refine .name (by rw [hnext]; rfl) ?_ (htailLine.trans line)
      (agrees_of_passed hpassed stop outer hagain)
    rw [hword]
    exact isWord_readWord (.tail :: outer) (more ++ byte '-' :: stop)
termination_by text.length
decreasing_by omega

/-- The lexemes of the text of a string can be told from each other and from a fault. -/
structure Apart (closed opened : Bytes → Lexeme) : Prop where
  each : ∀ v w, closed v ≠ opened w
  closed : ∀ v cause w, closed v ≠ .fault cause w
  opened : ∀ v cause w, opened v ≠ .fault cause w

theorem apart_string : Apart .string .stringStart where
  each _ _ h := by cases h
  closed _ _ _ h := by cases h
  opened _ _ _ h := by cases h

private theorem apart_stringEnd : Apart .stringEnd .stringMiddle where
  each _ _ h := by cases h
  closed _ _ _ h := by cases h
  opened _ _ _ h := by cases h

/-- A string is read in one way. -/
theorem ReadsString.unique {closed opened : Bytes → Lexeme} {s : Scanner} {o o' : StringOutcome}
    (h : s.ReadsString closed opened o) (hapart : Apart closed opened)
    (h' : s.ReadsString closed opened o') : o' = o := by
  induction h with
  | closed lexeme =>
    cases h' with
    | closed _ => rfl
    | fault lexeme' => exact absurd (lexeme.symm.trans lexeme') (hapart.closed _ _ _)
    | name lexeme' => exact absurd (lexeme.symm.trans lexeme') (hapart.each _ _)
  | fault lexeme =>
    cases h' with
    | closed lexeme' => exact absurd (lexeme'.symm.trans lexeme) (hapart.closed _ _ _)
    | fault lexeme' =>
      cases lexeme.symm.trans lexeme'
      rfl
    | name lexeme' => exact absurd (lexeme'.symm.trans lexeme) (hapart.opened _ _ _)
  | name lexeme _ _ ih =>
    cases h' with
    | closed lexeme' => exact absurd (lexeme'.symm.trans lexeme) (hapart.each _ _)
    | fault lexeme' => exact absurd (lexeme.symm.trans lexeme') (hapart.opened _ _ _)
    | name _ _ tail => exact ih apart_stringEnd tail

/-! ## Agreement -/

/-- The scanner is about to open a string, with this behind the dash. -/
structure OpensString (s : Scanner) (behind : Bytes) : Prop where
  dash : ∃ comments l, skipBlank s.location s.rest = .clear comments l (byte '-' :: behind)
  outside : inName s.spans = false
  operand : s.afterOperand = false
  opens : opensString behind

theorem OpensString.next_eq {s : Scanner} {behind : Bytes} (h : s.OpensString behind) :
    ∃ comments l,
      s.next = emit comments l (readString .string .stringStart s.spans [byte '-'] behind) := by
  obtain ⟨⟨comments, l, hblank⟩, houtside, hoperand, hopens⟩ := h
  refine ⟨comments, l, ?_⟩
  have hread : readLexeme s.spans s.afterOperand (byte '-') behind =
      readString .string .stringStart s.spans [byte '-'] behind := by
    rw [readLexeme, if_neg (by decide), if_neg (by decide), if_pos (by decide),
      if_pos (by simp [hoperand, hopens])]
  unfold next
  split
  · rename_i hspans
    rw [hspans] at houtside
    cases houtside
  · rename_i hspans
    rw [hspans] at houtside
    cases houtside
  · rw [hblank]
    simp only
    split
    · rw [if_neg (by decide), hread]
    · rw [hread]

end Scanner

/-- The string ends at the closing dash that was found, or an invalid escape stands before it. -/
def StringOutcome.EndsBy (stop : Bytes) (outer : List Span) : StringOutcome → Prop
  | .closed rest spans => rest = stop ∧ spans = outer
  | .fault (.invalidEscape _) rest => ∃ more, rest = more ++ byte '-' :: stop
  | .fault _ _ => False

/-- Wherever a string opens, the closing dash that was looked for stands in the source, and if no
expression in parentheses is embedded before it, the string is read in one way. This ends at that
dash, on the same line, or with an invalid escape before it, if and only if no backslash stands right
before a line end. Where one does, the string is never closed. -/
theorem closingDash_agrees_iff (s : Scanner) {behind : Bytes} (h : s.OpensString behind) :
    ∃ text stop, closingDash? behind = some stop ∧ behind = text ++ byte '-' :: stop ∧
      (¬ HasGroup text → ∃ outcome,
        (∀ o, s.ReadsString .string .stringStart o ↔ o = outcome) ∧
        (SameLine text ∧ outcome.EndsBy stop s.spans ↔ ¬ SplicesLine text) ∧
        (SplicesLine text → ∀ rest spans, outcome ≠ .closed rest spans)) := by
  obtain ⟨stop, hclosing, -⟩ := (Option.any_eq_true _ _).mp h.opens
  obtain ⟨text, rfl, hpassed⟩ := exists_closingDash behind hclosing
  refine ⟨text, stop, hclosing, rfl, fun hgroup => ?_⟩
  obtain ⟨comments, l, hnext⟩ := h.next_eq
  have hone {outcome : StringOutcome} (hreads : s.ReadsString .string .stringStart outcome)
      (o : StringOutcome) : s.ReadsString .string .stringStart o ↔ o = outcome :=
    ⟨hreads.unique Scanner.apart_string, fun ho => ho ▸ hreads⟩
  have hsplices := (hpassed hgroup).splicesLine
  cases Scanner.agrees_of_passed (hpassed hgroup) stop s.spans hnext with
  | closed reads line =>
    have hnot : ¬ SplicesLine text := fun h => h.not_sameLine line
    exact ⟨_, hone reads, iff_of_true ⟨line, rfl, rfl⟩ hnot, fun h => absurd h hnot⟩
  | @invalidEscape e more reads =>
    refine ⟨_, hone reads, ⟨fun h hs => hs.not_sameLine h.1, fun hnot => ?_⟩, fun _ _ _ h => by cases h⟩
    exact ⟨Decidable.not_not.mp fun hline => hnot (hsplices hline), more, rfl⟩
  | unterminated reads line =>
    exact ⟨_, hone reads, iff_of_false (fun h => line h.1) (not_not_intro (hsplices line)),
      fun _ _ _ h => by cases h⟩

/-- A string with an escaped dash and an embedded name. -/
def namedSource : Bytes := ascii "-a\\-$b c- + d"

theorem namedSource_closes : (Scanner.start namedSource 0).OpensString namedSource.tail ∧
    ∃ outcome : StringOutcome,
      (Scanner.start namedSource 0).ReadsString .string .stringStart outcome ∧
        outcome.EndsBy (ascii " + d") [] := by
  have hopens : (Scanner.start namedSource 0).OpensString namedSource.tail :=
    ⟨⟨[], .start 0, rfl⟩, rfl, rfl, by decide +kernel⟩
  have hfound : closingDash? namedSource.tail = some (ascii " + d") := by decide +kernel
  have htail : namedSource.tail = ascii "a\\-$b c" ++ byte '-' :: ascii " + d" := by
    decide +kernel
  obtain ⟨text, stop, hclosing, hbehind, hagrees⟩ := closingDash_agrees_iff _ hopens
  rw [hfound] at hclosing
  obtain rfl := Option.some.inj hclosing
  rw [htail] at hbehind
  obtain rfl := List.append_cancel_right hbehind
  obtain ⟨outcome, hreads, hends, -⟩ := hagrees (by decide +kernel)
  exact ⟨hopens, outcome, (hreads outcome).mpr rfl, (hends.mpr (by decide +kernel)).2⟩

/-- A dash that is taken to open a string, though no dash closes it on its line. -/
def splicedSource : Bytes := ascii "-a\\\nb-"

theorem splicedSource_unterminated :
    (Scanner.start splicedSource 0).OpensString splicedSource.tail ∧
      closingDash? splicedSource.tail = some [] ∧
      splicedSource.tail = ascii "a\\\nb" ++ [byte '-'] ∧
      ¬ HasGroup (ascii "a\\\nb") ∧ ¬ SameLine (ascii "a\\\nb") ∧
      (Scanner.start splicedSource 0).ReadsString .string .stringStart
        (.fault .unterminatedString (ascii "\nb-")) := by
  refine ⟨⟨⟨[], .start 0, rfl⟩, rfl, rfl, by decide +kernel⟩, by decide +kernel, by decide +kernel,
    by decide +kernel, by decide +kernel, ?_⟩
  have hlexeme : (Scanner.start splicedSource 0).next.1.lexeme =
      .fault .unterminatedString (ascii "a") := by decide +kernel
  exact .of_fault hlexeme (by decide +kernel)

end Roar
