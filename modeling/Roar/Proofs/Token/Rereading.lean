import Mathlib.Data.List.Basic
import Mathlib.Data.List.TakeWhile
import Roar.Proofs.Bytes
import Roar.Proofs.Token.Frames
import Roar.Proofs.Token.Lines

/-!
# Tokens with something else behind them

A token is read from the bytes of its own, but where it ends depends on what stands behind it, and a
dash looks further than that. `ReadsAs` says what the next token is read as from the rest of a
source, in any place of it.

* `Scanner.next_readsAs`, `ReadsAs.next`: this is what a scanner gives.
* `ReadsAs.withRest`: the same token is read with something else behind it, if this does not go on
  with the token (`EndsBefore`) and a dash keeps its meaning.
* `Blank.exists_rest`: what stands behind a part of a gap is the rest of the gap, and then the token.
-/

namespace Roar

open Byte

/-! ## What may stand behind a token -/

/-- A point and a digit, which would go on with a numeral. -/
def startsFraction (rest : Bytes) : Bool :=
  rest.head? == some (byte '.') && rest.tail.head?.any isDigit

/-- A word, a number or a sign that ended before `rest` also ends before `other`. -/
structure EndsBefore (rest other : Bytes) : Prop where
  word : rest.head?.any isIdentifierContinue = false → other.head?.any isIdentifierContinue = false
  fraction : startsFraction rest = false → startsFraction other = false
  equals : rest.head? ≠ some (byte '=') → other.head? ≠ some (byte '=')

/-- Any token ends before a blank, and a blank can be put behind what follows a token. -/
theorem endsBefore_blank (first rest more : Bytes) :
    EndsBefore (first ++ rest) (first ++ byte ' ' :: more) := by
  cases first with
  | nil => exact ⟨fun _ => rfl, fun _ => rfl, fun _ h => by cases h⟩
  | cons c first =>
    refine ⟨id, fun h => ?_, id⟩
    cases first with
    | nil => exact Bool.and_false _
    | cons => exact h

/-- The same reading, with something else behind it. -/
def Reading.withRest (r : Reading) (rest : Bytes) : Reading := { r with rest }

def Stretch.withRest (s : Stretch) (rest : Bytes) : Stretch := { s with rest }

/-! ## Strings -/

theorem text_ne_nil_of_stop (cs : Bytes) (h : (readText cs).stop ≠ .unterminated) :
    (readText cs).text ≠ [] := by
  fun_induction readText cs <;> grind [Stretch.push]

private theorem head?_text_readText (cs : Bytes) (h : (readText cs).stop ≠ .unterminated) :
    (readText cs).text.head? = cs.head? := by
  obtain ⟨c, text, htext⟩ := List.exists_cons_of_ne_nil (text_ne_nil_of_stop cs h)
  have hcut := congrArg List.head? (readText_append cs)
  rwa [htext] at hcut ⊢

/-- The text of a string is read again, whatever stands behind it, but for a name that must follow.
-/
theorem readText_withRest (cs other : Bytes) (hstop : (readText cs).stop ≠ .unterminated)
    (hname : (readText cs).stop = .name → other.head?.any isIdentifierStart) :
    readText ((readText cs).text ++ other) = (readText cs).withRest other := by
  fun_induction readText cs with
  | case1 => exact absurd rfl hstop
  | case2 c cs hdash =>
    obtain rfl := beq_iff_eq.mp hdash
    exact readText_dash other
  | case3 => exact absurd rfl hstop
  | case4 => exact absurd rfl hstop
  | case5 => exact absurd rfl hstop
  | case6 c hdash hline hslash e es hend v hv ih =>
    obtain rfl := beq_iff_eq.mp hslash
    have hrest := readText_escaped (by simpa using hend) hv ((readText es).text ++ other)
    exact hrest.trans (congrArg _ (ih hstop hname))
  | case7 c hdash hline hslash e es hend hv =>
    rw [List.cons_append, List.cons_append, List.nil_append, readText.eq_def]
    simp only [hdash, hline, hslash, hend, hv, Bool.false_eq_true, if_false, if_true]
    rfl
  | case8 c cs hdash hline hslash hdollar =>
    obtain ⟨hc, -⟩ := (Bool.and_eq_true _ _).mp hdollar
    rw [List.singleton_append, readText.eq_def]
    simp only [hdash, hline, hslash, hc, hname rfl, Bool.false_eq_true, if_false, Bool.and_true,
      if_true]
    rfl
  | case9 c cs hdash hline hslash hname' hgroup =>
    obtain ⟨hc, -⟩ := (Bool.and_eq_true _ _).mp hgroup
    have hparen : isIdentifierStart (byte '(') = false := by decide
    rw [List.cons_append, List.singleton_append, readText.eq_def]
    simp only [hdash, hline, hslash, hc, List.head?_cons, Option.any_some, hparen, Bool.false_eq_true,
      if_false, Bool.and_false, beq_self_eq_true, Bool.and_true, if_true]
    rfl
  | case10 c cs hdash hline hslash hname' hgroup ih =>
    -- the byte behind a dollar sign is the same
    have hhead : ((readText cs).text ++ other).head? = cs.head? := by
      rw [← head?_text_readText cs hstop]
      exact List.head?_append_of_ne_nil _ (text_ne_nil_of_stop cs hstop)
    rw [Stretch.push, List.append_assoc, List.singleton_append, readText.eq_def]
    simp only [hdash, hline, hslash, hhead, hname', hgroup, Bool.false_eq_true, if_false]
    exact congrArg _ (ih hstop hname)

/-- A name follows where the text of a string says so. -/
theorem head?_rest_readText (cs : Bytes) (h : (readText cs).stop = .name) :
    (readText cs).rest.head?.any isIdentifierStart := by
  fun_induction readText cs <;> grind [Stretch.push]

section String

variable {closed opened : Bytes → Lexeme} {spans : List Span} {opening rest other : Bytes}

theorem stop_ne_unterminated
    (hok : (readString closed opened spans opening rest).lexeme.isFault = false) :
    (readText rest).stop ≠ .unterminated := by
  intro hstop
  simp only [readString, hstop] at hok
  cases hok

theorem readString_withRest
    (hok : (readString closed opened spans opening rest).lexeme.isFault = false)
    (hname : inName (readString closed opened spans opening rest).spans →
      other.head? = (readString closed opened spans opening rest).rest.head?) :
    readString closed opened spans opening ((readText rest).text ++ other) =
      (readString closed opened spans opening rest).withRest other := by
  have hagain := readText_withRest rest other (stop_ne_unterminated hok) fun hstop => by
    have hhead := head?_rest_readText rest hstop
    simp only [readString, hstop] at hname
    rwa [hname rfl]
  simp only [readString, hagain, Stretch.withRest]
  split <;> rfl

theorem rest_readString :
    (readString closed opened spans opening rest).rest = (readText rest).rest := by
  simp only [readString]
  split <;> rfl

end String

/-! ## Words, numbers and signs -/

theorem readWord_withRest (spans : List Span) {rest other : Bytes}
    (h : other.head?.any isIdentifierContinue = false) :
    readWord spans ((readWord spans rest).text ++ other) = (readWord spans rest).withRest other := by
  have hword : ∀ c ∈ rest.takeWhile isIdentifierContinue, isIdentifierContinue c :=
    fun c hc => List.mem_takeWhile_imp hc
  obtain ⟨htake, hdrop⟩ := Bytes.span_append hword h
  simp only [readWord, htake, hdrop]
  rfl

theorem head?_dropWhile {p : UInt8 → Bool} (text : Bytes) : (text.dropWhile p).head?.any p = false := by
  induction text with
  | nil => rfl
  | cons c cs ih =>
    rw [List.dropWhile_cons]
    split
    · exact ih
    · simpa using ‹¬ p c = true›

theorem isIdentifierContinue_of_isDigit {c : UInt8} (h : isDigit c) : isIdentifierContinue c := by
  unfold isIdentifierContinue
  simp [h]

section Numeral

variable {whole fraction rest : Bytes} (hwhole : ∀ c ∈ whole, isDigit c)
  (hrest : rest.head?.any isDigit = false)

include hwhole hrest

/-- Digits are a numeral, before anything that does not go on with it. -/
theorem numeral_plain (hfraction : startsFraction rest = false) :
    numeral (whole ++ rest) = (whole, rest) := by
  obtain ⟨htake, hdrop⟩ := Bytes.span_append hwhole hrest
  simp only [numeral, htake, hdrop]
  split
  · rename_i c d more
    have hnot : (c == byte '.' && isDigit d) = false := by simpa [startsFraction] using hfraction
    rw [hnot]
    rfl
  · rfl

private theorem numeral_point (hdigits : ∀ c ∈ fraction, isDigit c) (hne : fraction ≠ []) :
    numeral (whole ++ byte '.' :: (fraction ++ rest)) = (whole ++ byte '.' :: fraction, rest) := by
  obtain ⟨d, ds, rfl⟩ := List.exists_cons_of_ne_nil hne
  have hd : isDigit d := hdigits d List.mem_cons_self
  obtain ⟨htake, hdrop⟩ := span_exact hwhole (c := byte '.') (by decide) (d :: (ds ++ rest))
  obtain ⟨htake', hdrop'⟩ := Bytes.span_append hdigits hrest
  rw [List.cons_append] at htake' hdrop'
  simp only [numeral, List.cons_append, htake, hdrop, htake', hdrop', hd, beq_self_eq_true,
    Bool.and_self, if_true]

end Numeral

/-- A numeral is read again before anything that does not go on with it. -/
theorem numeral_withRest (rest other : Bytes) (hdigit : other.head?.any isDigit = false)
    (hfraction : startsFraction (numeral rest).2 = false → startsFraction other = false) :
    numeral ((numeral rest).1 ++ other) = ((numeral rest).1, other) := by
  have hwhole : ∀ c ∈ rest.takeWhile isDigit, isDigit c := fun c hc => List.mem_takeWhile_imp hc
  unfold numeral at hfraction ⊢
  simp only at hfraction ⊢
  split at hfraction
  · rename_i c d more _
    split at hfraction
    · rename_i hpoint
      obtain ⟨hc, hd⟩ := (Bool.and_eq_true _ _).mp hpoint
      obtain rfl := beq_iff_eq.mp hc
      have hne : (d :: more).takeWhile isDigit ≠ [] := by simp [hd]
      rw [if_pos hpoint, List.append_assoc, List.cons_append]
      exact numeral_point hwhole hdigit (fun c hc => List.mem_takeWhile_imp hc) hne
    · rename_i hpoint
      rw [if_neg hpoint]
      exact numeral_plain hwhole hdigit (hfraction (by simpa [startsFraction] using hpoint))
  · rename_i more hmore
    refine numeral_plain hwhole hdigit (hfraction ?_)
    generalize rest.dropWhile isDigit = more at hmore
    rcases more with _ | ⟨c, _ | ⟨d, more⟩⟩
    · rfl
    · exact Bool.and_false _
    · exact absurd rfl (hmore c d more)

/-- A number that is no fault does not run into a word. -/
theorem readNumber_eq (spans : List Span) {rest : Bytes}
    (hok : (readNumber spans rest).lexeme.isFault = false) :
    (numeral rest).2.head?.any isIdentifierContinue = false ∧ readNumber spans rest =
      ⟨.number (Number.ofDecimal (Decimal.ofNumeral (numeral rest).1)), (numeral rest).1,
        (numeral rest).2, spans⟩ := by
  simp only [readNumber] at hok ⊢
  split at hok
  · rename_i hword
    refine ⟨?_, rfl⟩
    cases hmore : (numeral rest).2 with
    | nil => rfl
    | cons c cs =>
      rw [hmore, List.takeWhile_cons] at hword
      simpa using hword
  · cases hok

theorem readNumber_withRest (spans : List Span) {rest other : Bytes}
    (hok : (readNumber spans rest).lexeme.isFault = false)
    (hends : EndsBefore (readNumber spans rest).rest other) :
    readNumber spans ((readNumber spans rest).text ++ other) =
      (readNumber spans rest).withRest other := by
  obtain ⟨hnotWord, heq⟩ := readNumber_eq spans hok
  rw [heq] at hends ⊢
  have hother := hends.word hnotWord
  have hdigit : other.head?.any isDigit = false := by
    cases other with
    | nil => rfl
    | cons c cs =>
      have hc : isIdentifierContinue c = false := hother
      exact Bool.eq_false_iff.mpr fun hd => by
        rw [isIdentifierContinue_of_isDigit hd] at hc
        cases hc
  have hagain := numeral_withRest rest other hdigit hends.fraction
  have hnone : other.takeWhile isIdentifierContinue = [] :=
    (Bytes.span_append (List.forall_mem_nil _) hother).1
  simp only [readNumber, hagain, hnone]
  rfl

/-- What is read behind the first byte is read again, with something else behind it. -/
def Rereads (read : Bytes → Reading) : Prop :=
  ∀ cs other, EndsBefore (read cs).rest other →
    read ((read cs).text.tail ++ other) = (read cs).withRest other

theorem readEquals_single (spans : List Span) (single double : Symbol) (c : UInt8) {cs : Bytes}
    (h : cs.head? ≠ some (byte '=')) :
    readEquals spans single double c cs = ⟨.symbol single, [c], cs, spans⟩ := by
  cases cs with
  | nil => rfl
  | cons d ds => exact if_neg (by simpa using h)

theorem rereads_readEquals (spans : List Span) (single double : Symbol) (c : UInt8) :
    Rereads (readEquals spans single double c) := by
  intro cs other hends
  by_cases hequals : cs.head? = some (byte '=')
  · obtain ⟨ds, rfl⟩ := List.head?_eq_some_iff.mp hequals
    rfl
  · rw [readEquals_single spans single double c hequals] at hends ⊢
    exact readEquals_single spans single double c (hends.equals hequals)

theorem ReadsSign.rereads {spans : List Span} {c : UInt8} {read : Bytes → Reading}
    (h : ReadsSign spans c read) : Rereads read := by
  cases h with
  | equals => exact rereads_readEquals spans _ _ c
  | _ => exact fun _ _ _ => rfl

theorem cons_tail_of_append {c : UInt8} {text rest cs : Bytes} (hcut : text ++ rest = c :: cs)
    (hne : text ≠ []) : c :: text.tail = text := by
  obtain ⟨d, ds, rfl⟩ := List.exists_cons_of_ne_nil hne
  obtain ⟨rfl, -⟩ := List.cons.inj hcut
  rfl

section Lexeme

variable {spans : List Span} {afterOperand : Bool} {c : UInt8} {cs other : Bytes}

/-- A word or a number is read again from the byte that it begins with. -/
theorem rereads_of_text {read : Bytes → Reading}
    (hcut : (read (c :: cs)).text ++ (read (c :: cs)).rest = c :: cs)
    (hne : (read (c :: cs)).text ≠ [])
    (hagain : read ((read (c :: cs)).text ++ other) = (read (c :: cs)).withRest other) :
    read (c :: ((read (c :: cs)).text.tail ++ other)) = (read (c :: cs)).withRest other := by
  rw [← List.cons_append, cons_tail_of_append hcut hne]
  exact hagain

theorem readLexeme_dash_eq (spans : List Span) (afterOperand : Bool) (rest : Bytes) :
    readLexeme spans afterOperand (byte '-') rest =
      if !afterOperand && opensString rest then readString .string .stringStart spans [byte '-'] rest
      else ⟨.symbol .minus, [byte '-'], rest, spans⟩ := rfl

/-- A dash is read again if it keeps its meaning. -/
theorem readLexeme_dash_withRest
    (hok : (readLexeme spans afterOperand (byte '-') cs).lexeme.isFault = false)
    (hname : inName (readLexeme spans afterOperand (byte '-') cs).spans →
      other.head? = (readLexeme spans afterOperand (byte '-') cs).rest.head?)
    (hdash : afterOperand = false →
      opensString ((readLexeme spans afterOperand (byte '-') cs).text.tail ++ other) = opensString cs) :
    readLexeme spans afterOperand (byte '-')
        ((readLexeme spans afterOperand (byte '-') cs).text.tail ++ other) =
      (readLexeme spans afterOperand (byte '-') cs).withRest other := by
  have hread := readLexeme_dash_eq spans afterOperand cs
  by_cases hopens : (!afterOperand && opensString cs) = true
  · rw [if_pos hopens] at hread
    rw [hread] at hok hname hdash ⊢
    rw [text_readString, List.singleton_append, List.tail_cons] at hdash ⊢
    obtain ⟨hoperand, hopens⟩ := (Bool.and_eq_true _ _).mp hopens
    rw [readLexeme_dash_eq, hdash (by simpa using hoperand), hoperand, hopens]
    exact readString_withRest hok hname
  · rw [if_neg hopens] at hread
    rw [hread] at hdash ⊢
    rw [List.tail_cons, List.nil_append] at hdash ⊢
    rw [readLexeme_dash_eq, if_neg]
    · rfl
    · cases afterOperand with
      | true => exact Bool.false_ne_true
      | false =>
        rw [hdash rfl]
        exact hopens

theorem readLexeme_withRest (hok : (readLexeme spans afterOperand c cs).lexeme.isFault = false)
    (hends : EndsBefore (readLexeme spans afterOperand c cs).rest other)
    (hname : inName (readLexeme spans afterOperand c cs).spans →
      other.head? = (readLexeme spans afterOperand c cs).rest.head?)
    (hdash : c = byte '-' → afterOperand = false →
      opensString ((readLexeme spans afterOperand c cs).text.tail ++ other) = opensString cs) :
    readLexeme spans afterOperand c ((readLexeme spans afterOperand c cs).text.tail ++ other) =
      (readLexeme spans afterOperand c cs).withRest other := by
  by_cases hstart : isIdentifierStart c
  · have hread (rest : Bytes) : readLexeme spans afterOperand c rest = readWord spans (c :: rest) :=
      if_pos hstart
    rw [hread] at hends
    rw [hread, hread]
    exact rereads_of_text List.takeWhile_append_dropWhile (text_readWord_ne_nil spans hstart cs)
      (readWord_withRest spans (hends.word (head?_dropWhile _)))
  by_cases hdigit : isDigit c
  · have hread (rest : Bytes) :
        readLexeme spans afterOperand c rest = readNumber spans (c :: rest) := by
      rw [readLexeme, if_neg hstart, if_pos hdigit]
    rw [hread] at hok hends
    rw [hread, hread]
    exact rereads_of_text (readNumber_takes spans (c :: cs)).cut
      (text_readNumber_ne_nil spans hdigit cs) (readNumber_withRest spans hok hends)
  by_cases hminus : c = byte '-'
  · subst hminus
    exact readLexeme_dash_withRest hok hname (hdash rfl)
  · have hread (rest : Bytes) : readLexeme spans afterOperand c rest = readSymbol spans c rest := by
      rw [readLexeme, if_neg hstart, if_neg hdigit, if_neg (by simpa using hminus)]
    rw [hread] at hends
    rw [hread, hread]
    exact (readSymbol_readsSign spans c).rereads cs other hends

end Lexeme

/-! ## Gaps -/

mutual

/-- A gap ends before a byte of a token. -/
theorem head?_skipBlank (l : Location) : (cs : Bytes) → (skipBlank l cs).rest.head?.any startsGap = false
  | [] => rfl
  | c :: cs => by
    unfold skipBlank
    split
    · exact head?_skipBlank (l.step c) cs
    · split
      · exact head?_skipComment l [] (l.step c) cs
      · rename_i hwhite htilde
        simp only [Gap.rest, List.head?_cons, Option.any_some, startsGap, hwhite, htilde]
        rfl

theorem head?_skipComment (start : Location) (read : Bytes) (l : Location) :
    (cs : Bytes) → (skipComment start read l cs).rest.head?.any startsGap = false
  | [] => rfl
  | c :: cs => by
    unfold skipComment
    split
    · rw [Gap.rest_push]
      exact head?_skipBlank (l.step c) cs
    · exact head?_skipComment start (c :: read) (l.step c) cs

end

/-- A gap is skipped, whatever stands behind it. -/
theorem exists_skipBlank_append {gap : Bytes} (h : Blank gap) (l : Location) :
    ∃ comments : List Comment, ∀ rest,
      skipBlank l (gap ++ rest) = comments.foldr Gap.push (skipBlank (l.after gap) rest) := by
  induction h generalizing l with
  | nil => exact ⟨[], fun rest => rfl⟩
  | @white c cs hc _ ih =>
    obtain ⟨comments, hcomments⟩ := ih (l.step c)
    refine ⟨comments, fun rest => ?_⟩
    rw [List.cons_append, skipBlank, if_pos hc]
    exact hcomments rest
  | @comment text cs htext _ ih =>
    have hafter : ((l.step (byte '~')).after text).step (byte '~') =
        l.after (byte '~' :: (text ++ [byte '~'])) := by
      simp [Location.after]
    obtain ⟨comments, hcomments⟩ := ih (l.after (byte '~' :: (text ++ [byte '~'])))
    refine ⟨⟨l, Bytes.trim text⟩ :: comments, fun rest => ?_⟩
    have hopens : skipBlank l (byte '~' :: (text ++ byte '~' :: cs) ++ rest) =
        skipComment l [] (l.step (byte '~')) (text ++ byte '~' :: (cs ++ rest)) := by
      rw [List.cons_append, List.append_assoc, List.cons_append, skipBlank]
      rfl
    rw [hopens, skipComment_text htext, hafter, hcomments]
    simp [Location.after]

/-- A gap with more comments in front. -/
theorem foldr_push_clear (comments more : List Comment) (l : Location) (rest : Bytes) :
    comments.foldr Gap.push (.clear more l rest) = .clear (comments ++ more) l rest := by
  induction comments with
  | nil => rfl
  | cons comment comments ih => rw [List.foldr_cons, ih]; rfl

theorem exists_skipBlank_start {gap : Bytes} (h : Blank gap) (l : Location) {c : UInt8}
    (hc : startsGap c = false) (cs : Bytes) :
    ∃ comments, skipBlank l (gap ++ c :: cs) = .clear comments (l.after gap) (c :: cs) := by
  obtain ⟨comments, hskip⟩ := exists_skipBlank_append h l
  refine ⟨comments ++ [], ?_⟩
  rw [hskip, skipBlank_start hc, foldr_push_clear]

theorem exists_skipBlank_end {gap : Bytes} (h : Blank gap) (l : Location) :
    ∃ comments, skipBlank l gap = .clear comments (l.after gap) [] := by
  obtain ⟨comments, hskip⟩ := exists_skipBlank_append h l
  have hend := hskip []
  rw [List.append_nil, skipBlank, foldr_push_clear] at hend
  exact ⟨comments ++ [], hend⟩

private theorem exists_clear_of_push {before comments : List Comment} {g : Gap} {l : Location}
    {rest : Bytes} (h : before.foldr Gap.push g = .clear comments l rest) :
    ∃ more, g = .clear more l rest := by
  induction before generalizing comments with
  | nil => exact ⟨comments, h⟩
  | cons comment before ih =>
    rw [List.foldr_cons] at h
    generalize before.foldr Gap.push g = inner at h ih
    cases inner with
    | clear more l' rest' =>
      obtain ⟨-, rfl, rfl⟩ := Gap.clear.inj h
      exact ih rfl
    | unclosed => cases h

/-- What stands behind a part of a gap begins with the rest of the gap. -/
theorem Blank.exists_rest {gap gap' rest after : Bytes} (h : Blank gap) (h' : Blank gap')
    (hrest : rest.head?.any startsGap = false) (heq : gap ++ after = gap' ++ rest) :
    ∃ more, Blank more ∧ after = more ++ rest := by
  let l := Location.start 0
  have hclear : ∃ comments, skipBlank l (gap' ++ rest) = .clear comments (l.after gap') rest := by
    cases rest with
    | nil =>
      rw [List.append_nil]
      exact exists_skipBlank_end h' l
    | cons c cs => exact exists_skipBlank_start h' l hrest cs
  obtain ⟨comments, hclear⟩ := hclear
  obtain ⟨before, hskip⟩ := exists_skipBlank_append h l
  rw [← heq, hskip] at hclear
  obtain ⟨more, hmore⟩ := exists_clear_of_push hclear
  have hcovers := skipBlank_covers (l.after gap) after
  rw [hmore] at hcovers
  obtain ⟨blank, hblank, hafter, -⟩ := hcovers
  exact ⟨blank, hblank, hafter⟩

/-! ## Tokens, but for their places -/

/-- What the next token is read as from what is left of the source, where these spans are open. -/
inductive ReadsAs (spans : List Span) (afterOperand : Bool) : Bytes → Reading → Prop
  | word {outer : List Span} {rest : Bytes} (span : spans = .name :: outer) :
      ReadsAs spans afterOperand rest (readWord (.tail :: outer) rest)
  | tail {outer : List Span} {rest : Bytes} (span : spans = .tail :: outer) :
      ReadsAs spans afterOperand rest (readTail outer rest)
  | closing {outer : List Span} {gap cs : Bytes} (span : spans = .group 0 :: outer)
      (blank : Blank gap) : ReadsAs spans afterOperand (gap ++ byte ')' :: cs) (readTail outer cs)
  | lexeme {gap cs : Bytes} {c : UInt8} (outside : inName spans = false) (blank : Blank gap)
      (start : startsGap c = false) (inner : spans.head? = some (.group 0) → c ≠ byte ')') :
      ReadsAs spans afterOperand (gap ++ c :: cs) (readLexeme spans afterOperand c cs)
  | ended {gap : Bytes} (outside : inName spans = false) (blank : Blank gap) :
      ReadsAs spans afterOperand gap ⟨.endOfInput, [], [], spans⟩

namespace Scanner

/-- A scanner reads what is left of the source, wherever it is. -/
theorem next_readsAs (s : Scanner) (hok : s.next.1.lexeme.isFault = false) :
    ∃ r, ReadsAs s.spans s.afterOperand s.rest r ∧ ∃ comments l, s.next = emit comments l r := by
  obtain ⟨rest, l, spans, afterOperand⟩ := s
  revert hok
  unfold next
  split
  · rename_i outer hspans
    obtain rfl : spans = .name :: outer := hspans
    exact fun _ => ⟨_, .word rfl, _, _, rfl⟩
  · rename_i outer hspans
    obtain rfl : spans = .tail :: outer := hspans
    exact fun _ => ⟨_, .tail rfl, _, _, rfl⟩
  · rename_i hname htail
    have outside : inName spans = false := by
      unfold inName
      split
      · exact absurd rfl (hname _)
      · exact absurd rfl (htail _)
      · rfl
    have hcovers := skipBlank_covers l rest
    have hhead := head?_skipBlank l rest
    split
    · exact fun hok => by cases hok
    · rename_i comments l' hgap
      simp only [hgap] at hcovers
      obtain ⟨gap, hblank, rfl, rfl⟩ := hcovers
      rw [List.append_nil]
      exact fun _ => ⟨_, .ended outside hblank, _, _, rfl⟩
    · rename_i comments l' c cs hgap
      simp only [hgap] at hcovers hhead
      obtain ⟨gap, hblank, rfl, rfl⟩ := hcovers
      have hstart : startsGap c = false := hhead
      split
      · rename_i outer hgroup
        obtain rfl : spans = .group 0 :: outer := hgroup
        split
        · rename_i hc
          obtain rfl := beq_iff_eq.mp hc
          exact fun _ => ⟨_, .closing rfl hblank, _, _, rfl⟩
        · rename_i hc
          exact fun _ => ⟨_, .lexeme outside hblank hstart fun _ => by simpa using hc, _, _, rfl⟩
      · rename_i hgroup
        refine fun _ => ⟨_, .lexeme outside hblank hstart fun hhead => ?_, _, _, rfl⟩
        obtain ⟨outer, rfl⟩ := List.head?_eq_some_iff.mp hhead
        exact absurd rfl (hgroup outer)

end Scanner

/-- It gives what was read, with the place and the comments of its own. -/
theorem ReadsAs.next {s : Scanner} {r : Reading} (h : ReadsAs s.spans s.afterOperand s.rest r) :
    ∃ comments l, s.next = Scanner.emit comments l r := by
  generalize hrest : s.rest = rest at h
  cases h with
  | word span => exact ⟨[], s.location, by simp only [Scanner.next, span, hrest]⟩
  | tail span => exact ⟨[], s.location, by simp only [Scanner.next, span, hrest]⟩
  | @closing outer gap cs span blank =>
    obtain ⟨comments, hskip⟩ := exists_skipBlank_start blank s.location (c := byte ')') (by decide) cs
    refine ⟨[], (s.location.after gap).step (byte ')'), ?_⟩
    simp only [Scanner.next, span, hrest, hskip]
    rfl
  | @lexeme gap cs c outside blank start inner =>
    obtain ⟨comments, hskip⟩ := exists_skipBlank_start blank s.location start cs
    refine ⟨comments, s.location.after gap, ?_⟩
    generalize hspans : s.spans = spans at outside inner
    rcases spans with _ | ⟨_ | _ | ⟨_ | depth⟩, outer⟩
    · simp only [Scanner.next, hspans, hrest, hskip]
    · cases outside
    · cases outside
    · have hc : (c == byte ')') = false := beq_eq_false_iff_ne.mpr (inner rfl)
      simp only [Scanner.next, hspans, hrest, hskip, hc]
      rfl
    · simp only [Scanner.next, hspans, hrest, hskip]
  | ended outside blank =>
    obtain ⟨comments, hskip⟩ := exists_skipBlank_end blank s.location
    refine ⟨comments, s.location.after rest, ?_⟩
    generalize hspans : s.spans = spans at outside
    rcases spans with _ | ⟨_ | _ | depth, outer⟩
    · simp only [Scanner.next, hspans, hrest, hskip]
    · cases outside
    · cases outside
    · simp only [Scanner.next, hspans, hrest, hskip]

/-! ## Tokens with something else behind them -/

/-- A dash comes next, behind no operand, with this behind it. -/
structure MeetsDash (spans : List Span) (afterOperand : Bool) (rest behind : Bytes) : Prop where
  outside : inName spans = false
  operand : afterOperand = false
  dash : ∃ gap, Blank gap ∧ rest = gap ++ byte '-' :: behind

theorem readTail_withRest {outer : List Span} {rest other : Bytes}
    (hok : (readTail outer rest).lexeme.isFault = false)
    (hname : inName (readTail outer rest).spans → other.head? = (readTail outer rest).rest.head?) :
    rest = (readText rest).text ++ (readTail outer rest).rest ∧
      readTail outer ((readText rest).text ++ other) = (readTail outer rest).withRest other := by
  refine ⟨?_, readString_withRest hok hname⟩
  have hcut := (readTail_takes .tail outer rest).cut
  rwa [readTail, text_readString, List.nil_append, eq_comm] at hcut

/-- A token is read again if something else stands behind it that does not go on with it, and if a
dash keeps its meaning. -/
theorem ReadsAs.withRest {spans : List Span} {afterOperand : Bool} {rest other : Bytes} {r : Reading}
    (h : ReadsAs spans afterOperand rest r) (hok : r.lexeme.isFault = false)
    (hmore : r.lexeme.isEnd = false) (hends : EndsBefore r.rest other)
    (hname : inName r.spans → other.head? = r.rest.head?)
    (hdash : ∀ behind, MeetsDash spans afterOperand rest (behind ++ r.rest) →
      opensString (behind ++ other) = opensString (behind ++ r.rest)) :
    ∃ front, rest = front ++ r.rest ∧
      ReadsAs spans afterOperand (front ++ other) (r.withRest other) := by
  cases h with
  | @word outer rest span =>
    refine ⟨(readWord (.tail :: outer) rest).text, List.takeWhile_append_dropWhile.symm, ?_⟩
    rw [← readWord_withRest _ (hends.word (head?_dropWhile _))]
    exact .word span
  | @tail outer rest span =>
    obtain ⟨hcut, hagain⟩ := readTail_withRest hok hname
    refine ⟨_, hcut, ?_⟩
    rw [← hagain]
    exact .tail span
  | @closing outer gap cs span blank =>
    obtain ⟨hcut, hagain⟩ := readTail_withRest hok hname
    refine ⟨gap ++ byte ')' :: (readText cs).text, ?_, ?_⟩
    · rw [List.append_assoc, List.cons_append, ← hcut]
    · rw [List.append_assoc, List.cons_append, ← hagain]
      exact .closing span blank
  | @lexeme gap cs c outside blank start inner =>
    have hcut := (readLexeme_takes outside afterOperand c cs).cut
    have hhead := cons_tail_of_append hcut (readLexeme_readsLexeme spans c cs afterOperand).text_ne_nil
    have hbehind : (readLexeme spans afterOperand c cs).text.tail ++
        (readLexeme spans afterOperand c cs).rest = cs := by
      rw [← hhead, List.cons_append] at hcut
      exact (List.cons.inj hcut).2
    have hagain := readLexeme_withRest hok hends hname fun hc hoperand => by
      have hmeets := hdash (readLexeme spans afterOperand c cs).text.tail
      rw [hbehind] at hmeets
      exact hmeets ⟨outside, hoperand, gap, blank, by rw [hc]⟩
    refine ⟨gap ++ (readLexeme spans afterOperand c cs).text, ?_, ?_⟩
    · rw [List.append_assoc, hcut]
    · rw [← hagain, ← hhead, List.append_assoc, List.cons_append]
      exact .lexeme outside blank start inner
  | ended => cases hmore

end Roar
