import Roar.Proofs.Token.ClosingDash
import Roar.Proofs.Token.Rereading

/-!
# Looking ahead over a border between tokens

Whether a dash opens a string is found out from the bytes behind it, and not from tokens. A border
between two tokens can lie among these bytes (`Border`).

* `looks_closingDash`: at a border, the closing dash has been found, or it is still looked for in a
  way that does not depend on what stands before the border, or the line has ended (`Looks`).
* `startsOperand_append`: an operand that begins before a border is seen there.
* `opensString_commented_iff`: a plain comment at a border leaves a dash its meaning, unless the
  closing dash stands right before the comment and an operand right behind it.
-/

namespace Roar

open Byte

/-! ## Borders -/

/-- No byte behind this one goes on with what it ends. -/
def standsAlone (c : UInt8) : Bool :=
  c != byte '\\' && c != byte '$' && c != byte '!' && !isIdentifierContinue c

/-- Nothing begins with the last byte of `text` and goes on in `rest`. -/
structure Border (text rest : Bytes) : Prop where
  escape : text.getLast? ≠ some (byte '\\')
  dollar : text.getLast? ≠ some (byte '$')
  bang : text.getLast? = some (byte '!') → rest.head? ≠ some (byte '=')
  word : text.getLast?.any isIdentifierContinue → rest.head?.any isIdentifierContinue = false

section Border

variable {text first rest : Bytes} {c : UInt8}

theorem Border.of_alone (hlast : text.getLast? = some c) (hc : standsAlone c) : Border text rest := by
  simp only [standsAlone, Bool.and_eq_true, bne_iff_ne, Bool.not_eq_true'] at hc
  obtain ⟨⟨⟨hescape, hdollar⟩, hbang⟩, hword⟩ := hc
  have hne {d : UInt8} (hd : c ≠ d) : text.getLast? ≠ some d := by
    rw [hlast]
    exact fun h => hd (Option.some.inj h)
  refine ⟨hne hescape, hne hdollar, fun h => absurd h (hne hbang), fun h => ?_⟩
  rw [hlast, Option.any_some, hword] at h
  cases h

theorem Border.of_word (hlast : ∀ c, text.getLast? = some c → isIdentifierContinue c)
    (hrest : rest.head?.any isIdentifierContinue = false) : Border text rest := by
  have hne {d : UInt8} (hd : isIdentifierContinue d = false) : text.getLast? ≠ some d := by
    intro h
    rw [hlast d h] at hd
    cases hd
  exact ⟨hne (by decide), hne (by decide), fun h => absurd h (hne (by decide)), fun _ => hrest⟩

theorem Border.prepend (h : Border text rest) (hne : text ≠ []) : Border (first ++ text) rest := by
  have hlast : (first ++ text).getLast? = text.getLast? := List.getLast?_append_of_ne_nil _ hne
  exact ⟨hlast ▸ h.escape, hlast ▸ h.dollar, hlast ▸ h.bang, hlast ▸ h.word⟩

theorem Border.of_append (h : Border (first ++ text) rest) : Border text rest := by
  by_cases hne : text = []
  · subst hne
    exact ⟨nofun, nofun, nofun, nofun⟩
  · have hlast : (first ++ text).getLast? = text.getLast? := List.getLast?_append_of_ne_nil _ hne
    exact ⟨hlast ▸ h.escape, hlast ▸ h.dollar, hlast ▸ h.bang, hlast ▸ h.word⟩

theorem Border.of_cons (h : Border (c :: text) rest) : Border text rest :=
  Border.of_append (show Border ([c] ++ text) rest from h)

/-- A blank can be put at a border. -/
theorem Border.insert (h : Border text rest) (more : Bytes) : Border text (byte ' ' :: more) :=
  ⟨h.escape, h.dollar, fun _ => nofun, fun _ => rfl⟩

private theorem standsAlone_of_isWhitespace (h : isWhitespace c) : standsAlone c := by
  simp only [isWhitespace, Bool.or_eq_true, beq_iff_eq] at h
  rcases h with ((rfl | rfl) | rfl) | rfl <;> decide

theorem Blank.border (h : Blank text) (hne : text ≠ []) : Border text rest := by
  induction h with
  | nil => exact absurd rfl hne
  | @white c cs hc _ ih =>
    by_cases hcs : cs = []
    · subst hcs
      exact .of_alone rfl (standsAlone_of_isWhitespace hc)
    · exact show Border ([c] ++ cs) rest from (ih hcs).prepend hcs
  | @comment inner cs _ _ ih =>
    have hcut : byte '~' :: (inner ++ byte '~' :: cs) =
        (byte '~' :: inner ++ [byte '~']) ++ cs := by simp
    by_cases hcs : cs = []
    · subst hcs
      exact .of_alone (by rw [hcut, List.append_nil, List.getLast?_concat]) (c := byte '~') (by decide)
    · rw [hcut]
      exact (ih hcs).prepend hcs

end Border

/-! ## Tokens end at borders -/

/-- If the reading is no fault, there is a border behind it. -/
def Reading.Bordered (r : Reading) : Prop := r.lexeme.isFault = false → Border r.text r.rest

section Reading

variable {spans : List Span} {c : UInt8} {cs : Bytes}

theorem bordered_readEquals {single double : Symbol} (hc : c = byte '!' ∨ standsAlone c) :
    (readEquals spans single double c cs).Bordered := by
  intro _
  by_cases hequals : cs.head? = some (byte '=')
  · obtain ⟨ds, rfl⟩ := List.head?_eq_some_iff.mp hequals
    exact .of_alone rfl (c := byte '=') (by decide)
  · rw [readEquals_single spans single double c hequals]
    rcases hc with rfl | hc
    · exact ⟨by simp, by simp, fun _ => hequals, fun h => by cases h⟩
    · exact .of_alone rfl hc

theorem ReadsSign.bordered {read : Bytes → Reading} (h : ReadsSign spans c read) :
    (read cs).Bordered := by
  have hplain : ∀ c ∈ ascii "+*/%,|", standsAlone c := by decide +kernel
  have hequals : ∀ c ∈ ascii "!=<>", c = byte '!' ∨ standsAlone c := by decide +kernel
  cases h with
  | single _ hc => exact fun _ => .of_alone rfl (hplain c hc)
  | equals _ _ hc => exact bordered_readEquals (hequals c hc)
  | opening hc => exact fun _ => .of_alone rfl (hc ▸ by decide)
  | closing hc => exact fun _ => .of_alone rfl (hc ▸ by decide)
  | unexpected => exact fun hok => by cases hok

theorem bordered_readWord {rest : Bytes} : (readWord spans rest).Bordered := by
  refine fun _ => .of_word (fun c hlast => ?_) (head?_dropWhile rest)
  exact List.mem_takeWhile_imp (List.mem_of_getLast? hlast)

private theorem getLast?_numeral {rest : Bytes} {d : UInt8} (h : (numeral rest).1.getLast? = some d) :
    isDigit d := by
  have hdigits {text : Bytes} (hlast : (text.takeWhile isDigit).getLast? = some d) : isDigit d :=
    List.mem_takeWhile_imp (List.mem_of_getLast? hlast)
  simp only [numeral] at h
  split at h
  · rename_i _ e more _
    split at h
    · rename_i hpoint
      obtain ⟨-, he⟩ := (Bool.and_eq_true _ _).mp hpoint
      have hne : (e :: more).takeWhile isDigit ≠ [] := by simp [he]
      rw [List.getLast?_append_of_ne_nil _ (List.cons_ne_nil _ _), List.getLast?_cons_of_ne_nil hne] at h
      exact hdigits h
    · exact hdigits h
  · exact hdigits h

theorem bordered_readNumber {rest : Bytes} : (readNumber spans rest).Bordered := by
  intro hok
  obtain ⟨hrest, heq⟩ := readNumber_eq spans hok
  rw [heq]
  exact .of_word (fun c hlast => isIdentifierContinue_of_isDigit (getLast?_numeral hlast)) hrest

private theorem getLast?_text_readText (cs : Bytes) :
    ((readText cs).stop = .closed → (readText cs).text.getLast? = some (byte '-')) ∧
      ((readText cs).stop = .group → (readText cs).text.getLast? = some (byte '(')) := by
  fun_induction readText cs <;> grind [Stretch.push]

theorem bordered_readString {closed opened : Bytes → Lexeme} {opening rest : Bytes}
    (houtside : inName (readString closed opened spans opening rest).spans = false) :
    (readString closed opened spans opening rest).Bordered := by
  intro hok
  have hlast := getLast?_text_readText rest
  have hne := text_ne_nil_of_stop rest (stop_ne_unterminated hok)
  rw [text_readString]
  refine .prepend ?_ hne
  simp only [readString] at hok houtside
  split at hok
  · rename_i hstop
    exact .of_alone (hlast.1 hstop) (by decide)
  · rename_i hstop
    rw [hstop] at houtside
    cases houtside
  · rename_i hstop
    exact .of_alone (hlast.2 hstop) (by decide)
  · cases hok
  · cases hok

theorem ReadsLexeme.bordered {r : Reading} (h : ReadsLexeme spans c cs r)
    (houtside : inName r.spans = false) : r.Bordered := by
  cases h with
  | word => exact bordered_readWord
  | number => exact bordered_readNumber
  | string => exact bordered_readString houtside
  | minus hc => exact fun _ => .of_alone rfl (hc ▸ by decide)
  | sign h => exact h.bordered

end Reading

/-- There is a border behind a token, unless it is beside the word of a `$name`. -/
theorem ReadsAs.border {spans : List Span} {afterOperand : Bool} {rest : Bytes} {r : Reading}
    (h : ReadsAs spans afterOperand rest r) (hok : r.lexeme.isFault = false)
    (hmore : r.lexeme.isEnd = false) (houtside : inName r.spans = false) :
    ∃ front, rest = front ++ r.rest ∧ front ≠ [] ∧ Border front r.rest := by
  have htail {outer : List Span} {rest : Bytes} (hok : (readTail outer rest).lexeme.isFault = false)
      (houtside : inName (readTail outer rest).spans = false) :
      ∃ front, rest = front ++ (readTail outer rest).rest ∧ front ≠ [] ∧
        Border front (readTail outer rest).rest := by
    have hborder := bordered_readString houtside hok
    have hcut := (readTail_takes .tail outer rest).cut
    rw [text_readString, List.nil_append] at hborder
    rw [readTail, text_readString, List.nil_append, eq_comm] at hcut
    exact ⟨_, hcut, text_ne_nil_of_stop rest (stop_ne_unterminated hok), hborder⟩
  cases h with
  | word => cases houtside
  | tail => exact htail hok houtside
  | @closing outer gap cs =>
    obtain ⟨front, hcut, hne, hborder⟩ := htail hok houtside
    refine ⟨gap ++ byte ')' :: front, ?_, by simp, ?_⟩
    · rw [List.append_assoc, List.cons_append, ← hcut]
    · rw [List.append_cons]
      exact hborder.prepend hne
  | @lexeme gap cs c outside =>
    have hne := (readLexeme_readsLexeme spans c cs afterOperand).text_ne_nil
    refine ⟨gap ++ (readLexeme spans afterOperand c cs).text, ?_, by simp [hne], ?_⟩
    · rw [List.append_assoc, (readLexeme_takes outside afterOperand c cs).cut]
    · exact ((readLexeme_readsLexeme spans c cs afterOperand).bordered houtside hok).prepend hne
  | ended => cases hmore

/-! ## Looking for the closing dash -/

/-- What has come of looking over `text`, whatever stands behind it: the line ended in it, the
closing dash is in it, or the look goes on behind it. -/
inductive Looks (look : Bytes → Option Bytes) (text : Bytes) : Prop
  | stopped (ahead : ∀ rest, look (text ++ rest) = none)
  | found {first behind : Bytes} (cut : text = first ++ byte '-' :: behind)
      (ahead : ∀ rest, look (text ++ rest) = some (behind ++ rest))
  | looking (ahead : ∀ rest, look (text ++ rest) = closingDash? rest)
  | inGroup {depth : Nat} (ahead : ∀ rest, look (text ++ rest) = skipGroup? depth rest)

/-- What is looked over step by step. -/
theorem Looks.step {look look' : Bytes → Option Bytes} {text : Bytes} (taken : Bytes)
    (h : Looks look' text) (hstep : ∀ rest, look (taken ++ (text ++ rest)) = look' (text ++ rest)) :
    Looks look (taken ++ text) := by
  have hassoc (rest : Bytes) : look (taken ++ text ++ rest) = look' (text ++ rest) := by
    rw [List.append_assoc, hstep]
  cases h with
  | stopped ahead => exact .stopped fun rest => (hassoc rest).trans (ahead rest)
  | found cut ahead =>
    refine .found (by rw [cut, ← List.append_assoc]) fun rest => (hassoc rest).trans (ahead rest)
  | looking ahead => exact .looking fun rest => (hassoc rest).trans (ahead rest)
  | inGroup ahead => exact .inGroup fun rest => (hassoc rest).trans (ahead rest)

section Steps

variable {c : UInt8} {cs : Bytes}

theorem closingDash?_newline (h : isNewline c) : closingDash? (c :: cs) = none := by
  rw [closingDash?.eq_def]
  exact if_pos h

theorem closingDash?_pass (hline : isNewline c = false) (hslash : c ≠ byte '\\') (hdash : c ≠ byte '-')
    (hgroup : c = byte '$' → cs.head? ≠ some (byte '(')) : closingDash? (c :: cs) = closingDash? cs := by
  rw [closingDash?.eq_def]
  simp only [hline, beq_eq_false_iff_ne.mpr hslash, beq_eq_false_iff_ne.mpr hdash, Bool.false_eq_true,
    if_false]
  cases cs with
  | nil => rfl
  | cons d ds =>
    refine if_neg fun h => ?_
    simp only [Bool.and_eq_true, beq_iff_eq] at h
    exact hgroup h.1 (congrArg some h.2)

theorem skipGroup?_newline {depth : Nat} (h : isNewline c) : skipGroup? depth (c :: cs) = none := by
  rw [skipGroup?.eq_def]
  exact if_pos h

theorem skipGroup?_pass {depth : Nat} (hline : isNewline c = false) (hopen : c ≠ byte '(')
    (hclose : c ≠ byte ')') : skipGroup? depth (c :: cs) = skipGroup? depth cs := by
  rw [skipGroup?.eq_def]
  simp only [hline, beq_eq_false_iff_ne.mpr hopen, beq_eq_false_iff_ne.mpr hclose, Bool.false_eq_true,
    if_false]

end Steps

mutual

/-- What has come of looking for the closing dash up to a border. -/
theorem looks_closingDash {later : Bytes} : (text : Bytes) → Border text later → Looks closingDash? text
  | [], _ => .looking fun _ => rfl
  | c :: cs, hborder => by
    cases hline : isNewline c with
    | true => exact .stopped fun rest => closingDash?_newline hline
    | false =>
    by_cases hslash : c = byte '\\'
    · subst hslash
      cases cs with
      | nil => exact absurd rfl hborder.escape
      | cons e es =>
        exact (looks_closingDash es hborder.of_cons.of_cons).step [byte '\\', e]
          fun rest => closingDash?_escaped e (es ++ rest)
    by_cases hdash : c = byte '-'
    · subst hdash
      exact .found (List.nil_append _).symm fun rest => closingDash?_dash (cs ++ rest)
    by_cases hgroup : c = byte '$' ∧ cs.head? = some (byte '(')
    · obtain ⟨rfl, hhead⟩ := hgroup
      obtain ⟨ds, rfl⟩ := List.head?_eq_some_iff.mp hhead
      exact (looks_skipGroup 0 ds hborder.of_cons.of_cons).step [byte '$', byte '('] fun rest => rfl
    · refine (looks_closingDash cs hborder.of_cons).step [c] fun rest =>
        closingDash?_pass hline hslash hdash fun hc => ?_
      -- a dollar sign is not the last byte, so the byte behind it is in the text
      cases cs with
      | nil => exact absurd (congrArg some hc) hborder.dollar
      | cons d ds => exact fun hhead => hgroup ⟨hc, hhead⟩

theorem looks_skipGroup {later : Bytes} (depth : Nat) :
    (text : Bytes) → Border text later → Looks (skipGroup? depth) text
  | [], _ => .inGroup fun _ => rfl
  | c :: cs, hborder => by
    cases hline : isNewline c with
    | true => exact .stopped fun rest => skipGroup?_newline hline
    | false =>
    by_cases hopen : c = byte '('
    · subst hopen
      exact (looks_skipGroup (depth + 1) cs hborder.of_cons).step [byte '('] fun rest => rfl
    by_cases hclose : c = byte ')'
    · subst hclose
      cases depth with
      | zero => exact (looks_closingDash cs hborder.of_cons).step [byte ')'] fun rest => rfl
      | succ depth => exact (looks_skipGroup depth cs hborder.of_cons).step [byte ')'] fun rest => rfl
    · exact (looks_skipGroup depth cs hborder.of_cons).step [c] fun rest =>
        skipGroup?_pass hline hopen hclose

end

/-! ## Operands behind the closing dash -/

/-- Behind blanks alone. -/
theorem startsOperand_blanks {blanks : Bytes} (h : ∀ c ∈ blanks, c = byte ' ' ∨ c = byte '\t')
    (rest : Bytes) : startsOperand (blanks ++ rest) = startsOperand rest := by
  have hblanks : ∀ c ∈ blanks, (c == byte ' ' || c == byte '\t') = true :=
    fun c hc => by simpa using h c hc
  simp only [startsOperand, List.dropWhile_append_of_pos hblanks]

/-- A word that ends at a border is the same whatever stands behind it. -/
theorem takeWhile_append_of_last {p : UInt8 → Bool} {text rest : Bytes} (hne : text ≠ [])
    (h : text.getLast?.any p → rest.head?.any p = false) :
    (text ++ rest).takeWhile p = text.takeWhile p := by
  induction text with
  | nil => exact absurd rfl hne
  | cons c cs ih =>
    rw [List.cons_append, List.takeWhile_cons, List.takeWhile_cons]
    split
    · rename_i hc
      cases cs with
      | nil => exact congrArg _ (Bytes.span_append (List.forall_mem_nil _) (h hc)).1
      | cons d ds => rw [ih (List.cons_ne_nil d ds) h]
    · rfl

/-- What begins before a border is seen to be an operand, or not, whatever stands behind the border.
-/
theorem startsOperand_append {text rest : Bytes} (h : Border text rest)
    (hne : ¬ ∀ c ∈ text, c = byte ' ' ∨ c = byte '\t') :
    startsOperand (text ++ rest) = startsOperand text := by
  generalize hblank : (fun c : UInt8 => c == byte ' ' || c == byte '\t') = blank
  obtain ⟨c, cs, hdrop⟩ : ∃ c cs, text.dropWhile blank = c :: cs := by
    refine List.exists_cons_of_ne_nil fun hnil => hne fun c hc => ?_
    have hc := List.dropWhile_eq_nil_iff.mp hnil c hc
    simpa [← hblank] using hc
  have hborder : Border (c :: cs) rest := by
    rw [← List.takeWhile_append_dropWhile (p := blank) (l := text), hdrop] at h
    exact h.of_append
  have hbang (hc : c = byte '!') :
      ((cs ++ rest).head? != some (byte '=')) = (cs.head? != some (byte '=')) := by
    cases cs with
    | nil => exact bne_iff_ne.mpr (hborder.bang (congrArg some hc))
    | cons d ds => rfl
  have hword := takeWhile_append_of_last (List.cons_ne_nil c cs) hborder.word
  have hdrop' : (text ++ rest).dropWhile blank = c :: (cs ++ rest) := by
    rw [List.dropWhile_append, hdrop]
    rfl
  rw [List.cons_append] at hword
  simp only [startsOperand, hblank, hdrop, hdrop', hword]
  split
  · rfl
  split
  · rename_i hc
    exact hbang (beq_iff_eq.mp hc)
  · rfl

/-! ## A comment at a border -/

/-- A comment with blanks around it. -/
def commented (text : Bytes) : Bytes := byte ' ' :: byte '~' :: (text ++ [byte '~', byte ' '])

/-- The text is on one line and has no dash, backslash or parenthesis in it. -/
def PlainComment (text : Bytes) : Prop :=
  ∀ c ∈ text, isNewline c = false ∧ c ∉ [byte '-', byte '\\', byte '(', byte ')']

instance (text : Bytes) : Decidable (PlainComment text) :=
  inferInstanceAs (Decidable (∀ c ∈ text, isNewline c = false ∧ c ∉ _))

section Comment

variable {text : Bytes} (hplain : PlainComment text)

include hplain

private theorem closingDash?_append_plain {rest : Bytes} (hrest : rest.head? ≠ some (byte '(')) :
    closingDash? (text ++ rest) = closingDash? rest := by
  induction text with
  | nil => rfl
  | cons c cs ih =>
    obtain ⟨⟨hline, hc⟩, hcs⟩ := List.forall_mem_cons.mp hplain
    simp only [List.mem_cons, List.not_mem_nil, or_false, not_or] at hc
    obtain ⟨hdash, hslash, hopen, hclose⟩ := hc
    have hgroup : (cs ++ rest).head? ≠ some (byte '(') := by
      cases cs with
      | nil => exact hrest
      | cons d ds =>
        intro hd
        obtain rfl := Option.some.inj hd
        exact (hcs _ List.mem_cons_self).2 (by simp)
    rw [List.cons_append, closingDash?_pass hline hslash hdash fun _ => hgroup,
      ih hcs]

private theorem skipGroup?_append_plain (rest : Bytes) (depth : Nat) :
    skipGroup? depth (text ++ rest) = skipGroup? depth rest := by
  induction text with
  | nil => rfl
  | cons c cs ih =>
    obtain ⟨⟨hline, hc⟩, hcs⟩ := List.forall_mem_cons.mp hplain
    simp only [List.mem_cons, List.not_mem_nil, or_false, not_or] at hc
    obtain ⟨hdash, hslash, hopen, hclose⟩ := hc
    rw [List.cons_append, skipGroup?_pass hline hopen hclose, ih hcs]

private theorem closingDash?_commented (rest : Bytes) :
    closingDash? (commented text ++ rest) = closingDash? rest := by
  have hpass {c : UInt8} (hc : c ∈ [byte ' ', byte '~']) (cs : Bytes) :
      closingDash? (c :: cs) = closingDash? cs := by
    rcases List.mem_pair.mp hc with rfl | rfl <;>
      exact closingDash?_pass (by decide) (by decide) (by decide) (by simp)
  rw [commented, List.cons_append, hpass (by simp), List.cons_append, hpass (by simp), List.append_assoc,
    closingDash?_append_plain hplain (by simp), List.cons_append, hpass (by simp), List.cons_append,
    hpass (by simp), List.nil_append]

private theorem skipGroup?_commented (rest : Bytes) (depth : Nat) :
    skipGroup? depth (commented text ++ rest) = skipGroup? depth rest := by
  have hpass {c : UInt8} (hc : c ∈ [byte ' ', byte '~']) (cs : Bytes) :
      skipGroup? depth (c :: cs) = skipGroup? depth cs := by
    rcases List.mem_pair.mp hc with rfl | rfl <;>
      exact skipGroup?_pass (by decide) (by decide) (by decide)
  rw [commented, List.cons_append, hpass (by simp), List.cons_append, hpass (by simp), List.append_assoc,
    skipGroup?_append_plain hplain, List.cons_append, hpass (by simp), List.cons_append,
    hpass (by simp), List.nil_append]

end Comment

private theorem startsOperand_commented (text rest : Bytes) :
    startsOperand (commented text ++ rest) = false := rfl

/-- A plain comment at a border leaves a dash its meaning, unless the closing dash stands right
before the comment and an operand right behind it. -/
theorem opensString_commented_iff {text behind later : Bytes} (hplain : PlainComment text)
    (hborder : Border behind later) :
    opensString (behind ++ (commented text ++ later)) = opensString (behind ++ later) ↔
      ¬ ∃ first blanks, behind = first ++ byte '-' :: blanks ∧
        (∀ c ∈ blanks, c = byte ' ' ∨ c = byte '\t') ∧
        closingDash? (behind ++ later) = some (blanks ++ later) ∧ startsOperand later := by
  have hlonger {text blanks : Bytes} (h : later = text ++ byte '-' :: (blanks ++ later)) : False := by
    have hlength := congrArg List.length h
    simp only [List.length_append, List.length_cons] at hlength
    omega
  unfold opensString
  cases looks_closingDash behind hborder with
  | stopped ahead =>
    rw [ahead, ahead]
    exact iff_of_true rfl fun ⟨_, _, _, _, h, _⟩ => by cases h
  | @found first blanks cut ahead =>
    rw [ahead, ahead, Option.any_some, Option.any_some]
    by_cases hblanks : ∀ c ∈ blanks, c = byte ' ' ∨ c = byte '\t'
    · rw [startsOperand_blanks hblanks, startsOperand_blanks hblanks, startsOperand_commented]
      cases hoperand : startsOperand later with
      | false => exact iff_of_true rfl fun ⟨_, _, _, _, _, h⟩ => by cases h
      | true => exact iff_of_false nofun (not_not_intro ⟨first, blanks, cut, hblanks, rfl, rfl⟩)
    · have hborder : Border blanks later := (cut ▸ hborder).of_append.of_cons
      have hborder' : Border blanks (commented text ++ later) := hborder.insert _
      rw [startsOperand_append hborder hblanks, startsOperand_append hborder' hblanks]
      refine iff_of_true rfl fun ⟨_, blanks', _, hblanks', h, _⟩ => hblanks ?_
      rwa [List.append_cancel_right (Option.some.inj h)]
  | looking ahead =>
    rw [ahead, ahead, closingDash?_commented hplain]
    refine iff_of_true rfl fun ⟨_, blanks, _, _, h, _⟩ => ?_
    obtain ⟨text, htext, -⟩ := exists_closingDash later h
    exact hlonger htext
  | inGroup ahead =>
    rw [ahead, ahead, skipGroup?_commented hplain]
    refine iff_of_true rfl fun ⟨_, blanks, _, _, h, _⟩ => ?_
    obtain ⟨text, htext⟩ := exists_closingDash_group _ later h
    exact hlonger htext

end Roar
