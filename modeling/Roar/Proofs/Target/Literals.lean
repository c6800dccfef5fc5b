import Roar.Target.Quoted

/-!
# Reading string literals

How a reader of the output takes a string literal apart: a backslash and what follows it stand for a
byte, an unescaped double quote ends a plain string, and the text of a string between backquotes
goes on up to an unescaped backquote or an unescaped `$` before an opening brace.

What is written is read back as it was: `readUntil_quoted` for plain strings,
`readUntil_templateText` for the text between backquotes, whatever ends it.
-/

namespace Roar

open Byte

/-! ## Bytes -/

/-- The value of a digit of base sixteen. -/
def hexValue? (c : UInt8) : Option Nat :=
  if isDigit c then some (c - byte '0').toNat
  else if byte 'a' ≤ c && c ≤ byte 'f' then some ((c - byte 'a').toNat + 10)
  else none

/-- The escapes that are a letter. -/
def letterEscapes : List (UInt8 × UInt8) :=
  [(byte 'n', byte '\n'), (byte 't', byte '\t'), (byte 'r', byte '\r'), (byte 'b', 0x08),
    (byte 'v', 0x0b), (byte 'f', 0x0c)]

/-- The byte that an escape stands for, read behind the backslash. Escapes by number other than the
one with two digits of base sixteen are not read, and neither is an escaped end of line. -/
def readEscape : Bytes → Option (UInt8 × Bytes)
  | [] => none
  | c :: text =>
    if c == byte 'x' then
      match text with
      | high :: low :: text => do
        let high ← hexValue? high
        let low ← hexValue? low
        some (UInt8.ofNat (16 * high + low), text)
      | _ => none
    else
      match letterEscapes.lookup c with
      | some value => some (value, text)
      | none => if isDigit c || c == byte 'u' || isNewline c then none else some (c, text)

/-- One byte of a string. No line ends inside a literal. -/
def readByte : Bytes → Option (UInt8 × Bytes)
  | [] => none
  | c :: text =>
    if c == byte '\\' then readEscape text
    else if isNewline c then none
    else some (c, text)

private theorem hexValue?_hexDigit : ∀ n < 16, hexValue? (hexDigit n) = some n := by decide

private theorem readByte_hex (c : UInt8) (text : Bytes) :
    readByte (ascii "\\x" ++ [hexDigit (c.toNat / 16), hexDigit (c.toNat % 16)] ++ text) =
      some (c, text) := by
  have hc := c.toNat_lt
  have hhigh := hexValue?_hexDigit (c.toNat / 16) (by omega)
  have hlow := hexValue?_hexDigit (c.toNat % 16) (by omega)
  have hvalue : UInt8.ofNat (16 * (c.toNat / 16) + c.toNat % 16) = c := by
    rw [Nat.div_add_mod, UInt8.ofNat_toNat]
  change (do
    let high ← hexValue? (hexDigit (c.toNat / 16))
    let low ← hexValue? (hexDigit (c.toNat % 16))
    some (UInt8.ofNat (16 * high + low), text)) = _
  rw [hhigh, hlow]
  exact congrArg (fun c => some (c, text)) hvalue

/-- An escape is read as the byte that it was written for. -/
theorem readByte_escape {c : UInt8} {e : Bytes} (h : escape? c = some e) (text : Bytes) :
    readByte (e ++ text) = some (c, text) := by
  unfold escape? at h
  split at h
  · rename_i hc
    obtain ⟨rfl⟩ := h
    rw [beq_iff_eq.mp hc]
    rfl
  split at h
  · rename_i hc
    obtain ⟨rfl⟩ := h
    rw [beq_iff_eq.mp hc]
    rfl
  split at h
  · rename_i hc
    obtain ⟨rfl⟩ := h
    rw [beq_iff_eq.mp hc]
    rfl
  split at h
  · rename_i hc
    obtain ⟨rfl⟩ := h
    rw [beq_iff_eq.mp hc]
    rfl
  split at h
  · obtain ⟨rfl⟩ := h
    exact readByte_hex c text
  · exact absurd h (by simp)

/-- Every escape begins with a backslash. -/
theorem head_escape {c : UInt8} {e : Bytes} (h : escape? c = some e) :
    ∃ rest, e = byte '\\' :: rest := by
  unfold escape? at h
  grind [ascii]

theorem readByte_of_no_escape {c : UInt8} (h : escape? c = none) (text : Bytes) :
    readByte (c :: text) = some (c, text) := by
  unfold escape? at h
  have hbackslash : (c == byte '\\') = false := by grind
  have hnewline : isNewline c = false := by
    unfold isNewline
    grind
  rw [readByte, hbackslash, hnewline]
  rfl

/-- The bytes up to where a text ends. -/
def readUntil (ends : Bytes → Bool) : Nat → Bytes → Option (Bytes × Bytes)
  | 0, _ => none
  | n + 1, text =>
    if ends text then some ([], text)
    else do
      let (c, text) ← readByte text
      let (cs, text) ← readUntil ends n text
      some (c :: cs, text)

section ReadUntil

variable {ends : Bytes → Bool} {text rest : Bytes} {n : Nat}

theorem readUntil_end (hn : 0 < n) (h : ends text) : readUntil ends n text = some ([], text) := by
  obtain ⟨n, rfl⟩ := Nat.exists_eq_add_of_lt hn
  rw [Nat.zero_add]
  exact if_pos h

theorem readUntil_step {c : UInt8} {cs more : Bytes} (h : ends text = false)
    (hread : readByte text = some (c, rest)) (hrest : readUntil ends n rest = some (cs, more)) :
    readUntil ends (n + 1) text = some (c :: cs, more) := by
  rw [readUntil, h, hread]
  change (do
    let (cs, text) ← readUntil ends n rest
    some (c :: cs, text)) = _
  rw [hrest]
  rfl

end ReadUntil

/-! ## Plain strings -/

theorem readByte_quotedByte (c : UInt8) (text : Bytes) :
    readByte (quotedByte c ++ text) = some (c, text) := by
  unfold quotedByte
  split
  · rename_i e he
    exact readByte_escape he text
  · rename_i hc
    split
    · rename_i hquote
      rw [beq_iff_eq.mp hquote]
      rfl
    · exact readByte_of_no_escape hc text

/-- A byte of a string does not look like the end of the string. -/
theorem head_quotedByte (c : UInt8) : ∃ d ds, quotedByte c = d :: ds ∧ d ≠ byte '"' := by
  unfold quotedByte
  split
  · rename_i e he
    obtain ⟨ds, rfl⟩ := head_escape he
    exact ⟨_, ds, rfl, by decide⟩
  · split
    · exact ⟨_, _, rfl, by decide⟩
    · rename_i hquote
      exact ⟨c, [], rfl, by simpa using hquote⟩

/-- A plain string ends with a double quote. -/
def endsQuoted (text : Bytes) : Bool := text.head? == some (byte '"')

theorem readUntil_quoted {value : Bytes} {n : Nat} (hn : value.length < n) (text : Bytes) :
    readUntil endsQuoted n (value.flatMap quotedByte ++ byte '"' :: text) =
      some (value, byte '"' :: text) := by
  induction value generalizing n with
  | nil => exact readUntil_end hn rfl
  | cons c value ih =>
    obtain ⟨n, rfl⟩ : ∃ m, n = m + 1 := ⟨n - 1, by omega⟩
    rw [List.flatMap_cons, List.append_assoc]
    refine readUntil_step ?_ (readByte_quotedByte c _) (ih (Nat.lt_of_succ_lt_succ hn))
    obtain ⟨d, ds, hd, hquote⟩ := head_quotedByte c
    rw [hd]
    exact beq_eq_false_iff_ne.mpr fun h => hquote (Option.some.inj h)

theorem length_le_flatMap_quotedByte (value : Bytes) :
    value.length ≤ (value.flatMap quotedByte).length := by
  induction value with
  | nil => exact Nat.le_refl 0
  | cons c value ih =>
    obtain ⟨d, ds, hd, -⟩ := head_quotedByte c
    rw [List.flatMap_cons, hd, List.length_append, List.length_cons, List.length_cons]
    omega

/-! ## Text between backquotes -/

/-- Text between backquotes is over: the string ends, or a value is put in. -/
def endsText : Bytes → Bool
  | [] => false
  | c :: text => c == byte '\x60' || c == byte '$' && text.head? == some (byte '\x7b')

theorem head_of_endsText {text : Bytes} (h : endsText text) :
    text.head? ≠ some (byte '\x7b') := by
  cases text with
  | nil => simp
  | cons c text =>
    rintro ⟨rfl⟩
    exact absurd h Bool.false_ne_true

theorem readByte_templateByte (c : UInt8) (next : Option UInt8) (text : Bytes) :
    readByte (templateByte c next ++ text) = some (c, text) := by
  unfold templateByte
  split
  · rename_i e he
    exact readByte_escape he text
  · rename_i hc
    split
    · rename_i hquote
      rw [beq_iff_eq.mp hquote]
      rfl
    split
    · rename_i hdollar
      rw [beq_iff_eq.mp (Bool.and_eq_true_iff.mp hdollar).1]
      rfl
    · exact readByte_of_no_escape hc text

theorem head_templateByte (c : UInt8) (next : Option UInt8) :
    ∃ d ds, templateByte c next = d :: ds ∧ d ≠ byte '\x60' ∧
      (d = byte '\\' ∨ d = c ∧ ds = [] ∧ (c = byte '$' → next ≠ some (byte '\x7b'))) := by
  unfold templateByte
  split
  · rename_i e he
    obtain ⟨ds, rfl⟩ := head_escape he
    exact ⟨_, ds, rfl, by decide, .inl rfl⟩
  · split
    · exact ⟨_, _, rfl, by decide, .inl rfl⟩
    split
    · exact ⟨_, _, rfl, by decide, .inl rfl⟩
    · rename_i hquote hdollar
      refine ⟨c, [], rfl, by simpa using hquote, .inr ⟨rfl, rfl, fun hc hnext => hdollar ?_⟩⟩
      rw [hc, hnext]
      rfl

/-- No brace opens where text begins without one. -/
theorem head_templateText {value text : Bytes} (hvalue : value.head? ≠ some (byte '\x7b'))
    (htext : text.head? ≠ some (byte '\x7b')) :
    (templateText value ++ text).head? ≠ some (byte '\x7b') := by
  cases value with
  | nil => exact htext
  | cons c value =>
    obtain ⟨d, ds, hd, -, hcase⟩ := head_templateByte c value.head?
    rw [templateText, hd]
    rcases hcase with rfl | ⟨rfl, -⟩
    · simp only [List.cons_append, List.head?_cons]
      decide
    · simpa using hvalue

/-- Text does not end before its last byte. -/
theorem endsText_templateText (c : UInt8) (value : Bytes) {text : Bytes} (h : endsText text) :
    endsText (templateText (c :: value) ++ text) = false := by
  obtain ⟨d, ds, hd, hquote, hcase⟩ := head_templateByte c value.head?
  rw [templateText, hd]
  simp only [List.cons_append, endsText, beq_eq_false_iff_ne.mpr hquote, Bool.false_or]
  rcases hcase with rfl | ⟨rfl, rfl, hdollar⟩
  · rfl
  · refine Bool.and_eq_false_imp.mpr fun hd => beq_eq_false_iff_ne.mpr ?_
    exact head_templateText (hdollar (beq_iff_eq.mp hd)) (head_of_endsText h)

theorem readUntil_templateText {value text : Bytes} {n : Nat} (hn : value.length < n)
    (h : endsText text) :
    readUntil endsText n (templateText value ++ text) = some (value, text) := by
  induction value generalizing n with
  | nil => exact readUntil_end hn h
  | cons c value ih =>
    obtain ⟨n, rfl⟩ : ∃ m, n = m + 1 := ⟨n - 1, by omega⟩
    refine readUntil_step (endsText_templateText c value h) ?_ (ih (Nat.lt_of_succ_lt_succ hn))
    rw [templateText, List.append_assoc]
    exact readByte_templateByte c value.head? _

theorem length_le_templateText (value : Bytes) : value.length ≤ (templateText value).length := by
  induction value with
  | nil => exact Nat.le_refl 0
  | cons c value ih =>
    obtain ⟨d, ds, hd, -⟩ := head_templateByte c value.head?
    rw [templateText, hd, List.length_append, List.length_cons, List.length_cons]
    omega

end Roar
