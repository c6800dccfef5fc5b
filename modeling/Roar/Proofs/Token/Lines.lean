import Roar.Token.Scanner

/-!
# Sources with one token on a line

A source can be written one token a line, with comments on lines of their own (`source`). Such lines
are read back token by token (`Scanner.readable_source`), if no string stands behind something that
may end an operand (`Legible`): there its dash is read as a minus sign. At the first such string
something else is read than was written, so this condition cannot be left out
(`Scanner.legible_of_readable`).
-/

namespace Roar

open Byte

/-! ## Lines -/

/-- A token as it is written. -/
inductive Atom where
  | keyword (word : Keyword)
  | symbol (sign : Symbol)
  | name (text : Bytes)
  | number (text : Bytes)
  | string (value : Bytes)

/-- A byte in the text of a string: a dash, a dollar sign, a backslash and a line feed are escaped. -/
def escape (c : UInt8) : Bytes :=
  if c == byte '-' || c == byte '$' || c == byte '\\' then [byte '\\', c]
  else if c == byte '\n' then [byte '\\', byte 'n']
  else [c]

namespace Atom

def text : Atom → Bytes
  | keyword word => word.text
  | symbol sign => sign.text
  | name text | number text => text
  | string value => byte '-' :: value.flatMap escape ++ [byte '-']

def lexeme : Atom → Lexeme
  | keyword word => .keyword word
  | symbol sign => .symbol sign
  | name _ => .identifier
  | number text => .number (Number.ofDecimal (Decimal.ofNumeral text))
  | string value => .string value

def isString : Atom → Bool
  | string _ => true
  | _ => false

end Atom

/-- A line of a source. -/
inductive Line where
  | atom (p : Atom)
  | comment (text : Bytes)

def Line.text : Line → Bytes
  | atom p => p.text
  | comment text => byte '~' :: text ++ [byte '~']

/-- A source with these lines. -/
def source (lines : List Line) : Bytes := lines.flatMap fun line => line.text ++ [byte '\n']

/-- A word: letters, digits and underscores, and no digit in front. -/
structure IsWord (text : Bytes) : Prop where
  start : text.head?.any isIdentifierStart
  bytes : ∀ c ∈ text, isIdentifierContinue c

/-- A word that is not reserved. -/
structure IsIdentifier (text : Bytes) : Prop where
  word : IsWord text
  free : Keyword.ofWord? text = none

instance (text : Bytes) : Decidable (IsIdentifier text) :=
  decidable_of_iff (text.head?.any isIdentifierStart ∧ text.all isIdentifierContinue ∧
      Keyword.ofWord? text = none)
    ⟨fun ⟨start, bytes, free⟩ => ⟨⟨start, List.all_eq_true.mp bytes⟩, free⟩,
      fun ⟨⟨start, bytes⟩, free⟩ => ⟨start, List.all_eq_true.mpr bytes, free⟩⟩

/-- Digits, one at least. -/
structure IsDigits (text : Bytes) : Prop where
  nonempty : text ≠ []
  bytes : ∀ c ∈ text, isDigit c

/-- Digits, and perhaps a point and more digits. -/
inductive IsNumeral : Bytes → Prop
  | whole {text : Bytes} (digits : IsDigits text) : IsNumeral text
  | fraction {whole fraction : Bytes} (before : IsDigits whole) (after : IsDigits fraction) :
      IsNumeral (whole ++ byte '.' :: fraction)

/-- A line that can be read back. -/
def Line.Valid : Line → Prop
  | atom (.keyword _) | atom (.symbol _) => True
  | atom (.name text) => IsIdentifier text
  | atom (.number text) => IsNumeral text
  | atom (.string value) => byte '\r' ∉ value
  | comment text => byte '~' ∉ text ∧ Bytes.trim text = text

/-- No string stands where an operand may just have ended. -/
def Legible (afterOperand : Bool) : List Line → Prop
  | [] => True
  | .comment _ :: lines => Legible afterOperand lines
  | .atom p :: lines => (p.isString → afterOperand = false) ∧ Legible p.lexeme.endsOperand lines

theorem legible_cons {p : Atom} {afterOperand : Bool} {lines : List Line} (ends : Bool)
    (hstring : p.isString = false) (hends : p.lexeme.endsOperand = ends) :
    Legible afterOperand (.atom p :: lines) ↔ Legible ends lines := by
  simp [Legible, hstring, hends]

/-! ## Lexemes -/

/-- A stretch of bytes of one class ends before a byte that is not in it. -/
theorem span_exact {p : UInt8 → Bool} {text : Bytes} {c : UInt8} (h : ∀ d ∈ text, p d)
    (hc : p c = false) (rest : Bytes) :
    (text ++ c :: rest).takeWhile p = text ∧ (text ++ c :: rest).dropWhile p = c :: rest := by
  simp [List.takeWhile_append_of_pos h, List.dropWhile_append_of_pos h, hc]

theorem Keyword.isWord_text (word : Keyword) : IsWord word.text := by
  cases word <;> exact ⟨by decide, List.all_eq_true.mp (by decide)⟩

theorem Keyword.ofWord?_text (word : Keyword) : Keyword.ofWord? word.text = some word := by
  cases word <;> decide

/-- A word ends where the line ends. -/
theorem readWord_keyword (word : Keyword) (rest : Bytes) :
    readWord [] (word.text ++ byte '\n' :: rest) =
      ⟨.keyword word, word.text, byte '\n' :: rest, []⟩ := by
  obtain ⟨htake, hdrop⟩ := span_exact word.isWord_text.bytes (c := byte '\n') (by decide) rest
  simp only [readWord, htake, hdrop, word.ofWord?_text]

theorem readWord_identifier {text : Bytes} (h : IsIdentifier text) (rest : Bytes) :
    readWord [] (text ++ byte '\n' :: rest) = ⟨.identifier, text, byte '\n' :: rest, []⟩ := by
  obtain ⟨htake, hdrop⟩ := span_exact h.word.bytes (c := byte '\n') (by decide) rest
  simp only [readWord, htake, hdrop, h.free]

private theorem numeral_line {text : Bytes} (h : IsNumeral text) (rest : Bytes) :
    numeral (text ++ byte '\n' :: rest) = (text, byte '\n' :: rest) := by
  cases h with
  | whole hdigits =>
    obtain ⟨htake, hdrop⟩ := span_exact hdigits.bytes (c := byte '\n') (by decide) rest
    simp only [numeral, htake, hdrop]
    cases rest with
    | nil => rfl
    | cons d rest => simp
  | @fraction whole fraction hwhole hfraction =>
    obtain ⟨d, ds, rfl⟩ := List.exists_cons_of_ne_nil hfraction.nonempty
    obtain ⟨htake, hdrop⟩ :=
      span_exact hwhole.bytes (c := byte '.') (by decide) (d :: ds ++ byte '\n' :: rest)
    obtain ⟨htake', hdrop'⟩ := span_exact hfraction.bytes (c := byte '\n') (by decide) rest
    have hd : isDigit d := hfraction.bytes d (by simp)
    simp only [List.cons_append] at htake hdrop htake' hdrop'
    simp only [numeral, List.append_assoc, List.cons_append, htake, hdrop, htake', hdrop', hd,
      beq_self_eq_true, Bool.and_self, if_true]

/-- The first byte of a numeral. -/
theorem IsNumeral.exists_digit {text : Bytes} (h : IsNumeral text) :
    ∃ c cs, text = c :: cs ∧ isDigit c := by
  have hdigits {text : Bytes} (h : IsDigits text) (rest : Bytes) :
      ∃ c cs, text ++ rest = c :: cs ∧ isDigit c := by
    obtain ⟨c, cs, rfl⟩ := List.exists_cons_of_ne_nil h.nonempty
    exact ⟨c, cs ++ rest, rfl, h.bytes c (by simp)⟩
  cases h with
  | whole digits => simpa using hdigits digits []
  | fraction before after => exact hdigits before _

theorem readNumber_line {text : Bytes} (h : IsNumeral text) (rest : Bytes) :
    readNumber [] (text ++ byte '\n' :: rest) =
      ⟨.number (Number.ofDecimal (Decimal.ofNumeral text)), text, byte '\n' :: rest, []⟩ := by
  have hline : (byte '\n' :: rest).takeWhile isIdentifierContinue = [] :=
    List.takeWhile_cons_of_neg (by decide)
  simp only [readNumber, numeral_line h, hline]

/-! ### Strings -/

/-- A byte that stands for itself in a string. -/
structure IsPlain (c : UInt8) : Prop where
  dash : (c == byte '-') = false
  dollar : (c == byte '$') = false
  slash : (c == byte '\\') = false
  line : isNewline c = false

/-- A byte is escaped in a string, or it stands for itself. -/
theorem escape_cases {c : UInt8} (hc : c ≠ byte '\r') :
    (∃ e, escape c = [byte '\\', e] ∧ isNewline e = false ∧ unescape? e = some c) ∨
      (escape c = [c] ∧ IsPlain c) := by
  unfold escape
  split
  · rename_i h
    simp only [Bool.or_eq_true, beq_iff_eq] at h
    refine .inl ⟨c, rfl, ?_⟩
    obtain (rfl | rfl) | rfl := h <;> decide
  · rename_i h
    simp only [Bool.or_eq_true, not_or, Bool.not_eq_true] at h
    obtain ⟨⟨hdash, hdollar⟩, hslash⟩ := h
    split
    · rename_i hline
      refine .inl ⟨byte 'n', rfl, by decide, ?_⟩
      rw [beq_iff_eq.mp hline]
      decide
    · rename_i hline
      exact .inr ⟨rfl, hdash, hdollar, hslash, by simp only [isNewline, beq_false_of_ne hc, hline]; rfl⟩

theorem readText_dash (rest : Bytes) :
    readText (byte '-' :: rest) = ⟨[byte '-'], [], .closed, rest⟩ := by
  rw [readText.eq_def]
  rfl

theorem readText_escaped {c e : UInt8} (hline : isNewline e = false) (he : unescape? e = some c)
    (rest : Bytes) :
    readText (byte '\\' :: e :: rest) = (readText rest).push [byte '\\', e] [c] := by
  rw [readText.eq_def]
  simp only [hline, he]
  rfl

theorem readText_plain {c : UInt8} (h : IsPlain c) (rest : Bytes) :
    readText (c :: rest) = (readText rest).push [c] [c] := by
  rw [readText.eq_def]
  simp only [h.dash, h.dollar, h.slash, h.line, Bool.false_and, Bool.false_eq_true, if_false]

/-- The text of a string is read up to its closing dash. -/
theorem readText_escape {value : Bytes} (h : byte '\r' ∉ value) (rest : Bytes) :
    readText (value.flatMap escape ++ byte '-' :: rest) =
      ⟨value.flatMap escape ++ [byte '-'], value, .closed, rest⟩ := by
  induction value with
  | nil => exact readText_dash rest
  | cons c value ih =>
    obtain ⟨hc, hvalue⟩ : byte '\r' ≠ c ∧ byte '\r' ∉ value := by
      simpa only [List.mem_cons, not_or] using h
    simp only [List.flatMap_cons, List.append_assoc]
    obtain ⟨e, hescape, hline, he⟩ | ⟨hescape, hplain⟩ := escape_cases hc.symm
    · simp only [hescape, List.cons_append, List.nil_append, readText_escaped hline he, ih hvalue,
        Stretch.push]
    · simp only [hescape, List.cons_append, List.nil_append, readText_plain hplain, ih hvalue,
        Stretch.push]

theorem closingDash?_dash (rest : Bytes) : closingDash? (byte '-' :: rest) = some rest := by
  rw [closingDash?.eq_def]
  rfl

theorem closingDash?_escaped (e : UInt8) (rest : Bytes) :
    closingDash? (byte '\\' :: e :: rest) = closingDash? rest := by
  rw [closingDash?.eq_def]
  rfl

theorem closingDash?_plain {c : UInt8} (h : IsPlain c) (rest : Bytes) :
    closingDash? (c :: rest) = closingDash? rest := by
  rw [closingDash?.eq_def]
  cases rest with
  | nil => simp only [h.dash, h.slash, h.line, Bool.false_eq_true, if_false, closingDash?]
  | cons d rest =>
    simp only [h.dash, h.dollar, h.slash, h.line, Bool.false_and, Bool.false_eq_true, if_false]

/-- The closing dash of a string is found. -/
theorem closingDash?_escape {value : Bytes} (h : byte '\r' ∉ value) (rest : Bytes) :
    closingDash? (value.flatMap escape ++ byte '-' :: rest) = some rest := by
  induction value with
  | nil => exact closingDash?_dash rest
  | cons c value ih =>
    obtain ⟨hc, hvalue⟩ : byte '\r' ≠ c ∧ byte '\r' ∉ value := by
      simpa only [List.mem_cons, not_or] using h
    simp only [List.flatMap_cons, List.append_assoc]
    obtain ⟨e, hescape, -, -⟩ | ⟨hescape, hplain⟩ := escape_cases hc.symm
    · simp only [hescape, List.cons_append, List.nil_append, closingDash?_escaped, ih hvalue]
    · simp only [hescape, List.cons_append, List.nil_append, closingDash?_plain hplain, ih hvalue]

/-- A string is read to the end of its line if no operand stands before it. -/
theorem readLexeme_string {value : Bytes} (h : byte '\r' ∉ value) (rest : Bytes) :
    readLexeme [] false (byte '-') (value.flatMap escape ++ byte '-' :: byte '\n' :: rest) =
      ⟨.string value, (Atom.string value).text, byte '\n' :: rest, []⟩ := by
  have hopens : opensString (value.flatMap escape ++ byte '-' :: byte '\n' :: rest) := by
    simp only [opensString, closingDash?_escape h, Option.any_some]
    rfl
  have hread : readLexeme [] false (byte '-')
      (value.flatMap escape ++ byte '-' :: byte '\n' :: rest) =
      readString .string .stringStart [] [byte '-']
        (value.flatMap escape ++ byte '-' :: byte '\n' :: rest) := by
    simp only [readLexeme, hopens]
    rfl
  rw [hread]
  simp only [readString, readText_escape h]
  rfl

/-- After an operand a dash is a minus sign. -/
theorem readLexeme_dash (rest : Bytes) :
    readLexeme [] true (byte '-') rest = ⟨.symbol .minus, [byte '-'], rest, []⟩ := rfl

/-- A dash alone on its line is a minus sign. -/
theorem readLexeme_minus (afterOperand : Bool) (rest : Bytes) :
    readLexeme [] afterOperand (byte '-') (byte '\n' :: rest) =
      ⟨.symbol .minus, [byte '-'], byte '\n' :: rest, []⟩ := by
  have hcloses : opensString (byte '\n' :: rest) = false := by
    rw [opensString, closingDash?.eq_def]
    rfl
  simp only [readLexeme, hcloses, Bool.and_false]
  rfl

/-! ### Atoms -/

/-- A byte with which a blank or a comment begins. -/
def startsGap (c : UInt8) : Bool := isWhitespace c || c == byte '~'

private theorem startsGap_iff {c : UInt8} :
    startsGap c ↔ c = byte ' ' ∨ c = byte '\t' ∨ c = byte '\r' ∨ c = byte '\n' ∨ c = byte '~' := by
  simp only [startsGap, isWhitespace, Bool.or_eq_true, beq_iff_eq, or_assoc]

theorem startsGap_eq_false {c : UInt8} (h : isIdentifierStart c ∨ isDigit c) :
    startsGap c = false := by
  rw [← Bool.not_eq_true, startsGap_iff]
  rintro (rfl | rfl | rfl | rfl | rfl) <;> revert h <;> decide

theorem IsWord.exists_start {text : Bytes} (h : IsWord text) :
    ∃ c cs, text = c :: cs ∧ isIdentifierStart c := by
  cases text with
  | nil => cases h.start
  | cons c cs => exact ⟨c, cs, rfl, h.start⟩

theorem readLexeme_word {c : UInt8} (h : isIdentifierStart c) (afterOperand : Bool) (rest : Bytes) :
    readLexeme [] afterOperand c rest = readWord [] (c :: rest) := by
  simp only [readLexeme, h, if_true]

theorem readLexeme_digit {c : UInt8} (h : isDigit c) (afterOperand : Bool) (rest : Bytes) :
    readLexeme [] afterOperand c rest = readNumber [] (c :: rest) := by
  have hstart : isIdentifierStart c = false := by
    simp only [isDigit, Bool.and_eq_true, decide_eq_true_eq, UInt8.le_iff_toNat_le] at h
    simp only [isIdentifierStart, isLetter, Bool.or_eq_false_iff, Bool.and_eq_false_iff,
      decide_eq_false_iff_not, beq_eq_false_iff_ne, ne_eq, UInt8.le_iff_toNat_le,
      ← UInt8.toNat_inj]
    have hbytes : (byte '9').toNat = 57 ∧ (byte 'A').toNat = 65 ∧ (byte 'a').toNat = 97 ∧
        (byte '_').toNat = 95 := by decide
    omega
  simp only [readLexeme, h, hstart, if_true, Bool.false_eq_true, if_false]

/-- An atom is read to the end of its line, if it is no string behind an operand. -/
theorem Atom.read {p : Atom} (h : (Line.atom p).Valid) (afterOperand : Bool)
    (hplace : p.isString → afterOperand = false) :
    ∃ c cs, p.text = c :: cs ∧ startsGap c = false ∧
      ∀ rest, readLexeme [] afterOperand c (cs ++ byte '\n' :: rest) =
        ⟨p.lexeme, p.text, byte '\n' :: rest, []⟩ := by
  cases p with
  | keyword word =>
    obtain ⟨c, cs, htext, hc⟩ := word.isWord_text.exists_start
    refine ⟨c, cs, htext, startsGap_eq_false (.inl hc), fun rest => ?_⟩
    rw [readLexeme_word hc, ← List.cons_append, ← htext]
    exact readWord_keyword word rest
  | name text =>
    obtain ⟨c, cs, rfl, hc⟩ := IsIdentifier.word h |>.exists_start
    refine ⟨c, cs, rfl, startsGap_eq_false (.inl hc), fun rest => ?_⟩
    rw [readLexeme_word hc, ← List.cons_append]
    exact readWord_identifier h rest
  | number text =>
    obtain ⟨c, cs, rfl, hc⟩ := IsNumeral.exists_digit h
    refine ⟨c, cs, rfl, startsGap_eq_false (.inr hc), fun rest => ?_⟩
    rw [readLexeme_digit hc, ← List.cons_append]
    exact readNumber_line h rest
  | string value =>
    obtain rfl := hplace rfl
    refine ⟨byte '-', value.flatMap escape ++ [byte '-'], rfl, by decide, fun rest => ?_⟩
    rw [List.append_assoc]
    exact readLexeme_string h rest
  | symbol sign =>
    cases sign
    case minus => exact ⟨byte '-', [], rfl, by decide, readLexeme_minus afterOperand⟩
    all_goals exact ⟨_, _, rfl, by decide, fun _ => rfl⟩

/-! ## Gaps -/

theorem skipBlank_line (l : Location) (rest : Bytes) :
    skipBlank l (byte '\n' :: rest) = skipBlank (l.step (byte '\n')) rest := by
  rw [skipBlank]
  rfl

theorem skipBlank_start {c : UInt8} (h : startsGap c = false) (l : Location) (cs : Bytes) :
    skipBlank l (c :: cs) = .clear [] l (c :: cs) := by
  simp only [startsGap, Bool.or_eq_false_iff] at h
  simp only [skipBlank, h.1, h.2, Bool.false_eq_true, if_false]

theorem skipComment_text {text : Bytes} (h : byte '~' ∉ text) (start : Location) (read : Bytes)
    (l : Location) (rest : Bytes) :
    skipComment start read l (text ++ byte '~' :: rest) =
      (skipBlank ((l.after text).step (byte '~')) rest).push
        ⟨start, Bytes.trim (read.reverse ++ text)⟩ := by
  induction text generalizing read l with
  | nil =>
    rw [List.append_nil, List.nil_append, skipComment]
    rfl
  | cons c text ih =>
    obtain ⟨hc, htext⟩ : byte '~' ≠ c ∧ byte '~' ∉ text := by
      simpa only [List.mem_cons, not_or] using h
    simp only [List.cons_append, skipComment, beq_false_of_ne hc.symm, Bool.false_eq_true, if_false,
      ih htext, List.reverse_cons, List.append_assoc, List.nil_append]
    rfl

/-- A comment on a line of its own. -/
theorem skipBlank_comment {text : Bytes} (h : (Line.comment text).Valid) (l : Location)
    (lines : List Line) :
    ∃ l', skipBlank l (source (.comment text :: lines)) =
      (skipBlank l' (source lines)).push ⟨l, text⟩ := by
  obtain ⟨hbytes, htrim⟩ := h
  have hsource : source (.comment text :: lines) =
      byte '~' :: (text ++ byte '~' :: byte '\n' :: source lines) := by
    simp only [source, List.flatMap_cons, Line.text, List.cons_append, List.append_assoc,
      List.nil_append]
  have hopens : skipBlank l (source (.comment text :: lines)) =
      skipComment l [] (l.step (byte '~')) (text ++ byte '~' :: byte '\n' :: source lines) := by
    rw [hsource, skipBlank]
    rfl
  rw [hopens, skipComment_text hbytes, skipBlank_line, List.reverse_nil, List.nil_append, htrim]
  exact ⟨_, rfl⟩

theorem source_atom (p : Atom) (lines : List Line) :
    source (.atom p :: lines) = p.text ++ byte '\n' :: source lines := by
  simp only [source, List.flatMap_cons, Line.text, List.append_assoc, List.cons_append,
    List.nil_append]

/-! ## Tokens -/

/-- What a token says apart from where it stands: its lexeme and text, and the comments before it. -/
structure View where
  lexeme : Lexeme
  text : Bytes
  comments : List Bytes

def Token.view (t : Token) : View := ⟨t.lexeme, t.text, t.comments.map (·.text)⟩

/-- The same with one more comment in front. -/
def View.push (text : Bytes) (v : View) : View := { v with comments := text :: v.comments }

/-- The tokens of a source with these lines. -/
def views : List Line → List View
  | [] => [⟨.endOfInput, [], []⟩]
  | .atom p :: lines => ⟨p.lexeme, p.text, []⟩ :: views lines
  | .comment text :: lines => (views lines).modifyHead (.push text)

namespace Scanner

variable {rest rest' : Bytes} {l l' : Location} {afterOperand : Bool}

theorem next_clear {comments : List Comment} {c : UInt8} {cs : Bytes}
    (h : skipBlank l rest = .clear comments l' (c :: cs)) :
    (⟨rest, l, [], afterOperand⟩ : Scanner).next =
      emit comments l' (readLexeme [] afterOperand c cs) := by
  simp only [next, h]

theorem next_end {comments : List Comment} (h : skipBlank l rest = .clear comments l' []) :
    (⟨rest, l, [], afterOperand⟩ : Scanner).next = emit comments l' ⟨.endOfInput, [], [], []⟩ := by
  simp only [next, h]

/-- An atom is the next token. -/
theorem next_atom {p : Atom} (h : (Line.atom p).Valid)
    (hplace : p.isString → afterOperand = false) (lines : List Line) :
    ∃ t l', (⟨source (.atom p :: lines), l, [], afterOperand⟩ : Scanner).next =
      (t, ⟨byte '\n' :: source lines, l', [], p.lexeme.endsOperand⟩) ∧
      t.view = ⟨p.lexeme, p.text, []⟩ := by
  obtain ⟨c, cs, htext, hc, hread⟩ := p.read h afterOperand hplace
  have hgap : skipBlank l (source (.atom p :: lines)) =
      .clear [] l (c :: (cs ++ byte '\n' :: source lines)) := by
    rw [source_atom, htext, List.cons_append, skipBlank_start hc]
  rw [next_clear hgap, hread]
  exact ⟨_, _, rfl, rfl⟩

/-- A line feed before a token changes only its place. -/
theorem collect_line (last : Lexeme → Bool) (n : Nat) :
    collect last n ⟨byte '\n' :: rest, l, [], afterOperand⟩ =
      collect last n ⟨rest, l.step (byte '\n'), [], afterOperand⟩ := by
  cases n with
  | zero => rfl
  | succ n =>
    have hnext : (⟨byte '\n' :: rest, l, [], afterOperand⟩ : Scanner).next =
        (⟨rest, l.step (byte '\n'), [], afterOperand⟩ : Scanner).next := by
      simp only [next, skipBlank_line]
    simp only [collect, hnext]

/-- A gap of lines that can be read back is clear. -/
theorem exists_clear {lines : List Line} (h : ∀ line ∈ lines, line.Valid) (l : Location) :
    ∃ comments l' rest, skipBlank l (source lines) = .clear comments l' rest := by
  induction lines generalizing l with
  | nil => exact ⟨[], l, [], by rw [source, List.flatMap_nil, skipBlank]⟩
  | cons line lines ih =>
    obtain ⟨hline, hlines⟩ := List.forall_mem_cons.mp h
    cases line with
    | comment text =>
      obtain ⟨l', hskip⟩ := skipBlank_comment hline l lines
      obtain ⟨comments, l'', rest, hclear⟩ := ih hlines l'
      exact ⟨⟨l, text⟩ :: comments, l'', rest, by rw [hskip, hclear]; rfl⟩
    | atom p =>
      obtain ⟨c, cs, htext, hc, -⟩ := p.read hline false fun _ => rfl
      exact ⟨[], l, _, by rw [source_atom, htext, List.cons_append, skipBlank_start hc]⟩

/-- A comment belongs to the next token. -/
theorem next_comment {text : Bytes} {lines : List Line} (htext : (Line.comment text).Valid)
    (h : ∀ line ∈ lines, line.Valid) (l : Location) (afterOperand : Bool) :
    ∃ l' t s, (⟨source lines, l', [], afterOperand⟩ : Scanner).next = (t, s) ∧
      (⟨source (.comment text :: lines), l, [], afterOperand⟩ : Scanner).next =
        ({ t with comments := ⟨l, text⟩ :: t.comments }, s) := by
  obtain ⟨l', hskip⟩ := skipBlank_comment htext l lines
  obtain ⟨comments, l'', rest, hclear⟩ := exists_clear h l'
  rw [hclear] at hskip
  cases rest with
  | nil => exact ⟨l', _, _, next_end hclear, next_end hskip⟩
  | cons c cs => exact ⟨l', _, _, next_clear hclear, next_clear hskip⟩

/-- The end of input or a fault: a parser looks no further. -/
def stops (x : Lexeme) : Bool := x.isEnd || x.isFault

theorem stops_lexeme (p : Atom) : stops p.lexeme = false := by
  cases p <;> rfl

/-- Lines that are legible are read back. -/
theorem collect_source {lines : List Line} (h : ∀ line ∈ lines, line.Valid)
    (hlegible : Legible afterOperand lines) {n : Nat} (hn : lines.length < n) :
    (collect stops n ⟨source lines, l, [], afterOperand⟩).map Token.view = views lines := by
  induction lines generalizing afterOperand l n with
  | nil =>
    obtain ⟨n, rfl⟩ := Nat.exists_eq_succ_of_ne_zero (by omega : n ≠ 0)
    rfl
  | cons line lines ih =>
    obtain ⟨n, rfl⟩ := Nat.exists_eq_succ_of_ne_zero (by omega : n ≠ 0)
    obtain ⟨hline, hlines⟩ := List.forall_mem_cons.mp h
    simp only [List.length_cons] at hn
    cases line with
    | atom p =>
      obtain ⟨hplace, hlegible⟩ := hlegible
      obtain ⟨t, l', hnext, hview⟩ := next_atom (l := l) hline hplace lines
      have ht : stops t.lexeme = false := by
        rw [show t.lexeme = p.lexeme from congrArg View.lexeme hview, stops_lexeme]
      simp only [collect, hnext, ht, Bool.false_eq_true, if_false, List.map_cons, hview, views,
        collect_line, ih hlines hlegible (by omega : lines.length < n)]
    | comment text =>
      -- a comment is no token, so the lines behind it are read with the same fuel
      obtain ⟨l', t, s, hnext, hcomment⟩ := next_comment hline hlines l afterOperand
      have hrest := ih (l := l') hlines hlegible (by omega : lines.length < n + 1)
      simp only [collect, hnext] at hrest
      simp only [collect, hcomment, views, ← hrest]
      split <;> rfl

private theorem length_le_source (lines : List Line) : lines.length ≤ (source lines).length := by
  induction lines with
  | nil => exact Nat.le_refl 0
  | cons line lines ih =>
    simp only [source, List.flatMap_cons, List.length_cons, List.length_append, List.length_nil] at ih ⊢
    omega

theorem length_lt_tokenLimit (lines : List Line) : lines.length < tokenLimit (source lines) := by
  have hlength := length_le_source lines
  simp only [tokenLimit]
  omega

/-- The tokens of a source with legible lines are those on the lines. -/
theorem readable_source {lines : List Line} (h : ∀ line ∈ lines, line.Valid)
    (hlegible : Legible false lines) (file : Nat) :
    (readable (source lines) file).map Token.view = views lines :=
  collect_source h hlegible (length_lt_tokenLimit lines)

end Scanner

/-! ## Lines that are not legible -/

/-- What is written on lines, without the comments. -/
def lexemes : List Line → List Lexeme
  | [] => []
  | .atom p :: lines => p.lexeme :: lexemes lines
  | .comment _ :: lines => lexemes lines

def Lexeme.isParen (x : Lexeme) : Bool := x == .symbol .openParen || x == .symbol .closeParen

/-- Lexemes without the parentheses. -/
def ungrouped (xs : List Lexeme) : List Lexeme := xs.filter (!·.isParen)

private theorem ungrouped_cons_of_not {x : Lexeme} (h : x.isParen = false) (xs : List Lexeme) :
    ungrouped (x :: xs) = x :: ungrouped xs :=
  List.filter_cons_of_pos (by simp [h])

private theorem ungrouped_cons_inj {x : Lexeme} {xs ys : List Lexeme} :
    ungrouped (x :: xs) = ungrouped (x :: ys) ↔ ungrouped xs = ungrouped ys := by
  cases h : x.isParen <;> simp [ungrouped, h]

namespace Scanner

/-- The dash of a string behind an operand is a minus sign. -/
theorem next_string (value : Bytes) (lines : List Line) (l : Location) :
    (⟨source (.atom (.string value) :: lines), l, [], true⟩ : Scanner).next.1.lexeme =
      .symbol .minus := by
  have hgap : skipBlank l (source (.atom (.string value) :: lines)) =
      .clear [] l (byte '-' :: (value.flatMap escape ++ byte '-' :: byte '\n' :: source lines)) := by
    simp only [source_atom, Atom.text, List.cons_append, List.append_assoc, List.nil_append]
    exact skipBlank_start (by decide) l _
  rw [next_clear hgap, readLexeme_dash]
  rfl

/-- Where the lexemes of the source are those on the lines, parentheses apart, the lines are
legible. -/
theorem legible_of_collect {lines : List Line} (h : ∀ line ∈ lines, line.Valid) {l : Location}
    {afterOperand : Bool} {n : Nat} (hn : lines.length < n)
    (hsame : ungrouped ((collect stops n ⟨source lines, l, [], afterOperand⟩).map (·.lexeme)) =
      ungrouped (lexemes lines ++ [.endOfInput])) : Legible afterOperand lines := by
  induction lines generalizing afterOperand l n with
  | nil => trivial
  | cons line lines ih =>
    obtain ⟨n, rfl⟩ := Nat.exists_eq_succ_of_ne_zero (by omega : n ≠ 0)
    obtain ⟨hline, hlines⟩ := List.forall_mem_cons.mp h
    simp only [List.length_cons] at hn
    cases line with
    | comment text =>
      obtain ⟨l', t, s, hnext, hcomment⟩ := next_comment hline hlines l afterOperand
      refine ih (l := l') hlines (by omega : lines.length < n + 1) ?_
      simp only [collect, hcomment, lexemes] at hsame
      simp only [collect, hnext, ← hsame]
      split <;> rfl
    | atom p =>
      by_cases hplace : p.isString → afterOperand = false
      · obtain ⟨t, l', hnext, hview⟩ := next_atom (l := l) hline hplace lines
        have ht : t.lexeme = p.lexeme := congrArg View.lexeme hview
        simp only [collect, hnext, ht, stops_lexeme, Bool.false_eq_true, if_false, List.map_cons,
          lexemes, List.cons_append, ungrouped_cons_inj, collect_line] at hsame
        exact ⟨hplace, ih hlines (by omega : lines.length < n) hsame⟩
      · -- the first lexeme is a minus sign here and a string on the line
        obtain ⟨hstring, hafter⟩ := Classical.not_imp.mp hplace
        obtain ⟨value, rfl⟩ : ∃ value, p = .string value := by
          cases p with
          | string value => exact ⟨value, rfl⟩
          | keyword _ | symbol _ | name _ | number _ => cases hstring
        rw [Bool.not_eq_false] at hafter
        subst hafter
        have hminus := next_string value lines l
        simp only [collect, hminus, show stops (.symbol .minus) = false from rfl, Bool.false_eq_true,
          if_false, List.map_cons, lexemes, List.cons_append, Atom.lexeme] at hsame
        rw [ungrouped_cons_of_not rfl, ungrouped_cons_of_not rfl] at hsame
        cases hsame

theorem legible_of_readable {lines : List Line} (h : ∀ line ∈ lines, line.Valid) (file : Nat)
    (hsame : ungrouped ((readable (source lines) file).map (·.lexeme)) =
      ungrouped (lexemes lines ++ [.endOfInput])) : Legible false lines :=
  legible_of_collect h (length_lt_tokenLimit lines) hsame

end Scanner

end Roar
