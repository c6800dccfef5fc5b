import Roar.Proofs.Target.Reading

/-!
# Strings are written without loss

A plain string is one literal between double quotes, with no control byte in it, and read back it is
the string that was written (`readQuoted_quote`). A string with embedded expressions is one literal
between backquotes; a reader of it that takes what is put in as a unit finds the pieces of the
string, text as text and values as values (`readParts_script`).

The escape of a `$` looks at the next byte of the same text only. That is enough, since the pieces of
a string have no two texts side by side: behind the last byte of a text there is a `$` or the closing
backquote, and no brace.
-/

namespace Roar

namespace Script

/-! ## Plain strings -/

/-- A control byte. -/
def isControl (c : UInt8) : Bool := c < 0x20 || c == 0x7f

/-- A plain string at the front of a text, and what follows its closing quote. -/
def readQuoted (text : Bytes) : Option (Bytes × Bytes) := do
  let text ← expect (byte '"') text
  let (value, text) ← readUntil endsQuoted (text.length + 1) text
  let text ← expect (byte '"') text
  some (value, text)

private theorem not_isControl_hexDigit : ∀ n < 16, ¬ isControl (hexDigit n) := by decide

/-- An escape has no control bytes. -/
theorem not_isControl_of_escape {c : UInt8} {e : Bytes} (h : escape? c = some e) :
    ∀ d ∈ e, ¬ isControl d := by
  unfold escape? at h
  split at h
  · cases h
    exact List.any_eq_false.mp rfl
  split at h
  · cases h
    exact List.any_eq_false.mp rfl
  split at h
  · cases h
    exact List.any_eq_false.mp rfl
  split at h
  · cases h
    exact List.any_eq_false.mp rfl
  split at h
  · cases h
    have hc := c.toNat_lt
    refine List.forall_mem_append.mpr ⟨List.any_eq_false.mp rfl, ?_⟩
    exact List.forall_mem_cons.mpr ⟨not_isControl_hexDigit _ (by omega),
      List.forall_mem_singleton.mpr (not_isControl_hexDigit _ (by omega))⟩
  · cases h

private theorem not_isControl_of_no_escape {c : UInt8} (h : escape? c = none) : ¬ isControl c := by
  intro hc
  unfold escape? at h
  unfold isControl at hc
  grind

private theorem not_isControl_quotedByte (c : UInt8) : ∀ d ∈ quotedByte c, ¬ isControl d := by
  unfold quotedByte
  split
  · rename_i e he
    exact not_isControl_of_escape he
  · rename_i hc
    split
    · exact List.any_eq_false.mp rfl
    · exact List.forall_mem_singleton.mpr (not_isControl_of_no_escape hc)

theorem not_isControl_quote (value : Bytes) : ∀ d ∈ quote value, ¬ isControl d := by
  have hquote : ∀ d ∈ ascii "\"", ¬ isControl d := List.any_eq_false.mp rfl
  refine List.forall_mem_append.mpr ⟨List.forall_mem_append.mpr ⟨hquote, fun d hd => ?_⟩, hquote⟩
  obtain ⟨c, -, hdc⟩ := List.mem_flatMap.mp hd
  exact not_isControl_quotedByte c d hdc

/-- The quote that ends a string is the one that was written for it: whatever follows is left. -/
theorem readQuoted_quote (value text : Bytes) :
    readQuoted (quote value ++ text) = some (value, text) := by
  let body := value.flatMap quotedByte ++ byte '"' :: text
  have hquote : quote value ++ text = byte '"' :: body := script_string_append {} {} value text
  have hbody : value.length < body.length + 1 := by
    have hlength := length_le_flatMap_quotedByte value
    simp only [body, List.length_append]
    omega
  have hread : readUntil endsQuoted (body.length + 1) body = some (value, byte '"' :: text) :=
    readUntil_quoted hbody text
  simp only [hquote, readQuoted, expect_self, hread, Option.bind_eq_bind, Option.bind_some]

/-! ## Strings with embedded expressions -/

/-- A part of a string between backquotes: text, or what is put in as it is written. -/
inductive Part where
  | text (value : Bytes)
  | code (written : Bytes)
deriving DecidableEq, Repr

/-- A piece of a string, as a part of what is written. -/
def Part.ofSegment (names : Names) : Segment → Part
  | .text value => .text value
  | .embedded e => .code (e.script names)

/-- The text in front of what is put in, which is no part if it is empty. -/
def textPart (t : Bytes) : List Part := if t = [] then [] else [.text t]

/-- What is put into a string, as it is written. -/
def unitsOf (names : Names) : List Segment → List Bytes
  | [] => []
  | .text _ :: ss => unitsOf names ss
  | .embedded e :: ss => e.script names :: unitsOf names ss

/-- The text behind another that has to stand in front of it. -/
def expectUnit (unit text : Bytes) : Option Bytes :=
  if unit.isPrefixOf text then some (text.drop unit.length) else none

/-- The parts of a string up to its closing backquote. An unescaped `$` and an opening brace put
something in; how far it goes is not read off the text, but it is the next one of the `units`, with a
closing brace behind it. -/
def readParts : List Bytes → Bytes → Option (List Part × Bytes)
  | units, text => do
    let (t, text) ← readUntil endsText (text.length + 1) text
    if text.head? == some (byte '\x60') then some (textPart t, text.tail)
    else
      match units with
      | [] => none
      | unit :: units => do
        let text ← expectUnit unit (text.drop 2)
        let text ← expect (byte '\x7d') text
        let (parts, text) ← readParts units text
        some (textPart t ++ .code unit :: parts, text)

/-- A string of either kind at the front of a text. -/
def readLiteral (units : List Bytes) (text : Bytes) : Option (List Part × Bytes) :=
  if text.head? == some (byte '\x60') then readParts units text.tail
  else (readQuoted text).map fun (value, text) => (textPart value, text)

theorem expectUnit_append (unit text : Bytes) : expectUnit unit (unit ++ text) = some text := by
  have hunit : unit.isPrefixOf (unit ++ text) = true := by simp
  rw [expectUnit, if_pos hunit, List.drop_left]

section Parts

variable {names : Names}

theorem ofSegment_front (t : Bytes) : (front t).map (Part.ofSegment names) = textPart t := by
  unfold front textPart
  split <;> rfl

theorem unitsOf_front (t : Bytes) (ss : List Segment) :
    unitsOf names (front t ++ ss) = unitsOf names ss := by
  unfold front
  split <;> rfl

/-- Text in front of what ends it is read, with what it takes to read as many bytes as there are. -/
theorem readUntil_text (t : Bytes) {text : Bytes} (h : endsText text) :
    readUntil endsText ((templateText t ++ text).length + 1) (templateText t ++ text) =
      some (t, text) := by
  have hlength := length_le_templateText t
  exact readUntil_templateText (by rw [List.length_append]; omega) h

private theorem readParts_last (units : List Bytes) (t text : Bytes) :
    readParts units (templateText t ++ byte '\x60' :: text) = some (textPart t, text) := by
  have htext : endsText (byte '\x60' :: text) := rfl
  rw [readParts]
  simp only [readUntil_text t htext, List.head?_cons, beq_self_eq_true, if_true, List.tail_cons,
    Option.bind_eq_bind, Option.bind_some]

private theorem readParts_unit {unit t text rest : Bytes} {units : List Bytes} {parts : List Part}
    (h : readParts units text = some (parts, rest)) :
    readParts (unit :: units) (templateText t ++
        byte '$' :: byte '\x7b' :: (unit ++ byte '\x7d' :: text)) =
      some (textPart t ++ .code unit :: parts, rest) := by
  have htext : endsText (byte '$' :: byte '\x7b' :: (unit ++ byte '\x7d' :: text)) := rfl
  have hvalue : (some (byte '$') == some (byte '\x60')) = false := by decide
  rw [readParts]
  simp only [readUntil_text t htext, List.head?_cons, hvalue, List.drop_succ_cons, List.drop_zero,
    expectUnit_append, expect_self, h, Bool.false_eq_true, if_false, Option.bind_eq_bind,
    Option.bind_some]

/-- The parts of a string are its pieces. -/
theorem readParts_script {ss : List Segment} (h : Merged ss) (text : Bytes) :
    readParts (unitsOf names ss) (Segment.scriptList names ss ++ byte '\x60' :: text) =
      some (ss.map (Part.ofSegment names), text) := by
  -- Induction on what is put in: each time the text before it is read as well.
  generalize hunits : unitsOf names ss = units
  induction units generalizing ss with
  | nil =>
    obtain ⟨t, ss, rfl, hbegins, -⟩ := h.exists_front
    rw [unitsOf_front] at hunits
    cases ss with
    | nil =>
      rw [script_front, List.map_append, ofSegment_front]
      simp only [Segment.scriptList, List.append_nil, List.map_nil]
      exact readParts_last [] t text
    | cons s ss =>
      cases s with
      | text u => exact absurd hbegins Bool.false_ne_true
      | embedded e => cases hunits
  | cons unit units ih =>
    obtain ⟨t, ss, rfl, hbegins, hmerged⟩ := h.exists_front
    rw [unitsOf_front] at hunits
    cases ss with
    | nil => cases hunits
    | cons s ss =>
      cases s with
      | text u => exact absurd hbegins Bool.false_ne_true
      | embedded e =>
        obtain ⟨rfl, hrest⟩ := List.cons.inj hunits
        rw [script_front, List.append_assoc, script_embedded, List.map_append, ofSegment_front]
        exact readParts_unit (ih hmerged hrest)

theorem unitsOf_merge (ss : List Segment) :
    unitsOf names (Segment.merge ss) = unitsOf names ss := by
  fun_induction Segment.merge ss with
  | case1 => rfl
  | case2 e rest ih => rw [unitsOf, ih, unitsOf]
  | case3 rest ih => rw [ih, unitsOf]
  | case4 t rest ht u more hmore ih =>
    rw [hmore, unitsOf] at ih
    rw [unitsOf, ih, unitsOf]
  | case5 t rest ht hmore ih => rw [unitsOf, ih, unitsOf]

/-- A string of pieces is read back as these pieces, whether it is plain or not. -/
theorem readLiteral_interpolate (loc : Location) (segments : List Segment) (text : Bytes) :
    readLiteral (unitsOf names segments) ((Expr.interpolate loc segments).script names ++ text) =
      some ((Segment.merge segments).map (Part.ofSegment names), text) := by
  have hplain (s : Bytes) : readLiteral (unitsOf names segments)
      ((Expr.string loc s).script names ++ text) = some (textPart s, text) := by
    have hscript : (Expr.string loc s).script names = quote s := rfl
    have hhead : ((quote s ++ text).head? == some (byte '\x60')) = false := rfl
    rw [hscript, readLiteral, hhead, readQuoted_quote]
    rfl
  have hmerged := merged_merge segments
  unfold Expr.interpolate
  split
  · rename_i hmerge
    rw [hplain, hmerge]
    rfl
  · rename_i t hmerge
    rw [hmerge] at hmerged ⊢
    rw [hplain, textPart, if_neg hmerged.1]
    rfl
  · rw [script_interpolated_append, ← unitsOf_merge]
    exact readParts_script hmerged text

end Parts

/-- What is written for a plain string has no control bytes, and it is one literal that ends with its
last byte and stands for the string. What is written for a string of pieces is one literal as well,
in which a reader finds the pieces of the string, whatever is put in. -/
theorem strings_read_back :
    (∀ value : Bytes, (∀ c ∈ quote value, ¬ isControl c) ∧
      ∀ rest, readQuoted (quote value ++ rest) = some (value, rest)) ∧
    ∀ (names : Names) (loc : Location) (segments : List Segment) (rest : Bytes),
      readLiteral (unitsOf names segments)
          ((Expr.interpolate loc segments).script names ++ rest) =
        some ((Segment.merge segments).map (Part.ofSegment names), rest) :=
  ⟨fun value => ⟨not_isControl_quote value, readQuoted_quote value⟩,
    fun _ => readLiteral_interpolate⟩

end Script

end Roar
