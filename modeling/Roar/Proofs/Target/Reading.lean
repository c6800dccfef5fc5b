import Roar.Target.Script
import Roar.Proofs.Number.Text
import Roar.Proofs.Program.Nodes
import Roar.Proofs.Target.Literals
import Roar.Proofs.Token.Lines

/-!
# Reading expressions

A reader of the expressions of the output. It looks at the first byte to know what stands there: a
string, a string with embedded values, an operation between parentheses, a name or a number. Behind
an opening parenthesis a minus sign is the operator, unless a number follows it directly and an
operator follows the number: then it is the sign of that number.

A reader of parts reads a part if it gives back what the part says (`Expr.plain`) and leaves what
follows (`Reads`); for each kind of expression there is a lemma which says that `readNode` reads it,
if its parts are read.
-/

namespace Roar

open Byte

/-! ## What an expression says -/

mutual

/-- The expression without what its text does not show: places, types, which names are functions,
the words of comparison phrases and the signs of zeros. -/
def Expr.plain : Expr → Expr
  | .number _ value => .number {} value.withoutZeroSign
  | .string _ value => .string {} value
  | .interpolated _ segments => .interpolated {} (Segment.plainList segments)
  | .boolean _ value => .boolean {} value
  | .identifier id => .identifier ⟨{}, id.name, .unknown, false⟩
  | .binary _ op left right _ => .binary {} op left.plain right.plain .unknown
  | .compare _ op left right => .compare {} op.canonical left.plain right.plain
  | .unary _ op operand _ => .unary {} op operand.plain .unknown
  | .call _ callee args _ builtin => .call {} callee (Expr.plainList args) .unknown builtin
  | .range _ bound => .range {} bound.plain

def Expr.plainList : List Expr → List Expr
  | [] => []
  | e :: es => e.plain :: Expr.plainList es

def Segment.plainList : List Segment → List Segment
  | [] => []
  | .text t :: ss => .text t :: Segment.plainList ss
  | .embedded e :: ss => .embedded e.plain :: Segment.plainList ss

end

namespace Script

/-! ## Readers -/

/-- Takes an expression from the front of a text. -/
abbrev ExprReader := Bytes → Option (Expr × Bytes)

/-- The text behind a byte that has to stand there. -/
def expect (c : UInt8) : Bytes → Option Bytes
  | [] => none
  | d :: text => if d == c then some text else none

/-- What an operator between two operands makes of them. -/
def operation? (op : Bytes) : Option (Expr → Expr → Expr) :=
  let binary := [BinaryOp.add, .sub, .mul, .div, .mod, .and, .or, .shl, .shr]
  let compare := [CompareOp.eq, .ne, .lt, .le, .gt, .ge]
  match binary.find? (·.script == op) with
  | some op => some fun left right => .binary {} op left right .unknown
  | none => (compare.find? (·.script == op)).map fun op left right => .compare {} op left right

/-- The operator behind a left operand, the right operand and the closing parenthesis. -/
def readOperation (expr : ExprReader) (left : Expr) (text : Bytes) : Option (Expr × Bytes) := do
  let text ← expect (byte ' ') text
  let make ← operation? (text.takeWhile (· != byte ' '))
  let text ← expect (byte ' ') (text.dropWhile (· != byte ' '))
  let (right, text) ← expr text
  let text ← expect (byte ')') text
  some (make left right, text)

/-- The operand of an operator that stands before it, and the closing parenthesis. -/
def readOperand (expr : ExprReader) (op : UnaryOp) (text : Bytes) : Option (Expr × Bytes) := do
  let (operand, text) ← expr text
  let text ← expect (byte ')') text
  some (.unary {} op operand .unknown, text)

section Numerals

variable (value : Bytes → Number)

/-- A number, given the values of numerals. -/
def readNumeral (text : Bytes) : Option (Expr × Bytes) :=
  some (.number {} (value (text.takeWhile isNumeralByte)), text.dropWhile isNumeralByte)

/-- What stands behind an opening parenthesis and a minus sign. -/
def readMinus (expr : ExprReader) (text : Bytes) : Option (Expr × Bytes) :=
  if text.head? == some (byte ' ') then readOperand expr .neg text.tail
  else if text.head?.any isDigit then
    let numeral := text.takeWhile isNumeralByte
    let text := text.dropWhile isNumeralByte
    if text.head? == some (byte ')') then
      some (.unary {} .neg (.number {} (value numeral)) .unknown, text.tail)
    else readOperation expr (.number {} (value (byte '-' :: numeral))) text
  else readOperand expr .neg text

/-- What stands behind an opening parenthesis. -/
def readGroup (expr : ExprReader) (text : Bytes) : Option (Expr × Bytes) :=
  if text.head? == some (byte '!') then readOperand expr .not text.tail
  else if text.head? == some (byte '-') then readMinus value expr text.tail
  else do
    let (left, text) ← expr text
    readOperation expr left text

end Numerals

/-- Arguments up to the closing parenthesis. -/
def readArgs (expr : ExprReader) : Nat → Bytes → Option (List Expr × Bytes)
  | 0, _ => none
  | n + 1, text =>
    if text.head? == some (byte ')') then some ([], text.tail)
    else do
      let (e, text) ← expr text
      let (es, text) ← readArgs expr n
        (if text.head? == some (byte ',') then text.drop 2 else text)
      some (e :: es, text)

/-- A byte of a name, which may have another one before it and a point between them. -/
def isNameByte (c : UInt8) : Bool := isIdentifierContinue c || c == byte '.'

/-- The name is that of a built-in function. -/
def isBuiltin (word : Bytes) : Bool := word.take 5 == ascii "Math."

/-- A name, a call or a truth value. -/
def readName (expr : ExprReader) (n : Nat) (text : Bytes) : Option (Expr × Bytes) :=
  let word := text.takeWhile isNameByte
  let text := text.dropWhile isNameByte
  let name := if isBuiltin word then word.drop 5 else word
  if text.head? == some (byte '(') then do
    let (args, text) ← readArgs expr n text.tail
    some (.call {} name args .unknown (isBuiltin word), text)
  else if word == ascii "true" then some (.boolean {} true, text)
  else if word == ascii "false" then some (.boolean {} false, text)
  else some (.identifier ⟨{}, name, .unknown, false⟩, text)

/-- The text in front of a value, which is no piece if it is empty. -/
def front (t : Bytes) : List Segment := if t = [] then [] else [.text t]

/-- The pieces of a string up to its closing backquote. -/
def readSegments (expr : ExprReader) : Nat → Bytes → Option (List Segment × Bytes)
  | 0, _ => none
  | n + 1, text => do
    let (t, text) ← readUntil endsText (n + 1) text
    if text.head? == some (byte '\x60') then some (front t, text.tail)
    else do
      let (e, text) ← expr (text.drop 2)
      let text ← expect (byte '\x7d') text
      let (ss, text) ← readSegments expr n text
      some (front t ++ .embedded e :: ss, text)

/-- One expression, its parts read by `expr`. -/
def readNode (value : Bytes → Number) (n : Nat) (expr : ExprReader) : ExprReader
  | [] => none
  | c :: text =>
    if c == byte '"' then do
      let (s, text) ← readUntil endsQuoted n text
      some (.string {} s, text.tail)
    else if c == byte '\x60' then do
      let (segments, text) ← readSegments expr n text
      some (.interpolated {} segments, text)
    else if c == byte '(' then readGroup value expr text
    else if isIdentifierStart c then readName expr n (c :: text)
    else readNumeral value (c :: text)

/-- An expression of at most so many bytes. -/
def readExpr (value : Bytes → Number) : Nat → ExprReader
  | 0 => fun _ => none
  | n + 1 => readNode value n (readExpr value n)

/-! ## What may follow an expression -/

/-- The text does not go on with what could belong to an expression before it. -/
def Closes (text : Bytes) : Prop :=
  text.head?.all fun c => c == byte ' ' || c == byte ')' || c == byte ',' || c == byte '\x7d'

theorem closes_nil : Closes [] := rfl

theorem Closes.cons {c : UInt8} {text : Bytes} (h : Closes (c :: text)) :
    c = byte ' ' ∨ c = byte ')' ∨ c = byte ',' ∨ c = byte '\x7d' := by
  simpa only [Closes, List.head?_cons, Option.all_some, Bool.or_eq_true, beq_iff_eq,
    or_assoc] using h

/-- A word ends where an expression does, if none of its bytes can follow one. -/
theorem span_closes {p : UInt8 → Bool} {word text : Bytes} (h : ∀ c ∈ word, p c)
    (hp : p (byte ' ') = false ∧ p (byte ')') = false ∧ p (byte ',') = false ∧
      p (byte '\x7d') = false) (htext : Closes text) :
    (word ++ text).takeWhile p = word ∧ (word ++ text).dropWhile p = text := by
  cases text with
  | nil =>
    rw [List.takeWhile_append_of_pos h, List.dropWhile_append_of_pos h]
    exact ⟨List.append_nil word, rfl⟩
  | cons c text =>
    obtain ⟨hblank, hparen, hcomma, hbrace⟩ := hp
    rcases htext.cons with rfl | rfl | rfl | rfl
    · exact span_exact h hblank text
    · exact span_exact h hparen text
    · exact span_exact h hcomma text
    · exact span_exact h hbrace text

theorem head_ne_paren {text : Bytes} (h : Closes text) :
    (text.head? == some (byte '(')) = false := by
  cases text with
  | nil => rfl
  | cons c text => rcases h.cons with rfl | rfl | rfl | rfl <;> rfl

/-- What is read of an expression is what it says. -/
def Reads (expr : ExprReader) (e : Expr) : Prop :=
  ∀ text, Closes text → expr (e.script {} ++ text) = some (e.plain, text)

@[simp] theorem expect_self (c : UInt8) (text : Bytes) : expect c (c :: text) = some text :=
  if_pos (beq_self_eq_true c)

/-- A byte of a class is none that is not in it. -/
theorem ne_of_class {p : UInt8 → Bool} {c d : UInt8} (h : p c) (hd : p d = false) : c ≠ d := by
  rintro rfl
  exact Bool.false_ne_true (hd.symm.trans h)

/-! ## Numbers -/

section Numbers

variable {value : Bytes → Number} {x : Number}

private theorem isNumeralByte_of_mem_text (hx : x.isFinite) : ∀ c ∈ x.text, isNumeralByte c := by
  obtain ⟨t, ht, hcase⟩ := Number.text_numeral hx
  rcases hcase with h | h
  · rw [h]
    exact ht.bytes
  · rw [h, List.forall_mem_cons]
    exact ⟨rfl, ht.bytes⟩

private theorem readNumeral_text (hx : x.isFinite) (hvalue : value x.text = x.withoutZeroSign)
    {text : Bytes} (htext : Closes text) :
    readNumeral value (x.text ++ text) = some (.number {} x.withoutZeroSign, text) := by
  obtain ⟨htake, hdrop⟩ :=
    span_closes (isNumeralByte_of_mem_text hx) (by decide) htext
  rw [readNumeral, htake, hdrop, hvalue]

/-- A numeral is read as one. -/
theorem readNode_of_isDigit (n : Nat) (expr : ExprReader) {c : UInt8} (text : Bytes)
    (h : isDigit c ∨ c = byte '-') :
    readNode value n expr (c :: text) = readNumeral value (c :: text) := by
  rcases h with h | rfl
  · have hstart : isIdentifierStart c = false := by
      simp only [isDigit, Bool.and_eq_true, decide_eq_true_eq] at h
      simp only [isIdentifierStart, isLetter]
      grind
    have hne {d : UInt8} (hd : isDigit d = false) : (c == d) = false :=
      beq_eq_false_iff_ne.mpr (ne_of_class h hd)
    simp only [readNode, hne (d := byte '"') rfl, hne (d := byte '\x60') rfl,
      hne (d := byte '(') rfl, hstart, Bool.false_eq_true, if_false]
  · rfl

theorem reads_number (loc : Location) (n : Nat) (expr : ExprReader) (hx : x.isFinite)
    (hvalue : value x.text = x.withoutZeroSign) :
    Reads (readNode value n expr) (.number loc x) := by
  intro text htext
  rw [Expr.script, Expr.plain, ← readNumeral_text hx hvalue htext]
  obtain ⟨t, ht, hcase⟩ := Number.text_numeral hx
  obtain ⟨c, cs, rfl, hc⟩ := ht.exists_cons
  rcases hcase with h | h
  · rw [h]
    exact readNode_of_isDigit n expr (cs ++ text) (.inl hc)
  · rw [h]
    exact readNode_of_isDigit n expr (c :: cs ++ text) (.inr rfl)

end Numbers

/-! ## Names -/

/-- A name that the output can use for a declaration of a program. -/
structure IsName (name : Bytes) : Prop where
  word : IsWord name
  free : isReserved name = false

/-- A name as it is written. -/
def spelled (builtin : Bool) (name : Bytes) : Bytes := if builtin then builtinScript name else name

section Names

variable {name text : Bytes} {value : Bytes → Number} {expr : ExprReader} {n : Nat}

theorem isNameByte_spelled (builtin : Bool) (h : IsWord name) :
    ∀ c ∈ spelled builtin name, isNameByte c := by
  have hname : ∀ c ∈ name, isNameByte c := fun c hc => by
    rw [isNameByte, h.bytes c hc, Bool.true_or]
  cases builtin with
  | false => exact hname
  | true =>
    intro c hc
    rcases List.mem_append.mp hc with hc | hc
    · exact List.all_eq_true.mp (by decide : (ascii "Math.").all isNameByte = true) c hc
    · exact hname c hc

theorem head_spelled (builtin : Bool) (h : IsWord name) :
    ∃ c cs, spelled builtin name = c :: cs ∧ isIdentifierStart c := by
  cases builtin with
  | true => exact ⟨_, _, rfl, by decide⟩
  | false =>
    cases name with
    | nil => exact absurd h.start Bool.false_ne_true
    | cons c cs => exact ⟨c, cs, rfl, h.start⟩

/-- No point stands in a word. -/
theorem isBuiltin_spelled (builtin : Bool) (h : IsWord name) :
    isBuiltin (spelled builtin name) = builtin := by
  cases builtin with
  | true => rfl
  | false =>
    refine beq_eq_false_iff_ne.mpr fun htake => ?_
    have hpoint : byte '.' ∈ name.take 5 := htake ▸ by decide
    exact absurd (h.bytes _ (List.mem_of_mem_take hpoint)) (by decide)

theorem name_spelled (builtin : Bool) :
    (if builtin then (spelled builtin name).drop 5 else spelled builtin name) = name := by
  cases builtin <;> rfl

private theorem spelled_ne_of_isReserved (builtin : Bool) (h : IsName name) (word : Bytes)
    (hword : isReserved word) (hhead : word.head? ≠ some (byte 'M')) :
    (spelled builtin name == word) = false := by
  refine beq_eq_false_iff_ne.mpr ?_
  rintro rfl
  cases builtin with
  | true => exact hhead rfl
  | false => exact Bool.false_ne_true (h.free.symm.trans hword)

theorem readNode_of_isIdentifierStart {c : UInt8} (h : isIdentifierStart c) :
    readNode value n expr (c :: text) = readName expr n (c :: text) := by
  have hne {d : UInt8} (hd : isIdentifierStart d = false) : (c == d) = false :=
    beq_eq_false_iff_ne.mpr (ne_of_class h hd)
  simp only [readNode, hne (d := byte '"') rfl, hne (d := byte '\x60') rfl,
    hne (d := byte '(') rfl, h, Bool.false_eq_true, if_false, if_true]

private theorem readName_identifier (builtin : Bool) (h : IsName name) (htext : Closes text) :
    readName expr n (spelled builtin name ++ text) =
      some (.identifier ⟨{}, name, .unknown, false⟩, text) := by
  obtain ⟨htake, hdrop⟩ := span_closes (isNameByte_spelled builtin h.word) (by decide) htext
  simp only [readName, htake, hdrop, head_ne_paren htext, isBuiltin_spelled builtin h.word,
    name_spelled, spelled_ne_of_isReserved builtin h (ascii "true") (by decide) (by decide),
    spelled_ne_of_isReserved builtin h (ascii "false") (by decide) (by decide),
    Bool.false_eq_true, if_false]

theorem readName_call (builtin : Bool) (h : IsWord name) {args : List Expr} {rest : Bytes}
    (hargs : readArgs expr n text = some (args, rest)) :
    readName expr n (spelled builtin name ++ byte '(' :: text) =
      some (.call {} name args .unknown builtin, rest) := by
  obtain ⟨htake, hdrop⟩ :=
    span_exact (c := byte '(') (isNameByte_spelled builtin h) (by decide) text
  simp only [readName, htake, hdrop, List.head?_cons, beq_self_eq_true, if_true, List.tail_cons,
    hargs, isBuiltin_spelled builtin h, name_spelled, Option.bind_eq_bind, Option.bind_some]

theorem reads_identifier (id : Identifier) (h : IsName id.name) :
    Reads (readNode value n expr) (.identifier id) := by
  intro text htext
  let builtin := id.isFunction && builtinNames.contains id.name
  have hscript : (Expr.identifier id).script {} = spelled builtin id.name := rfl
  have hname : readName expr n (spelled builtin id.name ++ text) = _ :=
    readName_identifier builtin h htext
  obtain ⟨c, cs, hc, hstart⟩ := head_spelled builtin h.word
  rw [hscript, Expr.plain, ← hname, hc]
  exact readNode_of_isIdentifierStart hstart

theorem reads_boolean (loc : Location) (b : Bool) :
    Reads (readNode value n expr) (.boolean loc b) := by
  intro text htext
  have hword : ∀ c ∈ (Expr.boolean loc b).script {}, isNameByte c := by
    cases b <;> exact List.all_eq_true.mp rfl
  obtain ⟨htake, hdrop⟩ := span_closes hword (by decide) htext
  have hname : readName expr n ((Expr.boolean loc b).script {} ++ text) =
      some (.boolean {} b, text) := by
    simp only [readName, htake, hdrop, head_ne_paren htext]
    cases b <;> rfl
  rw [Expr.plain, ← hname]
  cases b <;> rfl

end Names

/-! ## Where an expression begins -/

/-- A byte with which an expression begins that is not a number. -/
def isOpening (c : UInt8) : Bool :=
  c == byte '"' || c == byte '\x60' || c == byte '(' || isIdentifierStart c

theorem not_isDigit_of_isOpening {c : UInt8} (h : isOpening c) : isDigit c = false := by
  simp only [isOpening, isIdentifierStart, isLetter, Bool.or_eq_true, Bool.and_eq_true, beq_iff_eq,
    decide_eq_true_eq] at h
  simp only [isDigit]
  grind

/-- The expression is a number that the values of numerals are right about, or begins like none. -/
def Opens (value : Bytes → Number) (e : Expr) : Prop :=
  (∃ loc x, e = .number loc x ∧ x.isFinite ∧ value x.text = x.withoutZeroSign) ∨
    ∃ c cs, e.script {} = c :: cs ∧ isOpening c

section Operations

variable {value : Bytes → Number} {expr : ExprReader} {left right e : Expr}

/-- The first byte of an expression. -/
theorem Opens.head (h : Opens value e) :
    ∃ c cs, e.script {} = c :: cs ∧ (isOpening c ∨ isDigit c ∨ c = byte '-') := by
  rcases h with ⟨loc, x, rfl, hx, -⟩ | ⟨c, cs, hc, hopen⟩
  · obtain ⟨t, ht, hcase⟩ := Number.text_numeral hx
    rcases hcase with h | h
    · obtain ⟨c, cs, rfl, hc⟩ := ht.exists_cons
      exact ⟨c, cs, h, .inr (.inl hc)⟩
    · exact ⟨_, t, h, .inr (.inr rfl)⟩
  · exact ⟨c, cs, hc, .inl hopen⟩

theorem Opens.head_ne (h : Opens value e) {d : UInt8} (hopen : isOpening d = false)
    (hdigit : isDigit d = false) (hminus : byte '-' ≠ d) (text : Bytes) :
    ((e.script {} ++ text).head? == some d) = false := by
  obtain ⟨c, cs, hc, hcase⟩ := h.head
  have hne : c ≠ d := by
    rcases hcase with hcase | hcase | rfl
    · exact ne_of_class hcase hopen
    · exact ne_of_class hcase hdigit
    · exact hminus
  rw [hc]
  exact beq_eq_false_iff_ne.mpr fun heq => hne (Option.some.inj heq)

/-! ## Operations -/

theorem operation?_binary (op : BinaryOp) :
    operation? op.script = some fun left right => .binary {} op left right .unknown := by
  cases op <;> rfl

theorem operation?_compare (op : CompareOp) :
    operation? op.script = some fun left right => .compare {} op.canonical left right := by
  cases op <;> rfl

theorem readOperation_script {op text : Bytes} {make : Expr → Expr → Expr}
    (hop : ∀ c ∈ op, c != byte ' ') (hmake : operation? op = some make)
    (hright : Reads expr right) :
    readOperation expr left
        (byte ' ' :: (op ++ byte ' ' :: (right.script {} ++ byte ')' :: text))) =
      some (make left right.plain, text) := by
  obtain ⟨htake, hdrop⟩ :=
    span_exact (c := byte ' ') hop (by decide) (right.script {} ++ byte ')' :: text)
  have hread := hright (byte ')' :: text) rfl
  simp only [readOperation, expect_self, htake, hdrop, hmake, hread, Option.bind_eq_bind,
    Option.bind_some]

theorem readOperand_script (op : UnaryOp) (h : Reads expr e) (text : Bytes) :
    readOperand expr op (e.script {} ++ byte ')' :: text) =
      some (.unary {} op e.plain .unknown, text) := by
  have hread := h (byte ')' :: text) rfl
  simp only [readOperand, hread, expect_self, Option.bind_eq_bind, Option.bind_some]

/-- A number behind a minus sign, up to what follows it. -/
theorem readMinus_numeral {t text : Bytes} (ht : IsUnsigned t) (htext : Closes text) :
    readMinus value expr (t ++ text) =
      if text.head? == some (byte ')') then
        some (.unary {} .neg (.number {} (value t)) .unknown, text.tail)
      else readOperation expr (.number {} (value (byte '-' :: t))) text := by
  obtain ⟨htake, hdrop⟩ := span_closes ht.bytes (by decide) htext
  obtain ⟨c, cs, rfl, hc⟩ := ht.exists_cons
  have hblank : ((c :: cs ++ text).head? == some (byte ' ')) = false :=
    beq_eq_false_iff_ne.mpr fun heq => ne_of_class hc rfl (Option.some.inj heq)
  have hdigit : (c :: cs ++ text).head?.any isDigit = true := hc
  simp only [readMinus, hblank, hdigit, htake, hdrop, Bool.false_eq_true, if_false, if_true]

/-- The left operand of an operation is read, and what follows it is left. -/
theorem readGroup_left (hopens : Opens value left) (hleft : Reads expr left) (text : Bytes) :
    readGroup value expr (left.script {} ++ byte ' ' :: text) =
      readOperation expr left.plain (byte ' ' :: text) := by
  have hread := hleft (byte ' ' :: text) rfl
  have hnot := hopens.head_ne (d := byte '!') rfl rfl (by decide) (byte ' ' :: text)
  by_cases hminus : (left.script {} ++ byte ' ' :: text).head? == some (byte '-')
  · -- The sign belongs to a number.
    rcases hopens with ⟨loc, x, rfl, hx, hvalue⟩ | ⟨c, cs, hc, hopen⟩
    · obtain ⟨t, ht, hcase⟩ := Number.text_numeral hx
      rcases hcase with h | h
      · obtain ⟨c, cs, rfl, hc⟩ := ht.exists_cons
        rw [Expr.script, h] at hminus
        exact absurd (Option.some.inj (beq_iff_eq.mp hminus)) (ne_of_class hc rfl)
      · rw [h] at hvalue
        rw [Expr.script] at hnot hminus ⊢
        simp only [readGroup, hnot, hminus, Bool.false_eq_true, if_false, if_true]
        rw [h]
        have hblank : Closes (byte ' ' :: text) := rfl
        exact (readMinus_numeral ht hblank).trans (by rw [hvalue, Expr.plain]; rfl)
    · rw [hc] at hminus
      exact absurd (Option.some.inj (beq_iff_eq.mp hminus)) (ne_of_class hopen rfl)
  · simp only [readGroup, hnot, hminus, hread, Bool.false_eq_true, if_false, Option.bind_eq_bind,
      Option.bind_some]

theorem infixScript_append (left op right text : Bytes) :
    infixScript left op right ++ text =
      byte '(' :: (left ++ byte ' ' :: (op ++ byte ' ' :: (right ++ byte ')' :: text))) := by
  simp only [infixScript, List.append_assoc]
  rfl

theorem length_infixScript (left op right : Bytes) :
    (infixScript left op right).length = left.length + op.length + right.length + 4 := by
  have h := congrArg List.length (infixScript_append left op right [])
  simp only [List.append_nil, List.length_cons, List.length_append, List.length_nil] at h
  omega

theorem readNode_operation {op text : Bytes} {make : Expr → Expr → Expr} (n : Nat)
    (hop : ∀ c ∈ op, c != byte ' ') (hmake : operation? op = some make)
    (hopens : Opens value left) (hleft : Reads expr left) (hright : Reads expr right) :
    readNode value n expr (infixScript (left.script {}) op (right.script {}) ++ text) =
      some (make left.plain right.plain, text) := by
  rw [infixScript_append]
  exact (readGroup_left hopens hleft _).trans (readOperation_script hop hmake hright)

theorem reads_binary (loc : Location) (op : BinaryOp) (type : ValueType) (n : Nat)
    (hopens : Opens value left) (hleft : Reads expr left) (hright : Reads expr right) :
    Reads (readNode value n expr) (.binary loc op left right type) := fun _ _ =>
  have hop : ∀ c ∈ op.script, c != byte ' ' := by
    cases op <;> exact List.all_eq_true.mp rfl
  readNode_operation n hop (operation?_binary op) hopens hleft hright

theorem reads_compare (loc : Location) (op : CompareOp) (n : Nat)
    (hopens : Opens value left) (hleft : Reads expr left) (hright : Reads expr right) :
    Reads (readNode value n expr) (.compare loc op left right) := fun _ _ =>
  have hop : ∀ c ∈ op.script, c != byte ' ' := by
    cases op <;> exact List.all_eq_true.mp rfl
  readNode_operation n hop (operation?_compare op) hopens hleft hright

theorem prefixScript_not_append (operand text : Bytes) :
    prefixScript .not operand ++ text =
      byte '(' :: byte '!' :: (operand ++ byte ')' :: text) := by
  have hscript : prefixScript .not operand = ascii "(" ++ ascii "!" ++ operand ++ ascii ")" := rfl
  rw [hscript, List.append_assoc, List.append_assoc]
  rfl

/-- An operand with a sign of its own stands behind a blank. -/
theorem prefixScript_neg_append (operand text : Bytes) :
    prefixScript .neg operand ++ text = byte '(' :: byte '-' ::
      ((if operand.head? == some (byte '-') then [byte ' '] else []) ++
        (operand ++ byte ')' :: text)) := by
  unfold prefixScript
  cases operand.head? == some (byte '-') with
  | true => exact List.append_assoc ..
  | false => exact List.append_assoc ..

theorem length_lt_prefixScript (op : UnaryOp) (operand : Bytes) :
    operand.length < (prefixScript op operand).length := by
  unfold prefixScript
  split <;>
  · simp only [List.length_append]
    exact Nat.lt_succ_of_le (Nat.le_add_left ..)

theorem head_prefixScript (op : UnaryOp) (operand : Bytes) :
    ∃ cs, prefixScript op operand = byte '(' :: cs := by
  unfold prefixScript
  split <;> exact ⟨_, rfl⟩

private theorem readMinus_operand (hopens : Opens value e) (hread : Reads expr e) (text : Bytes) :
    readMinus value expr ((if (e.script {}).head? == some (byte '-') then [byte ' '] else []) ++
      (e.script {} ++ byte ')' :: text)) = some (.unary {} .neg e.plain .unknown, text) := by
  split
  · exact readOperand_script .neg hread text
  · rename_i hsign
    rw [List.nil_append]
    rcases hopens with ⟨loc, x, rfl, hx, hvalue⟩ | ⟨c, cs, hc, hopen⟩
    · -- The number has no sign, so the one before it is the operator.
      obtain ⟨t, ht, rfl | h⟩ := Number.text_numeral hx
      · have hparen : Closes (byte ')' :: text) := rfl
        rw [Expr.script, readMinus_numeral ht hparen, hvalue]
        rfl
      · rw [Expr.script, h] at hsign
        exact absurd rfl hsign
    · have hblank : ((e.script {} ++ byte ')' :: text).head? == some (byte ' ')) = false := by
        rw [hc]
        exact beq_eq_false_iff_ne.mpr fun heq => ne_of_class hopen rfl (Option.some.inj heq)
      have hdigit : (e.script {} ++ byte ')' :: text).head?.any isDigit = false := by
        rw [hc]
        exact not_isDigit_of_isOpening hopen
      simp only [readMinus, hblank, hdigit, Bool.false_eq_true, if_false]
      exact readOperand_script .neg hread text

theorem reads_unary (loc : Location) (op : UnaryOp) (type : ValueType) (n : Nat)
    (hopens : Opens value e) (hread : Reads expr e) :
    Reads (readNode value n expr) (.unary loc op e type) := by
  intro text _
  rw [Expr.script, Expr.plain]
  cases op with
  | not =>
    rw [prefixScript_not_append]
    exact readOperand_script .not hread text
  | neg =>
    rw [prefixScript_neg_append]
    exact readMinus_operand hopens hread text

end Operations

/-! ## Calls -/

section Calls

variable {value : Bytes → Number} {expr : ExprReader} {args : List Expr} {n : Nat}

theorem readArgs_step {e : Expr} {es : List Expr} {text rest more : Bytes}
    (hparen : (text.head? == some (byte ')')) = false) (he : expr text = some (e, rest))
    (hes : readArgs expr n (if rest.head? == some (byte ',') then rest.drop 2 else rest) =
      some (es, more)) : readArgs expr (n + 1) text = some (e :: es, more) := by
  simp only [readArgs, hparen, he, hes, Bool.false_eq_true, if_false, Option.bind_eq_bind,
    Option.bind_some]

theorem join_script_singleton (e : Expr) :
    Bytes.join (ascii ", ") (Expr.scriptList {} [e]) = e.script {} := List.append_nil _

theorem join_script_cons (e e' : Expr) (es : List Expr) :
    Bytes.join (ascii ", ") (Expr.scriptList {} (e :: e' :: es)) =
      e.script {} ++ (ascii ", " ++ Bytes.join (ascii ", ") (Expr.scriptList {} (e' :: es))) := rfl

theorem readArgs_join (hargs : ∀ e ∈ args, Opens value e ∧ Reads expr e) (hn : args.length < n)
    (text : Bytes) :
    readArgs expr n (Bytes.join (ascii ", ") (Expr.scriptList {} args) ++ byte ')' :: text) =
      some (Expr.plainList args, text) := by
  induction args generalizing n with
  | nil =>
    obtain ⟨m, rfl⟩ : ∃ m, n = m + 1 := ⟨n - 1, by simp at hn; omega⟩
    rfl
  | cons e es ih =>
    obtain ⟨m, rfl⟩ : ∃ m, n = m + 1 := ⟨n - 1, by omega⟩
    rw [List.forall_mem_cons] at hargs
    obtain ⟨⟨hopens, hread⟩, hargs⟩ := hargs
    have hrest := ih hargs (Nat.lt_of_succ_lt_succ hn)
    cases es with
    | nil =>
      rw [join_script_singleton]
      exact readArgs_step (hopens.head_ne rfl rfl (by decide) _) (hread _ rfl) hrest
    | cons e' es =>
      rw [join_script_cons, List.append_assoc]
      exact readArgs_step (hopens.head_ne rfl rfl (by decide) _) (hread _ rfl) hrest

/-- Every argument but the first stands behind two bytes. -/
theorem length_le_join (args : List Expr) :
    args.length ≤ (Bytes.join (ascii ", ") (Expr.scriptList {} args)).length + 1 := by
  induction args with
  | nil => exact Nat.zero_le _
  | cons e es ih =>
    cases es with
    | nil => exact Nat.le_add_left 1 _
    | cons e' es =>
      have hcomma : (ascii ", ").length = 2 := rfl
      rw [join_script_cons, List.length_append, List.length_append, hcomma, List.length_cons]
      omega

theorem length_script_le_join {e : Expr} (h : e ∈ args) :
    (e.script {}).length ≤ (Bytes.join (ascii ", ") (Expr.scriptList {} args)).length := by
  induction args with
  | nil => exact absurd h List.not_mem_nil
  | cons e' es ih =>
    cases es with
    | nil =>
      rw [List.mem_singleton.mp h, join_script_singleton]
    | cons e'' es =>
      rw [join_script_cons, List.length_append, List.length_append]
      rcases List.mem_cons.mp h with rfl | h
      · exact Nat.le_add_right ..
      · have := ih h
        omega

theorem script_call_append (loc : Location) (callee : Bytes) (args : List Expr) (type : ValueType)
    (builtin : Bool) (text : Bytes) :
    (Expr.call loc callee args type builtin).script {} ++ text =
      spelled builtin callee ++ byte '(' ::
        (Bytes.join (ascii ", ") (Expr.scriptList {} args) ++ byte ')' :: text) := by
  cases builtin <;>
  · rw [Expr.script, List.append_assoc, List.append_assoc, List.append_assoc]
    rfl

theorem reads_call (loc : Location) {callee : Bytes} (type : ValueType) (builtin : Bool)
    (hcallee : IsWord callee) (hargs : ∀ e ∈ args, Opens value e ∧ Reads expr e)
    (hn : args.length < n) :
    Reads (readNode value n expr) (.call loc callee args type builtin) := by
  intro text _
  have hname : readName expr n _ = _ :=
    readName_call builtin hcallee (readArgs_join hargs hn text)
  obtain ⟨c, cs, hc, hstart⟩ := head_spelled builtin hcallee
  rw [script_call_append, Expr.plain, ← hname, hc]
  exact readNode_of_isIdentifierStart hstart

end Calls

/-! ## Strings -/

section Strings

variable {value : Bytes → Number} {expr : ExprReader} {segments : List Segment} {n : Nat}

theorem script_string_append (names : Names) (loc : Location) (s text : Bytes) :
    (Expr.string loc s).script names ++ text =
      byte '"' :: (s.flatMap quotedByte ++ byte '"' :: text) := by
  rw [Expr.script, quote, List.append_assoc, List.append_assoc]
  rfl

theorem reads_string (loc : Location) {s : Bytes} (hn : s.length < n) :
    Reads (readNode value n expr) (.string loc s) := by
  intro text _
  have hnode (more : Bytes) : readNode value n expr (byte '"' :: more) = (do
      let (s, text) ← readUntil endsQuoted n more
      some (.string {} s, text.tail)) := rfl
  rw [script_string_append, hnode, readUntil_quoted hn]
  rfl

/-- The pieces do not begin with text. -/
def beginsWithValue : List Segment → Bool
  | .text _ :: _ => false
  | _ => true

/-- No text is empty, and no two texts are neighbours. -/
def Merged : List Segment → Prop
  | [] => True
  | .embedded _ :: ss => Merged ss
  | .text t :: ss => t ≠ [] ∧ beginsWithValue ss ∧ Merged ss

theorem merged_merge (ss : List Segment) : Merged (Segment.merge ss) := by
  fun_induction Segment.merge ss with
  | case1 => trivial
  | case2 e rest ih => exact ih
  | case3 rest ih => exact ih
  | case4 t rest ht u more hmore ih =>
    rw [hmore] at ih
    obtain ⟨-, hbegins, hmerged⟩ := ih
    exact ⟨fun h => ht (List.append_eq_nil_iff.mp h).1, hbegins, hmerged⟩
  | case5 t rest ht hmore ih =>
    refine ⟨ht, ?_, ih⟩
    cases hmerge : Segment.merge rest with
    | nil => rfl
    | cons s ss =>
      cases s with
      | embedded e => rfl
      | text u => exact absurd hmerge (hmore u ss)

/-- Pieces are text that may be empty, and pieces that begin with a value. -/
theorem Merged.exists_front (h : Merged segments) :
    ∃ t ss, segments = front t ++ ss ∧ beginsWithValue ss ∧ Merged ss := by
  cases segments with
  | nil => exact ⟨[], [], rfl, rfl, trivial⟩
  | cons s ss =>
    cases s with
    | embedded e => exact ⟨[], .embedded e :: ss, rfl, rfl, h⟩
    | text t =>
      obtain ⟨hne, hbegins, hmerged⟩ := h
      exact ⟨t, ss, by rw [front, if_neg hne]; rfl, hbegins, hmerged⟩

theorem script_front (names : Names) (t : Bytes) (ss : List Segment) :
    Segment.scriptList names (front t ++ ss) = templateText t ++ Segment.scriptList names ss := by
  unfold front
  split
  · rename_i ht
    rw [ht]
    rfl
  · rfl

private theorem plain_front (t : Bytes) (ss : List Segment) :
    Segment.plainList (front t ++ ss) = front t ++ Segment.plainList ss := by
  unfold front
  split <;> rfl

theorem script_embedded (names : Names) (e : Expr) (ss : List Segment) (text : Bytes) :
    Segment.scriptList names (.embedded e :: ss) ++ text = byte '$' :: byte '\x7b' ::
      (e.script names ++ byte '\x7d' :: (Segment.scriptList names ss ++ text)) := by
  rw [Segment.scriptList, Segment.script, List.append_assoc, List.append_assoc, List.append_assoc]
  rfl

theorem length_script_embedded (e : Expr) (ss : List Segment) :
    (Segment.scriptList {} (.embedded e :: ss)).length =
      (e.script {}).length + (Segment.scriptList {} ss).length + 3 := by
  have h := congrArg List.length (script_embedded {} e ss [])
  simp only [List.append_nil, List.length_cons, List.length_append] at h
  omega

/-- The text of the pieces up to the next value is read, and the values in between. -/
theorem readSegments_script (h : Merged segments)
    (hread : ∀ e, .embedded e ∈ segments → Reads expr e)
    (hn : (Segment.scriptList {} segments).length < n) (text : Bytes) :
    readSegments expr n (Segment.scriptList {} segments ++ byte '\x60' :: text) =
      some (Segment.plainList segments, text) := by
  induction n generalizing segments with
  | zero => exact absurd hn (Nat.not_lt_zero _)
  | succ n ih =>
    obtain ⟨t, ss, rfl, hbegins, hmerged⟩ := h.exists_front
    rw [script_front, List.length_append] at hn
    have ht : t.length < n + 1 := by
      have := length_le_templateText t
      omega
    rw [script_front, plain_front, List.append_assoc]
    cases ss with
    | nil =>
      have htext : endsText (byte '\x60' :: text) := rfl
      simp only [Segment.scriptList, Segment.plainList, List.nil_append, List.append_nil,
        readSegments, readUntil_templateText ht htext, List.head?_cons, List.tail_cons,
        beq_self_eq_true, if_true, Option.bind_eq_bind, Option.bind_some]
    | cons s ss =>
      cases s with
      | text u => exact absurd hbegins Bool.false_ne_true
      | embedded e =>
        let more := Segment.scriptList {} ss ++ byte '\x60' :: text
        have htext :
            endsText (byte '$' :: byte '\x7b' :: (e.script {} ++ byte '\x7d' :: more)) := rfl
        have hvalue : (some (byte '$') == some (byte '\x60')) = false := by decide
        have he := hread e (List.mem_append_right _ List.mem_cons_self) (byte '\x7d' :: more) rfl
        have hlength := length_script_embedded e ss
        have hmerged : Merged ss := hmerged
        have hss := ih hmerged (fun e he => hread e (List.mem_append_right _
          (List.mem_cons_of_mem _ he))) (by omega)
        rw [script_embedded]
        simp only [readSegments, readUntil_templateText ht htext, List.head?_cons, hvalue,
          List.drop_succ_cons, List.drop_zero, he, expect_self, more, hss, Segment.plainList,
          Bool.false_eq_true, if_false, Option.bind_eq_bind, Option.bind_some]

theorem length_script_le_of_embedded {e : Expr} (h : .embedded e ∈ segments) :
    (e.script {}).length ≤ (Segment.scriptList {} segments).length := by
  induction segments with
  | nil => exact absurd h List.not_mem_nil
  | cons s ss ih =>
    rcases List.mem_cons.mp h with rfl | h
    · rw [length_script_embedded]
      omega
    · rw [Segment.scriptList, List.length_append]
      exact Nat.le_add_left_of_le (ih h)

theorem script_interpolated_append (names : Names) (loc : Location) (segments : List Segment)
    (text : Bytes) :
    (Expr.interpolated loc segments).script names ++ text =
      byte '\x60' :: (Segment.scriptList names segments ++ byte '\x60' :: text) := by
  rw [Expr.script, List.append_assoc, List.append_assoc]
  rfl

theorem reads_interpolated (loc : Location) (h : Merged segments)
    (hread : ∀ e, .embedded e ∈ segments → Reads expr e)
    (hn : (Segment.scriptList {} segments).length < n) :
    Reads (readNode value n expr) (.interpolated loc segments) := by
  intro text _
  have hnode (more : Bytes) : readNode value n expr (byte '\x60' :: more) = (do
      let (segments, text) ← readSegments expr n more
      some (.interpolated {} segments, text)) := rfl
  rw [script_interpolated_append, hnode, readSegments_script h hread hn]
  rfl

end Strings

end Script

end Roar
