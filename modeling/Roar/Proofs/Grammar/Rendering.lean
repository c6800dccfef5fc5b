import Roar.Grammar.Tree
import Roar.Proofs.Token.Lines

/-!
# Writing trees

A list of statements is written as lines (`Stmt.linesList`): the tokens of its statements, one on a
line, and its comments. Inside an expression there are parentheses where the strengths of the
operators ask for them; an expression that stands in a statement is in one pair of parentheses.

```
strength   1: or   2: and   3: comparison   4: + -   5: * / %   6: unary - !   7: all else
```

The operands of `and`, `or` and of arithmetic must be as strong as the operator, and that on the right
stronger; the operands of a comparison must be stronger, since comparisons do not chain.

Which trees are written is said by `Stmt.Writable`. Two trees that differ only in their places are
made equal by `Stmt.unplaced`.
-/

namespace Roar

/-- The lexemes of an operator. A shift is never written. -/
def BinaryOp.atoms : BinaryOp → List Atom
  | or => [.keyword .orWord]
  | and => [.keyword .andWord]
  | add => [.symbol .plus]
  | sub => [.symbol .minus]
  | mul => [.symbol .star]
  | div => [.symbol .slash]
  | mod => [.symbol .percent]
  | shl | shr => []

def BinaryOp.strength : BinaryOp → Nat
  | or => 1
  | and => 2
  | add | sub => 4
  | mul | div | mod | shl | shr => 5

/-- `is` and two words. -/
def phrase (first second : String) : List Atom :=
  [.keyword .isWord, .name (ascii first), .name (ascii second)]

def CompareOp.atoms : CompareOp → List Atom
  | eq => [.symbol .equal]
  | ne => [.symbol .notEqual]
  | lt => [.symbol .less]
  | le => [.symbol .lessEqual]
  | gt => [.symbol .greater]
  | ge => [.symbol .greaterEqual]
  | isEqualTo => phrase "equal" "to"
  | isLessThan => phrase "less" "than"
  | isGreaterThan => phrase "greater" "than"

def CompareOp.isPhrase : CompareOp → Bool
  | isEqualTo | isLessThan | isGreaterThan => true
  | _ => false

def UnaryOp.atom : UnaryOp → Atom
  | neg => .symbol .minus
  | not => .symbol .bang

namespace Grammar

/-! ## Expressions -/

/-- How strong an expression is as an operand. -/
def Expr.strength : Expr → Nat
  | .binary _ op .. => op.strength
  | .compare .. => 3
  | .unary .. => 6
  | _ => 7

/-- Atoms in parentheses. -/
def enclosed (atoms : List Atom) : List Atom :=
  .symbol .openParen :: atoms ++ [.symbol .closeParen]

/-- Atoms in parentheses if they are too weak. -/
def grouped (weak : Bool) (atoms : List Atom) : List Atom :=
  if weak then enclosed atoms else atoms

mutual

/-- The atoms of an expression. Strings with embedded expressions are not written. -/
def Expr.atoms : Expr → List Atom
  | .number _ _ text => [.number text]
  | .string _ value => [.string value]
  | .interpolated .. => []
  | .boolean _ value => [.keyword (if value then .trueWord else .falseWord)]
  | .identifier _ name => [.name name]
  | .binary _ op left right =>
    grouped (left.strength < op.strength) left.atoms ++ op.atoms ++
      grouped (right.strength < op.strength + 1) right.atoms
  | .compare _ op left right =>
    grouped (left.strength < 4) left.atoms ++ op.atoms ++ grouped (right.strength < 4) right.atoms
  | .unary _ op operand => op.atom :: grouped (operand.strength < 6) operand.atoms
  | .call _ callee args => .name callee :: enclosed (Expr.atomsList args)

/-- The atoms of arguments, with commas between them. -/
def Expr.atomsList : List Expr → List Atom
  | [] => []
  | [e] => e.atoms
  | e :: es => e.atoms ++ .symbol .comma :: Expr.atomsList es

end

/-- An expression as an operand that must be so strong. -/
def Expr.written (k : Nat) (e : Expr) : List Atom := grouped (e.strength < k) e.atoms

/-! ## Statements -/

def word (k : Keyword) : Line := .atom (.keyword k)

def sign (s : Symbol) : Line := .atom (.symbol s)

theorem length_enclosed (atoms : List Atom) : (enclosed atoms).length = atoms.length + 2 := by
  simp [enclosed]

theorem map_enclosed_append (atoms : List Atom) (more : List Line) :
    (enclosed atoms).map .atom ++ more =
      sign .openParen :: (atoms.map .atom ++ sign .closeParen :: more) := by
  simp [enclosed, sign]

/-- An expression that stands in a statement. -/
def Expr.lines (e : Expr) : List Line := (enclosed e.atoms).map .atom

/-- Names with commas between them. -/
def paramAtoms : List Param → List Atom
  | [] => []
  | [p] => [.name p.name]
  | p :: ps => .name p.name :: .symbol .comma :: paramAtoms ps

/-- Lines between two bars. -/
def blockLines (body : List Line) : List Line := sign .bar :: body ++ [sign .bar]

mutual

/-- The lines of a statement. -/
def Stmt.lines : Stmt → List Line
  | .print _ value => word .roar :: value.lines
  | .assign _ target value => target.lines ++ sign .assign :: value.lines
  | .function _ name params _ body =>
    word .ignite :: .atom (.name name) :: (enclosed (paramAtoms params)).map .atom ++
      blockLines (Stmt.linesList body)
  | .serve _ value => word .serve :: value.lines
  | .branch _ arms => arms.lines .ifWord
  | .loop _ counter _ bound _ body =>
    word .prowl :: counter.lines ++ word .inWord :: word .range :: bound.lines ++
      blockLines (Stmt.linesList body)
  | .leave _ => [word .breakWord]
  | .comment _ text => [.comment text]
  | .expression _ value => value.lines

/-- The lines of arms, the first of which begins with the given word. -/
def Arms.lines (first : Keyword) : Arms → List Line
  | .done => []
  | .otherwise _ body => word .otherwise :: blockLines (Stmt.linesList body)
  | .arm _ condition _ body rest =>
    word first :: condition.lines ++ blockLines (Stmt.linesList body) ++ rest.lines .elseWord

def Stmt.linesList : List Stmt → List Line
  | [] => []
  | s :: ss => s.lines ++ Stmt.linesList ss

end

/-- The source that says these statements, one token a line. -/
def render (ss : List Stmt) : Bytes := source (Stmt.linesList ss)

/-! ## What is written -/

mutual

/-- Names are words that are not reserved, operators are those of the language, a number has the
value that its text says, and strings have no embedded expressions and no carriage return. -/
def Expr.Writable : Expr → Prop
  | .number _ value text => IsNumeral text ∧ value = Number.ofDecimal (Decimal.ofNumeral text)
  | .string _ value => byte '\r' ∉ value
  | .interpolated .. => False
  | .boolean .. => True
  | .identifier _ name => IsIdentifier name
  | .binary _ op left right => op ≠ .shl ∧ op ≠ .shr ∧ left.Writable ∧ right.Writable
  | .compare _ _ left right => left.Writable ∧ right.Writable
  | .unary _ _ operand => operand.Writable
  | .call _ callee args => IsIdentifier callee ∧ Expr.WritableList args

def Expr.WritableList : List Expr → Prop
  | [] => True
  | e :: es => e.Writable ∧ Expr.WritableList es

end

/-- There is a condition, not only an `otherwise` block. -/
def Arms.hasArm : Arms → Bool
  | .arm .. => true
  | _ => false

mutual

/-- The same for statements. A conditional statement has a condition, and the text of a comment has
no tilde and no blanks around it. -/
def Stmt.Writable : Stmt → Prop
  | .print _ value | .serve _ value | .expression _ value => value.Writable
  | .assign _ target value => target.Writable ∧ value.Writable
  | .function _ name params _ body =>
    IsIdentifier name ∧ (∀ p ∈ params, IsIdentifier p.name) ∧ Stmt.WritableList body
  | .branch _ arms => arms.hasArm ∧ arms.Writable
  | .loop _ counter _ bound _ body =>
    counter.Writable ∧ bound.Writable ∧ Stmt.WritableList body
  | .leave _ => True
  | .comment _ text => byte '~' ∉ text ∧ Bytes.trim text = text

def Arms.Writable : Arms → Prop
  | .done => True
  | .otherwise _ body => Stmt.WritableList body
  | .arm _ condition _ body rest =>
    condition.Writable ∧ Stmt.WritableList body ∧ rest.Writable

def Stmt.WritableList : List Stmt → Prop
  | [] => True
  | s :: ss => s.Writable ∧ Stmt.WritableList ss

end

/-- The first atom is a string. -/
def startsWithString : List Atom → Bool
  | p :: _ => p.isString
  | [] => false

mutual

/-- No comparison phrase stands right before a string: the right operand of a phrase does not begin
with one. -/
def Expr.PhrasesApart : Expr → Prop
  | .binary _ _ left right => left.PhrasesApart ∧ right.PhrasesApart
  | .compare _ op left right =>
    left.PhrasesApart ∧ right.PhrasesApart ∧
      (op.isPhrase → startsWithString (right.written 4) = false)
  | .unary _ _ operand => operand.PhrasesApart
  | .call _ _ args => Expr.PhrasesApartList args
  | .number .. | .string .. | .interpolated .. | .boolean .. | .identifier .. => True

def Expr.PhrasesApartList : List Expr → Prop
  | [] => True
  | e :: es => e.PhrasesApart ∧ Expr.PhrasesApartList es

end

mutual

def Stmt.PhrasesApart : Stmt → Prop
  | .print _ value | .serve _ value | .expression _ value => value.PhrasesApart
  | .assign _ target value => target.PhrasesApart ∧ value.PhrasesApart
  | .function _ _ _ _ body => Stmt.PhrasesApartList body
  | .branch _ arms => arms.PhrasesApart
  | .loop _ counter _ bound _ body =>
    counter.PhrasesApart ∧ bound.PhrasesApart ∧ Stmt.PhrasesApartList body
  | .leave _ | .comment .. => True

def Arms.PhrasesApart : Arms → Prop
  | .done => True
  | .otherwise _ body => Stmt.PhrasesApartList body
  | .arm _ condition _ body rest =>
    condition.PhrasesApart ∧ Stmt.PhrasesApartList body ∧ rest.PhrasesApart

def Stmt.PhrasesApartList : List Stmt → Prop
  | [] => True
  | s :: ss => s.PhrasesApart ∧ Stmt.PhrasesApartList ss

end

/-! ## Trees without places -/

mutual

/-- The same expression, at no place. -/
def Expr.unplaced : Expr → Expr
  | .number _ value text => .number {} value text
  | .string _ value => .string {} value
  | .interpolated _ segments => .interpolated {} (Segment.unplacedList segments)
  | .boolean _ value => .boolean {} value
  | .identifier _ name => .identifier {} name
  | .binary _ op left right => .binary {} op left.unplaced right.unplaced
  | .compare _ op left right => .compare {} op left.unplaced right.unplaced
  | .unary _ op operand => .unary {} op operand.unplaced
  | .call _ callee args => .call {} callee (Expr.unplacedList args)

def Expr.unplacedList : List Expr → List Expr
  | [] => []
  | e :: es => e.unplaced :: Expr.unplacedList es

def Segment.unplaced : Segment → Segment
  | .text value => .text value
  | .embedded value => .embedded value.unplaced

def Segment.unplacedList : List Segment → List Segment
  | [] => []
  | s :: ss => s.unplaced :: Segment.unplacedList ss

end

def Param.unplaced (p : Param) : Param := { p with loc := {} }

mutual

/-- The same statement, at no place. -/
def Stmt.unplaced : Stmt → Stmt
  | .print _ value => .print {} value.unplaced
  | .assign _ target value => .assign {} target.unplaced value.unplaced
  | .function _ name params _ body =>
    .function {} name (params.map Param.unplaced) {} (Stmt.unplacedList body)
  | .serve _ value => .serve {} value.unplaced
  | .branch _ arms => .branch {} arms.unplaced
  | .loop _ counter _ bound _ body =>
    .loop {} counter.unplaced {} bound.unplaced {} (Stmt.unplacedList body)
  | .leave _ => .leave {}
  | .comment _ text => .comment {} text
  | .expression _ value => .expression {} value.unplaced

def Arms.unplaced : Arms → Arms
  | .done => .done
  | .otherwise _ body => .otherwise {} (Stmt.unplacedList body)
  | .arm _ condition _ body rest =>
    .arm {} condition.unplaced {} (Stmt.unplacedList body) rest.unplaced

def Stmt.unplacedList : List Stmt → List Stmt
  | [] => []
  | s :: ss => s.unplaced :: Stmt.unplacedList ss

end

/-! ## Legible expressions -/

/-- Atoms that can be read back, and that are legible if they do not begin with a string behind an
operand and `apart` holds. They end an operand. -/
structure Spells (atoms : List Atom) (apart : Prop) : Prop where
  nonempty : atoms ≠ []
  valid : ∀ p ∈ atoms, (Line.atom p).Valid
  legible (afterOperand : Bool) (more : List Line) :
    Legible afterOperand (atoms.map .atom ++ more) ↔
      (startsWithString atoms → afterOperand = false) ∧ apart ∧ Legible true more

/-- The same for atoms that stand between parentheses. There may be none. -/
structure Fills (atoms : List Atom) (apart : Prop) : Prop where
  valid : ∀ p ∈ atoms, (Line.atom p).Valid
  legible (more : List Line) :
    Legible false (atoms.map .atom ++ sign .closeParen :: more) ↔ apart ∧ Legible true more

theorem startsWithString_append {ps : List Atom} (h : ps ≠ []) (qs : List Atom) :
    startsWithString (ps ++ qs) = startsWithString ps := by
  cases ps with
  | nil => exact absurd rfl h
  | cons p ps => rfl

section Spelling

variable {atoms left right : List Atom} {apart leftApart rightApart : Prop}

theorem Fills.enclosed (h : Fills atoms apart) : Spells (enclosed atoms) apart where
  nonempty := by simp [Grammar.enclosed]
  valid := by
    intro p hp
    simp only [Grammar.enclosed, List.cons_append, List.mem_cons, List.mem_append, List.not_mem_nil,
      or_false] at hp
    obtain rfl | hp | rfl := hp
    · trivial
    · exact h.valid p hp
    · trivial
  legible afterOperand more := by
    have hinner := h.legible more
    simp only [Grammar.enclosed, List.cons_append, List.map_cons, List.map_append, List.map_nil,
      List.append_assoc, List.nil_append]
    rw [legible_cons false rfl rfl]
    simpa [startsWithString, Atom.isString, sign] using hinner

theorem Fills.nil : Fills [] True where
  valid := by simp
  legible more := by
    rw [List.map_nil, List.nil_append, true_and]
    exact legible_cons true rfl rfl

/-- Items with a comma between them. -/
theorem Spells.comma (hleft : Spells left leftApart) (hright : Fills right rightApart) :
    Fills (left ++ .symbol .comma :: right) (leftApart ∧ rightApart) where
  valid := by
    intro p hp
    simp only [List.mem_append, List.mem_cons] at hp
    obtain hp | rfl | hp := hp
    · exact hleft.valid p hp
    · trivial
    · exact hright.valid p hp
  legible more := by
    have hcomma {lines : List Line} :
        Legible true (.atom (.symbol .comma) :: lines) ↔ Legible false lines :=
      legible_cons false rfl rfl
    simp only [List.map_append, List.map_cons, List.append_assoc, List.cons_append, hleft.legible,
      hcomma, hright.legible, and_assoc, implies_true, true_and]

namespace Spells

theorem of_iff (h : Spells atoms apart) {apart' : Prop} (hiff : apart ↔ apart') :
    Spells atoms apart' := by
  rwa [← propext hiff]

/-- An atom that is an operand. -/
theorem single {p : Atom} (hvalid : (Line.atom p).Valid) (hends : p.lexeme.endsOperand) :
    Spells [p] True where
  nonempty := by simp
  valid := by simpa using hvalid
  legible afterOperand more := by simp [Legible, startsWithString, hends]

theorem fills (h : Spells atoms apart) : Fills atoms apart where
  valid := h.valid
  legible more := by
    have hclose : Legible true (sign .closeParen :: more) ↔ Legible true more :=
      legible_cons true rfl rfl
    rw [h.legible, hclose]
    simp

theorem grouped (h : Spells atoms apart) (weak : Bool) : Spells (grouped weak atoms) apart := by
  cases weak with
  | false => exact h
  | true => exact h.fills.enclosed

/-- An atom in front that is no string, and no operand before a string. -/
theorem cons {p : Atom} (h : Spells atoms apart) (hvalid : (Line.atom p).Valid)
    (hstring : p.isString = false) (hnext : startsWithString atoms → p.lexeme.endsOperand = false) :
    Spells (p :: atoms) apart where
  nonempty := by simp
  valid := List.forall_mem_cons.mpr ⟨hvalid, h.valid⟩
  legible afterOperand more := by
    have hstart : startsWithString (p :: atoms) = false := hstring
    rw [List.map_cons, List.cons_append, legible_cons _ hstring rfl, h.legible, hstart,
      and_iff_right hnext]
    simp

/-- Two operands with an operator between them; `ends` says whether the operator ends like an
operand. -/
theorem append {operator : List Atom} {ends : Bool} (hleft : Spells left leftApart)
    (hright : Spells right rightApart) (hvalid : ∀ p ∈ operator, (Line.atom p).Valid)
    (hoperator : ∀ lines, Legible true (operator.map .atom ++ lines) ↔ Legible ends lines) :
    Spells (left ++ operator ++ right)
      (leftApart ∧ rightApart ∧ (ends → startsWithString right = false)) where
  nonempty := by simp [hleft.nonempty]
  valid := by
    intro q hq
    simp only [List.mem_append] at hq
    obtain (hq | hq) | hq := hq
    · exact hleft.valid q hq
    · exact hvalid q hq
    · exact hright.valid q hq
  legible afterOperand more := by
    -- the left operand ends, so the operator decides what the right one may begin with
    have hlegible := hleft.legible afterOperand (operator.map .atom ++ (right.map .atom ++ more))
    rw [hoperator, hright.legible] at hlegible
    rw [List.append_assoc, startsWithString_append hleft.nonempty]
    simp only [List.map_append, List.append_assoc, hlegible]
    cases ends <;> simp [and_comm, and_left_comm, and_assoc]

end Spells

end Spelling

end Grammar

theorem BinaryOp.valid_atoms (op : BinaryOp) : ∀ p ∈ op.atoms, (Line.atom p).Valid := by
  cases op <;> simp [atoms, Line.Valid]

theorem BinaryOp.legible_atoms {op : BinaryOp} (hleft : op ≠ .shl) (hright : op ≠ .shr)
    (lines : List Line) : Legible true (op.atoms.map .atom ++ lines) ↔ Legible false lines := by
  cases op
  case shl | shr => contradiction
  all_goals exact legible_cons false rfl rfl

theorem CompareOp.valid_atoms (op : CompareOp) : ∀ p ∈ op.atoms, (Line.atom p).Valid := by
  have hphrase {first second : String} (hfirst : IsIdentifier (ascii first))
      (hsecond : IsIdentifier (ascii second)) :
      ∀ p ∈ phrase first second, (Line.atom p).Valid := by
    simp [phrase, Line.Valid, hfirst, hsecond]
  cases op
  case isEqualTo | isLessThan | isGreaterThan => exact hphrase (by decide) (by decide)
  all_goals simp [atoms, Line.Valid]

/-- The last word of a phrase ends like an operand. -/
theorem CompareOp.legible_atoms (op : CompareOp) (lines : List Line) :
    Legible true (op.atoms.map .atom ++ lines) ↔ Legible op.isPhrase lines := by
  cases op
  case isEqualTo | isLessThan | isGreaterThan =>
    exact (legible_cons false rfl rfl).trans
      ((legible_cons true rfl rfl).trans (legible_cons true rfl rfl))
  all_goals exact legible_cons false rfl rfl

namespace Grammar

mutual

theorem Expr.spells (e : Expr) (h : e.Writable) : Spells e.atoms e.PhrasesApart := by
  cases e with
  | number _ value text => exact .single h.1 rfl
  | string _ value => exact .single h rfl
  | interpolated _ segments => exact h.elim
  | boolean _ value => exact .single trivial (by cases value <;> rfl)
  | identifier _ name => exact .single h rfl
  | binary _ op left right =>
    obtain ⟨hshl, hshr, hleft, hright⟩ := h
    have happend := ((left.spells hleft).grouped (left.strength < op.strength)).append
      ((right.spells hright).grouped (right.strength < op.strength + 1)) op.valid_atoms
      (op.legible_atoms hshl hshr)
    exact happend.of_iff (by simp [Expr.PhrasesApart])
  | compare _ op left right =>
    exact ((left.spells h.1).grouped _).append ((right.spells h.2).grouped _) op.valid_atoms
      op.legible_atoms
  | unary _ op operand =>
    have hoperand := (operand.spells h).grouped (operand.strength < 6)
    cases op with
    | neg => exact hoperand.cons trivial rfl fun _ => rfl
    | not => exact hoperand.cons trivial rfl fun _ => rfl
  | call _ callee args =>
    exact (Expr.fillsList args h.2).enclosed.cons h.1 rfl fun hstring => by cases hstring

theorem Expr.fillsList (es : List Expr) (h : Expr.WritableList es) :
    Fills (Expr.atomsList es) (Expr.PhrasesApartList es) := by
  match es with
  | [] => exact .nil
  | [e] => exact ((e.spells h.1).of_iff (by simp [Expr.PhrasesApartList])).fills
  | e :: e' :: es => exact (e.spells h.1).comma (Expr.fillsList (e' :: es) h.2)

end

theorem fills_paramAtoms (ps : List Param) (h : ∀ p ∈ ps, IsIdentifier p.name) :
    Fills (paramAtoms ps) True := by
  match ps with
  | [] => exact .nil
  | [p] => exact (Spells.single (p := .name p.name) (h p (by simp)) rfl).fills
  | p :: p' :: ps =>
    have hrest := fills_paramAtoms (p' :: ps) fun q hq => h q (List.mem_cons_of_mem p hq)
    have hcomma := (Spells.single (p := .name p.name) (h p (by simp)) rfl).comma hrest
    rwa [and_true] at hcomma

/-! ## Legible statements -/

/-- Lines that are valid, and legible behind anything if `apart` holds and the lines behind them are
legible. -/
structure Reaches (lines : List Line) (apart : Prop) : Prop where
  valid : ∀ line ∈ lines, line.Valid
  legible (afterOperand : Bool) {more : List Line}
    (hmore : ∀ afterOperand, Legible afterOperand more ↔ Legible false more) :
    Legible afterOperand (lines ++ more) ↔ apart ∧ Legible false more

namespace Reaches

variable {lines lines' : List Line} {apart apart' : Prop}

theorem nil : Reaches [] True where
  valid := by simp
  legible afterOperand {more} hmore := by simpa using hmore afterOperand

theorem append (h : Reaches lines apart) (h' : Reaches lines' apart') :
    Reaches (lines ++ lines') (apart ∧ apart') where
  valid := List.forall_mem_append.mpr ⟨h.valid, h'.valid⟩
  legible afterOperand {more} hmore := by
    have hnext (b : Bool) : Legible b (lines' ++ more) ↔ Legible false (lines' ++ more) := by
      rw [h'.legible b hmore, h'.legible false hmore]
    rw [List.append_assoc, h.legible afterOperand hnext, h'.legible false hmore, and_assoc]

theorem of_iff (h : Reaches lines apart) (hiff : apart ↔ apart') : Reaches lines apart' := by
  rwa [← propext hiff]

/-- An atom in front that is no string. -/
theorem cons {p : Atom} (h : Reaches lines apart) (hvalid : (Line.atom p).Valid)
    (hstring : p.isString = false) : Reaches (.atom p :: lines) apart where
  valid := List.forall_mem_cons.mpr ⟨hvalid, h.valid⟩
  legible afterOperand {more} hmore := by
    rw [List.cons_append, legible_cons _ hstring rfl, h.legible _ hmore]

theorem word (k : Keyword) (h : Reaches lines apart) : Reaches (word k :: lines) apart :=
  h.cons trivial rfl

theorem sign (s : Symbol) (h : Reaches lines apart) : Reaches (sign s :: lines) apart :=
  h.cons trivial rfl

theorem comment {text : Bytes} (h : (Line.comment text).Valid) : Reaches [.comment text] True where
  valid := by simpa using h
  legible afterOperand {more} hmore := by simpa [Legible] using hmore afterOperand

theorem block (h : Reaches lines apart) : Reaches (blockLines lines) apart := by
  have hblock := h.append (nil.sign .bar)
  rw [and_true] at hblock
  exact hblock.sign .bar

end Reaches

theorem Fills.reaches {atoms : List Atom} {apart : Prop} (h : Fills atoms apart) :
    Reaches ((Grammar.enclosed atoms).map .atom) apart where
  valid := by simpa using h.enclosed.valid
  legible afterOperand {more} hmore := by
    have hstart : startsWithString (Grammar.enclosed atoms) = false := rfl
    rw [h.enclosed.legible, hmore true, hstart]
    simp

theorem Expr.reaches (e : Expr) (h : e.Writable) : Reaches e.lines e.PhrasesApart :=
  (e.spells h).fills.reaches

mutual

theorem Stmt.reaches (s : Stmt) (h : s.Writable) : Reaches s.lines s.PhrasesApart := by
  cases s with
  | print _ value => exact (value.reaches h).word .roar
  | assign _ target value => exact (target.reaches h.1).append ((value.reaches h.2).sign .assign)
  | function _ name params _ body =>
    obtain ⟨hname, hparams, hbody⟩ := h
    have hlist := (fills_paramAtoms params hparams).reaches.append (Stmt.reachesList body hbody).block
    rw [true_and] at hlist
    exact (hlist.cons (p := .name name) hname rfl).word .ignite
  | serve _ value => exact (value.reaches h).word .serve
  | branch _ arms => exact arms.reaches .ifWord h.2
  | loop _ counter _ bound _ body =>
    obtain ⟨hcounter, hbound, hbody⟩ := h
    have hrange := ((bound.reaches hbound).word .range).word .inWord
    have hloop := (((counter.reaches hcounter).append hrange).append
      (Stmt.reachesList body hbody).block).word .prowl
    exact hloop.of_iff and_assoc
  | leave _ => exact Reaches.nil.word .breakWord
  | comment _ text => exact .comment h
  | expression _ value => exact value.reaches h

theorem Arms.reaches (first : Keyword) (arms : Arms) (h : arms.Writable) :
    Reaches (arms.lines first) arms.PhrasesApart := by
  cases arms with
  | done => exact .nil
  | otherwise _ body => exact (Stmt.reachesList body h).block.word .otherwise
  | arm _ condition _ body rest =>
    obtain ⟨hcondition, hbody, hrest⟩ := h
    have harm := (((condition.reaches hcondition).word first).append
      (Stmt.reachesList body hbody).block).append (rest.reaches .elseWord hrest)
    exact harm.of_iff and_assoc

theorem Stmt.reachesList (ss : List Stmt) (h : Stmt.WritableList ss) :
    Reaches (Stmt.linesList ss) (Stmt.PhrasesApartList ss) := by
  match ss with
  | [] => exact .nil
  | s :: ss => exact (s.reaches h.1).append (Stmt.reachesList ss h.2)

end

/-- Statements are legible if their phrases are apart from strings, and only then. -/
theorem legible_linesList {ss : List Stmt} (h : Stmt.WritableList ss) :
    Legible false (Stmt.linesList ss) ↔ Stmt.PhrasesApartList ss := by
  have hend (afterOperand : Bool) : Legible afterOperand [] ↔ Legible false [] := Iff.rfl
  have hlegible := (Stmt.reachesList ss h).legible false hend
  simpa [Legible] using hlegible

end Grammar

end Roar
