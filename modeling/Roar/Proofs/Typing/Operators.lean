import Roar.Proofs.Program.Nodes
import Roar.Proofs.Typing.Erasure

/-!
# The operators of a program

The binary operators of an analysed program are those of its text: analysis adds none and leaves none
out, since the operators of a program can be read off from what it says without types
(`Stmt.operators_untyped`). The grammar has no sign for a shift, so no derivation makes one
(`Grammar.unshifted_of_parse`), and there is none in a program that analysis accepts
(`unshifted_of_analyze`).
-/

namespace Roar

/-- The operators that are not written in a source. -/
def BinaryOp.isShift : BinaryOp → Bool
  | .shl | .shr => true
  | _ => false

/-- No shift among the operators. -/
def Unshifted (ops : List BinaryOp) : Prop := ∀ op ∈ ops, op.isShift = false

theorem unshifted_nil : Unshifted [] := List.forall_mem_nil _

theorem Unshifted.cons {op : BinaryOp} {ops : List BinaryOp} (hop : op.isShift = false)
    (h : Unshifted ops) : Unshifted (op :: ops) := List.forall_mem_cons.mpr ⟨hop, h⟩

theorem Unshifted.append {ops ops' : List BinaryOp} (h : Unshifted ops) (h' : Unshifted ops') :
    Unshifted (ops ++ ops') := List.forall_mem_append.mpr ⟨h, h'⟩

/-- The operator of a binary operation. -/
def Expr.operator? : Expr → Option BinaryOp
  | .binary _ op .. => some op
  | _ => none

/-- The binary operators of some nodes. -/
def operatorsOf (nodes : List Expr) : List BinaryOp := nodes.filterMap Expr.operator?

@[simp] theorem operatorsOf_nil : operatorsOf [] = [] := rfl

@[simp] theorem operatorsOf_cons (e : Expr) (es : List Expr) :
    operatorsOf (e :: es) = e.operator?.toList ++ operatorsOf es := by
  unfold operatorsOf
  rw [List.filterMap_cons]
  cases e.operator? <;> rfl

@[simp] theorem operatorsOf_append (es fs : List Expr) :
    operatorsOf (es ++ fs) = operatorsOf es ++ operatorsOf fs := List.filterMap_append

/-! ## Operators of untyped programs -/

namespace Untyped

mutual

/-- The binary operators in an expression. -/
def Expr.operators : Expr → List BinaryOp
  | .number .. | .string .. | .boolean .. | .identifier .. => []
  | .interpolated _ segments => Segment.operatorsList segments
  | .binary _ op left right => op :: (left.operators ++ right.operators)
  | .compare _ _ left right => left.operators ++ right.operators
  | .unary _ _ operand => operand.operators
  | .call _ _ args => Expr.operatorsList args
  | .range _ bound => bound.operators

def Expr.operatorsList : List Expr → List BinaryOp
  | [] => []
  | e :: es => e.operators ++ Expr.operatorsList es

def Segment.operatorsList : List Segment → List BinaryOp
  | [] => []
  | .text _ :: ss => Segment.operatorsList ss
  | .embedded e :: ss => e.operators ++ Segment.operatorsList ss

end

mutual

/-- The binary operators in a statement. -/
def Stmt.operators : Stmt → List BinaryOp
  | .block _ body | .function _ _ _ _ body => Stmt.operatorsList body
  | .assign _ target value => target.operators ++ value.operators
  | .print _ value | .serve _ value | .expression _ value => value.operators
  | .branch _ condition _ thenBody alternate =>
    condition.operators ++ Stmt.operatorsList thenBody ++ alternate.operators
  | .loop _ counter _ bound _ body =>
    counter.operators ++ (bound.operators ++ Stmt.operatorsList body)
  | .leave _ | .comment .. => []

def Alternate.operators : Alternate → List BinaryOp
  | .none => []
  | .block _ body => Stmt.operatorsList body
  | .branch _ condition _ thenBody alternate =>
    condition.operators ++ Stmt.operatorsList thenBody ++ alternate.operators

def Stmt.operatorsList : List Stmt → List BinaryOp
  | [] => []
  | s :: ss => s.operators ++ Stmt.operatorsList ss

end

theorem Segment.operatorsList_append (ss ts : List Segment) :
    operatorsList (ss ++ ts) = operatorsList ss ++ operatorsList ts := by
  induction ss with
  | nil => rfl
  | cons s ss ih =>
    cases s with
    | text => exact ih
    | embedded e => rw [List.cons_append, operatorsList, operatorsList, ih, List.append_assoc]

theorem Segment.operatorsList_ofText (value : Bytes) : operatorsList (ofText value) = [] := by
  unfold ofText
  split <;> rfl

/-- Texts have no operators, so joining them changes nothing. -/
theorem Segment.operatorsList_joined (pending : Bytes) (pieces : List Segment) :
    operatorsList (joined pending pieces) = operatorsList pieces := by
  induction pieces generalizing pending with
  | nil => exact operatorsList_ofText pending
  | cons s rest ih =>
    cases s with
    | text t => exact ih (pending ++ t)
    | embedded e =>
      rw [joined, operatorsList_append, operatorsList_ofText, List.nil_append, operatorsList, ih,
        operatorsList]

theorem Expr.operators_ofPieces (loc : Location) (pieces : List Segment) :
    (ofPieces loc pieces).operators = Segment.operatorsList pieces := by
  unfold ofPieces
  rw [← Segment.operatorsList_joined [] pieces]
  split
  · rename_i htexts
    rw [Segment.joined_of_texts htexts, Segment.operatorsList_ofText]
    rfl
  · rfl

theorem Alternate.operators_toStmt (loc : Location) (a : Alternate) :
    (a.toStmt loc).operators = a.operators := by
  cases a <;> rfl

end Untyped

mutual

theorem Expr.operators_untyped : (e : Expr) → e.untyped.operators = operatorsOf e.nodes
  | .number .. | .string .. | .boolean .. | .identifier _ => rfl
  | .interpolated _ segments => Segment.operators_untypedList segments
  | .binary _ op left right _ => by
    simp [Expr.untyped, Untyped.Expr.operators, Expr.nodes, Expr.operator?, left.operators_untyped,
      right.operators_untyped]
  | .compare _ op left right => by
    simp [Expr.untyped, Untyped.Expr.operators, Expr.nodes, Expr.operator?, left.operators_untyped,
      right.operators_untyped]
  | .unary _ op operand _ => operand.operators_untyped
  | .call _ _ args _ _ => Expr.operators_untypedList args
  | .range _ bound => bound.operators_untyped

theorem Expr.operators_untypedList : (es : List Expr) →
    Untyped.Expr.operatorsList (Expr.untypedList es) = operatorsOf (Expr.nodesList es)
  | [] => rfl
  | e :: es => by
    rw [Expr.untypedList, Untyped.Expr.operatorsList, Expr.nodesList, operatorsOf_append,
      e.operators_untyped, Expr.operators_untypedList es]

theorem Segment.operators_untypedList : (ss : List Segment) →
    Untyped.Segment.operatorsList (Segment.untypedList ss) = operatorsOf (Segment.nodesList ss)
  | [] => rfl
  | .text _ :: ss => Segment.operators_untypedList ss
  | .embedded e :: ss => by
    rw [Segment.untypedList, Segment.untyped, Untyped.Segment.operatorsList, Segment.nodesList,
      operatorsOf_append, e.operators_untyped, Segment.operators_untypedList ss]

end

mutual

theorem Stmt.operators_untyped : (s : Stmt) → s.untyped.operators = operatorsOf s.nodes
  | .block _ body | .function _ _ _ _ body _ => Stmt.operators_untypedList body
  | .assign _ _ value _ | .print _ value | .serve _ value | .expression _ value =>
    value.operators_untyped
  | .branch _ condition _ thenBody alternate => by
    rw [Stmt.untyped, Untyped.Stmt.operators, Stmt.nodes, operatorsOf_append, operatorsOf_append,
      condition.operators_untyped, Stmt.operators_untypedList thenBody,
      alternate.operators_untyped]
  | .loop _ _ _ bound _ body => by
    simp [Stmt.untyped, Untyped.Stmt.operators, Untyped.Expr.operators, Stmt.nodes, Expr.nodes,
      Expr.operator?, bound.operators_untyped, Stmt.operators_untypedList body]
  | .leave _ | .comment .. => rfl

theorem Alternate.operators_untyped : (a : Alternate) → a.untyped.operators = operatorsOf a.nodes
  | .none => rfl
  | .block _ body => Stmt.operators_untypedList body
  | .branch _ condition _ thenBody alternate => by
    rw [Alternate.untyped, Untyped.Alternate.operators, Alternate.nodes, operatorsOf_append,
      operatorsOf_append, condition.operators_untyped, Stmt.operators_untypedList thenBody,
      alternate.operators_untyped]

theorem Stmt.operators_untypedList : (ss : List Stmt) →
    Untyped.Stmt.operatorsList (Stmt.untypedList ss) = operatorsOf (Stmt.nodesList ss)
  | [] => rfl
  | s :: ss => by
    rw [Stmt.untypedList, Untyped.Stmt.operatorsList, Stmt.nodesList, operatorsOf_append,
      s.operators_untyped, Stmt.operators_untypedList ss]

end

/-! ## Operators of derivations -/

namespace Grammar

theorem Segment.untypedList_append (ss ts : List Segment) :
    untypedList (ss ++ ts) = untypedList ss ++ untypedList ts := by
  induction ss with
  | nil => rfl
  | cons s ss ih => rw [List.cons_append, untypedList, untypedList, ih, List.cons_append]

/-- The binary operators in the pieces of a string. -/
def Segment.operatorsList (ss : List Segment) : List BinaryOp :=
  Untyped.Segment.operatorsList (untypedList ss)

theorem Segment.operatorsList_append (ss ts : List Segment) :
    operatorsList (ss ++ ts) = operatorsList ss ++ operatorsList ts := by
  rw [operatorsList, untypedList_append, Untyped.Segment.operatorsList_append]
  rfl

namespace Derives

/-- No sign of the language means a shift. -/
theorem isShift_of_sign {signs : List (Lexeme × BinaryOp)} {x : Lexeme} {op : BinaryOp}
    (hsigns : signs ∈ [disjunctionSigns, conjunctionSigns, additionSigns, productSigns])
    (h : (x, op) ∈ signs) : op.isShift = false := by
  have hall : ∀ signs ∈ [disjunctionSigns, conjunctionSigns, additionSigns, productSigns],
      ∀ sign ∈ signs, sign.2.isShift = false := by decide
  exact hall signs hsigns _ h

theorem Text.operatorsList_eq {value : Bytes} {text : List Segment} (h : Text value text) :
    Segment.operatorsList text = [] := by
  cases h <;> rfl

mutual

theorem Expression.unshifted {ts : List Token} {e : Expr} (h : Expression ts e) :
    Unshifted e.untyped.operators :=
  match h with
  | .operand inner => inner.unshifted
  | .more first sign last =>
    .cons (isShift_of_sign (by simp) sign) (first.unshifted.append last.unshifted)

theorem Conjunction.unshifted {ts : List Token} {e : Expr} (h : Conjunction ts e) :
    Unshifted e.untyped.operators :=
  match h with
  | .operand inner => inner.unshifted
  | .more first sign last =>
    .cons (isShift_of_sign (by simp) sign) (first.unshifted.append last.unshifted)

theorem Comparison.unshifted {ts : List Token} {e : Expr} (h : Comparison ts e) :
    Unshifted e.untyped.operators :=
  match h with
  | .operand inner => inner.unshifted
  | .compare first _ last => first.unshifted.append last.unshifted

theorem Addition.unshifted {ts : List Token} {e : Expr} (h : Addition ts e) :
    Unshifted e.untyped.operators :=
  match h with
  | .operand inner => inner.unshifted
  | .more first sign last =>
    .cons (isShift_of_sign (by simp) sign) (first.unshifted.append last.unshifted)

theorem Product.unshifted {ts : List Token} {e : Expr} (h : Product ts e) :
    Unshifted e.untyped.operators :=
  match h with
  | .operand inner => inner.unshifted
  | .more first sign last =>
    .cons (isShift_of_sign (by simp) sign) (first.unshifted.append last.unshifted)

theorem Unary.unshifted {ts : List Token} {e : Expr} (h : Unary ts e) :
    Unshifted e.untyped.operators :=
  match h with
  | .operand inner => inner.unshifted
  | .sign _ inner => inner.unshifted

theorem Primary.unshifted {ts : List Token} {e : Expr} (h : Primary ts e) :
    Unshifted e.untyped.operators :=
  match h with
  | .number _ => unshifted_nil
  | .string _ => unshifted_nil
  | .yes _ => unshifted_nil
  | .no _ => unshifted_nil
  | .name _ => unshifted_nil
  | .interpolated _ text segments => by
    rw [Expr.untyped, Untyped.Expr.operators_ofPieces, ← Segment.operatorsList,
      Segment.operatorsList_append, text.operatorsList_eq]
    exact segments.unshifted
  | .call _ _ arguments _ => arguments.unshifted
  | .group _ inner _ => inner.unshifted

theorem Arguments.unshifted {ts : List Token} {args : List Expr} (h : Arguments ts args) :
    Unshifted (Untyped.Expr.operatorsList (Expr.untypedList args)) :=
  match h with
  | .none => unshifted_nil
  | .some list => list.unshifted

theorem ArgumentList.unshifted {ts : List Token} {args : List Expr} (h : ArgumentList ts args) :
    Unshifted (Untyped.Expr.operatorsList (Expr.untypedList args)) :=
  match h with
  | .one argument => argument.unshifted.append unshifted_nil
  | .more first _ rest => first.unshifted.append rest.unshifted

theorem Segments.unshifted {ts : List Token} {segments : List Segment} (h : Segments ts segments) :
    Unshifted (Segment.operatorsList segments) :=
  match h with
  | .last first _ last => by
    rw [Segment.operatorsList_append, last.operatorsList_eq]
    exact first.unshifted.append unshifted_nil
  | .more first _ middle last => by
    rw [Segment.operatorsList_append, Segment.operatorsList_append, middle.operatorsList_eq]
    exact (first.unshifted.append unshifted_nil).append last.unshifted

theorem Embedded.unshifted {ts : List Token} {segments : List Segment} (h : Embedded ts segments) :
    Unshifted (Segment.operatorsList segments) :=
  match h with
  | .none => unshifted_nil
  | .value value => value.unshifted.append unshifted_nil

end

theorem Enclosed.unshifted {ts : List Token} {e : Expr} (h : Enclosed ts e) :
    Unshifted e.untyped.operators := by
  cases h with
  | parens _ inner _ => exact inner.unshifted

/-- Comments have no operators. -/
theorem unshifted_notes (t : Token) {ss : List Stmt}
    (h : Unshifted (Untyped.Stmt.operatorsList (Stmt.untypedList ss))) :
    Unshifted (Untyped.Stmt.operatorsList (Stmt.untypedList (notes t ++ ss))) := by
  unfold notes
  induction t.comments with
  | nil => exact h
  | cons c cs ih => exact ih

mutual

theorem Statement.unshifted {ts : List Token} {s : Stmt} (h : Statement ts s) :
    Unshifted s.untyped.operators :=
  match h with
  | .print _ value => value.unshifted
  | .serve _ value => value.unshifted
  | .expression value => value.unshifted
  | .assign target _ value => target.unshifted.append value.unshifted
  | .function _ _ _ _ _ block => block.unshifted
  | .loop _ counter _ _ bound block =>
    counter.unshifted.append (bound.unshifted.append block.unshifted)
  | .branch _ arm => by
    rw [Stmt.untyped, Untyped.Alternate.operators_toStmt]
    exact arm.unshifted
  | .leave _ => unshifted_nil

theorem Statements.unshifted {stop : Token} {ts : List Token} {ss : List Stmt}
    (h : Statements stop ts ss) : Unshifted (Untyped.Stmt.operatorsList (Stmt.untypedList ss)) :=
  match h with
  | .nil => by
    rw [← List.append_nil (notes stop)]
    exact unshifted_notes stop unshifted_nil
  | .cons first rest => unshifted_notes _ (first.unshifted.append rest.unshifted)

theorem Block.unshifted {ts : List Token} {loc : Location} {body : List Stmt}
    (h : Block ts loc body) : Unshifted (Untyped.Stmt.operatorsList (Stmt.untypedList body)) :=
  match h with
  | .block _ inner _ => inner.unshifted

theorem Arm.unshifted {ts : List Token} {loc : Location} {arms : Arms} (h : Arm ts loc arms) :
    Unshifted arms.untyped.operators :=
  match h with
  | .arm condition block rest => (condition.unshifted.append block.unshifted).append rest.unshifted

theorem MoreArms.unshifted {ts : List Token} {arms : Arms} (h : MoreArms ts arms) :
    Unshifted arms.untyped.operators :=
  match h with
  | .done => unshifted_nil
  | .otherwise _ block => block.unshifted
  | .arm _ arm => arm.unshifted

end

end Derives

theorem unshifted_of_parse {source : Bytes} {file : Nat} {tree : Tree}
    (h : parse source file = .ok tree) : Unshifted (Untyped.Stmt.operatorsList tree.untyped) := by
  obtain ⟨q, hprogram⟩ := program_of_parse h
  obtain ⟨-, ts, stop, -, -, hderives⟩ := Parse.program_reads (start_at source file) hprogram
  exact hderives.unshifted

end Grammar

/-- There is no shift in a program that parsing and analysis accept. -/
theorem unshifted_of_analyze {source : Bytes} {file : Nat} {tree : Grammar.Tree} {p : Program}
    (hparse : Grammar.parse source file = .ok tree) (h : analyze tree = .ok p) :
    Unshifted (operatorsOf p.nodes) := by
  obtain ⟨env, hss⟩ := analyze_eq_ok h
  have hsaid : p.untyped = tree.untyped := untyped_of_analyzeStmts _ hss
  have hoperators : Untyped.Stmt.operatorsList p.untyped = operatorsOf p.nodes :=
    Stmt.operators_untypedList p.statements
  rw [← hoperators, hsaid]
  exact Grammar.unshifted_of_parse hparse

end Roar
