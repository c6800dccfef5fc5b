import Roar.Analysis.Scope
import Roar.Proofs.Scoping.Scopes

/-!
# A checker of programs

`Program.checks` goes through a program with scopes of its own and accepts it if the rules of the
language hold everywhere in it. It does not analyse anything: types, declarations and flags are
those that the program carries.

* A name is bound by an earlier declaration in a scope around it, or is a built-in function.
* An assignment declares its target if and only if the name is not bound, or only to a built-in
  function; any other assignment is to a variable or a parameter.
* No two declarations of one scope have the same name.
* A call has as many arguments as its function has parameters, none of a known type other than
  number.
* A `break` lies in the body of a loop, with no function in between, and a `serve` in that of a
  function.
* An operator has the type that the table gives for its operands (`OperandRule.result?`,
  `CompareOp.takes`, `UnaryOp.result?`).
-/

namespace Roar

/-! ## The operator table -/

/-- What an operator asks of its operands. -/
inductive OperandRule where
  | joinsOrAdds
  | computes
  | decides
  | shifts
deriving DecidableEq, Repr

def BinaryOp.rule : BinaryOp → OperandRule
  | .add => .joinsOrAdds
  | .sub | .mul | .div | .mod => .computes
  | .and | .or => .decides
  | .shl | .shr => .shifts

/-- What comes of operands of two types, if they are taken. One that is not known is always taken,
and leaves the result open unless the other operand or the operator decides it. -/
def OperandRule.result? : OperandRule → ValueType → ValueType → Option ValueType
  | .shifts, _, _ => some .number
  | .joinsOrAdds, .string, _ | .joinsOrAdds, _, .string => some .string
  | .decides, .boolean, .boolean | .decides, .boolean, .unknown | .decides, .unknown, .boolean
  | .decides, .unknown, .unknown => some .boolean
  | .decides, _, _ => none
  | _, .number, .number => some .number
  | _, .number, .unknown | _, .unknown, .number | _, .unknown, .unknown => some .unknown
  | _, _, _ => none

/-- Any two values can be asked for equality; for order they are numbers or strings, as far as they
are known. -/
def CompareOp.takes (op : CompareOp) (left right : ValueType) : Bool :=
  match op with
  | .eq | .ne | .isEqualTo => true
  | _ =>
    match left, right with
    | .number, .number | .string, .string | .unknown, .unknown => true
    | .number, .unknown | .unknown, .number | .string, .unknown | .unknown, .string => true
    | _, _ => false

def UnaryOp.result? : UnaryOp → ValueType → Option ValueType
  | .neg, .number => some .number
  | .neg, .unknown => some .unknown
  | .not, .boolean | .not, .unknown => some .boolean
  | _, _ => none

theorem BinaryOp.toOption_resultType (op : BinaryOp) (left right : ValueType) :
    (op.resultType left right).toOption = op.rule.result? left right := by
  cases op <;> cases left <;> cases right <;> rfl

theorem CompareOp.accepts_eq_takes (op : CompareOp) (left right : ValueType) :
    op.accepts left right = op.takes left right := by
  cases op <;> cases left <;> cases right <;> rfl

theorem UnaryOp.toOption_resultType (op : UnaryOp) (type : ValueType) :
    (op.resultType type).toOption = op.result? type := by
  cases op <;> cases type <;> rfl

/-! ## Places -/

/-- What a name is bound to: its kind, and the number of parameters if it is a function. -/
structure Signature where
  kind : SymbolKind
  paramCount : Nat := 0
deriving DecidableEq, Repr

namespace Signature

def isCallable (s : Signature) : Bool := s.kind == .function || s.kind == .builtin

def isAssignable (s : Signature) : Bool := s.kind == .assigned || s.kind == .parameter

end Signature

/-- A place in a program: the declarations in the scope that it lies in and in the scopes around
that, the latest and the innermost first, and whether it lies in the body of a loop or of a
function. -/
structure Place where
  innermost : List (Bytes × Signature) := []
  outer : Scopes Signature := []
  inLoop : Bool := false
  inFunction : Bool := false

namespace Place

/-- The built-in functions, around every program. -/
def builtins : List (Bytes × Signature) := builtinNames.map fun x => (x, ⟨.builtin, 1⟩)

/-- The scopes of the program around a place. -/
def scopes (pl : Place) : Scopes Signature := pl.innermost :: pl.outer

/-- What a name is bound to here. -/
def lookup? (pl : Place) (x : Bytes) : Option Signature :=
  Scopes.lookup? (pl.scopes ++ [builtins]) x

/-- The name is not bound, or to a built-in function. -/
def isOpen (pl : Place) (x : Bytes) : Bool := (pl.lookup? x).all (·.kind == .builtin)

/-- The scope of the place has no declaration of the name. -/
def isNew (pl : Place) (x : Bytes) : Bool := (pl.innermost.lookup x).isNone

def declare (pl : Place) (x : Bytes) (s : Signature) : Place :=
  { pl with innermost := (x, s) :: pl.innermost }

/-- In a block. -/
def enter (pl : Place) : Place := { pl with innermost := [], outer := pl.scopes }

/-- In the body of a function. -/
def enterFunction (pl : Place) (params : List Bytes) : Place where
  innermost := (params.map fun x => (x, ⟨.parameter, 0⟩)).reverse
  outer := pl.scopes
  inLoop := false
  inFunction := true

/-- In the body of a loop. -/
def enterLoop (pl : Place) (counter : Bytes) : Place :=
  { pl with innermost := [(counter, ⟨.loopVariable, 0⟩)], outer := pl.scopes, inLoop := true }

end Place

/-- The place after a statement. -/
def Stmt.after (pl : Place) : Stmt → Place
  | .assign _ target _ true => pl.declare target.name ⟨.assigned, 0⟩
  | .function _ name params _ _ _ => pl.declare name ⟨.function, params.length⟩
  | _ => pl

/-- The place after some statements. -/
def Stmt.afterList (pl : Place) (ss : List Stmt) : Place := ss.foldl Stmt.after pl

@[simp] theorem Stmt.outer_after (pl : Place) (s : Stmt) : (s.after pl).outer = pl.outer := by
  unfold Stmt.after
  split <;> rfl

@[simp] theorem Stmt.outer_afterList (pl : Place) (ss : List Stmt) :
    (Stmt.afterList pl ss).outer = pl.outer := by
  induction ss generalizing pl with
  | nil => rfl
  | cons s ss ih => exact (ih (s.after pl)).trans (s.outer_after pl)

/-! ## The checker -/

/-- A call of this function with so many arguments suits what its name is bound to. -/
def Signature.suits (s : Signature) (passed : Nat) (builtin : Bool) : Bool :=
  s.isCallable && builtin == (s.kind == .builtin) && passed == s.paramCount

/-- A value of this type can be passed to a function. -/
def ValueType.isPassable (type : ValueType) : Bool := type == .number || type == .unknown

mutual

/-- The checker accepts an expression. -/
def Expr.checks (pl : Place) : Expr → Bool
  | .number .. | .string .. | .boolean .. => true
  | .interpolated _ segments => Segment.checksList pl segments
  | .identifier id => (pl.lookup? id.name).any (id.isFunction == ·.isCallable)
  | .binary _ op left right type =>
    left.checks pl && right.checks pl && op.rule.result? left.type right.type == some type
  | .compare _ op left right =>
    left.checks pl && right.checks pl && op.takes left.type right.type
  | .unary _ op operand type => operand.checks pl && op.result? operand.type == some type
  | .call _ callee args _ builtin =>
    (pl.lookup? callee).any (·.suits args.length builtin) && Expr.checksList pl args &&
      args.all (·.type.isPassable)
  | .range _ bound => bound.checks pl

def Expr.checksList (pl : Place) : List Expr → Bool
  | [] => true
  | e :: es => e.checks pl && Expr.checksList pl es

def Segment.checks (pl : Place) : Segment → Bool
  | .text _ => true
  | .embedded value => value.checks pl

def Segment.checksList (pl : Place) : List Segment → Bool
  | [] => true
  | s :: ss => s.checks pl && Segment.checksList pl ss

end

mutual

/-- The checker accepts a statement. -/
def Stmt.checks (pl : Place) : Stmt → Bool
  | .block _ body => Stmt.checksList pl.enter body
  | .assign _ target value declares =>
    value.checks pl && declares == pl.isOpen target.name &&
      if declares then pl.isNew target.name else (pl.lookup? target.name).any (·.isAssignable)
  | .print _ value | .expression _ value => value.checks pl
  | .function _ name params _ body _ =>
    pl.isNew name && decide params.Nodup &&
      Stmt.checksList ((pl.declare name ⟨.function, params.length⟩).enterFunction params) body
  | .serve _ value => pl.inFunction && value.checks pl
  | .branch _ condition _ thenBody alternate =>
    condition.checks pl && Stmt.checksList pl.enter thenBody && alternate.checks pl
  | .loop _ counter _ bound _ body =>
    bound.checks pl && Stmt.checksList (pl.enterLoop counter.name) body
  | .leave _ => pl.inLoop
  | .comment .. => true

def Alternate.checks (pl : Place) : Alternate → Bool
  | .none => true
  | .block _ body => Stmt.checksList pl.enter body
  | .branch _ condition _ thenBody alternate =>
    condition.checks pl && Stmt.checksList pl.enter thenBody && alternate.checks pl

/-- The checker accepts statements, each at the place that the ones before leave. -/
def Stmt.checksList (pl : Place) : List Stmt → Bool
  | [] => true
  | s :: ss => s.checks pl && Stmt.checksList (s.after pl) ss

end

/-- The checker accepts a program. -/
def Program.checks (p : Program) : Bool := Stmt.checksList {} p.statements

end Roar
