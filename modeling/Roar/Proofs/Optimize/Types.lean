import Roar.Proofs.Optimize.Nodes
import Roar.Proofs.Typing.Soundness

/-!
# Simplifying keeps types

The rules look at types: a `+` is one of numbers if its operands say so. They may, since an expression
in which every type is known and is the one that follows from the operator table
(`Expr.WellTyped`) is simplified to one of the same type with the same property
(`optimize_keepsType`). Each rule is asked for the type of what it makes and for the root of it
(`Simplifies.consistent`); the nodes below the root are those of the operands.
-/

namespace Roar

open Optimize

/-- The type of a node follows from its parts: operators have the type that the operator table gives
for the types of their operands, and what a built-in function gives is a number. -/
def Expr.FollowsTable : Expr → Prop
  | .binary _ op left right type => op.resultType left.type right.type = .ok type
  | .unary _ op operand type => op.resultType operand.type = .ok type
  | .call _ _ _ type builtin => builtin = true → type = .number
  | _ => True

/-- The type of a node is known, and follows from its parts. -/
structure Expr.Consistent (e : Expr) : Prop where
  known : e.type ≠ .unknown
  follows : e.FollowsTable

/-- All types in an expression are known and follow from the parts. -/
def Expr.WellTyped (e : Expr) : Prop := ∀ n ∈ e.nodes, n.Consistent

/-- What the operator table gives is a type or an error. -/
def decidableEqOk (result : Except SemanticError ValueType) (type : ValueType) :
    Decidable (result = .ok type) :=
  decidable_of_iff (result.toOption = some type) (by cases result <;> simp [Except.toOption])

instance : (e : Expr) → Decidable e.FollowsTable
  | .binary _ op left right type => decidableEqOk (op.resultType left.type right.type) type
  | .unary _ op operand type => decidableEqOk (op.resultType operand.type) type
  | .call _ _ _ type builtin => inferInstanceAs (Decidable (builtin = true → type = .number))
  | .number .. | .string .. | .interpolated .. | .boolean .. | .identifier _ | .compare ..
  | .range .. => isTrue trivial

instance (e : Expr) : Decidable e.Consistent :=
  decidable_of_iff (e.type ≠ .unknown ∧ e.FollowsTable) ⟨fun h => ⟨h.1, h.2⟩, fun h => ⟨h.1, h.2⟩⟩

instance (e : Expr) : Decidable e.WellTyped := List.decidableBAll _ e.nodes

/-- The expression is well typed, and of a type. -/
structure Expr.HasType (e : Expr) (type : ValueType) : Prop where
  type_eq : e.type = type
  wellTyped : e.WellTyped

section Nodes

variable {loc : Location} {left right s : Expr} {type : ValueType}

theorem Expr.consistent_number (loc : Location) (x : Number) : (Expr.number loc x).Consistent :=
  ⟨ValueType.noConfusion, trivial⟩

theorem Expr.consistent_string (loc : Location) (t : Bytes) : (Expr.string loc t).Consistent :=
  ⟨ValueType.noConfusion, trivial⟩

theorem Expr.consistent_interpolated (loc : Location) (ss : List Segment) :
    (Expr.interpolated loc ss).Consistent :=
  ⟨ValueType.noConfusion, trivial⟩

theorem Expr.consistent_boolean (loc : Location) (b : Bool) : (Expr.boolean loc b).Consistent :=
  ⟨ValueType.noConfusion, trivial⟩

theorem Expr.consistent_compare (loc : Location) (op : CompareOp) (left right : Expr) :
    (Expr.compare loc op left right).Consistent :=
  ⟨ValueType.noConfusion, trivial⟩

theorem Expr.WellTyped.root {e : Expr} (h : e.WellTyped) : e.Consistent := h e e.self_mem_nodes

theorem Expr.wellTyped_binary {op : BinaryOp} :
    (Expr.binary loc op left right type).WellTyped ↔
      (Expr.binary loc op left right type).Consistent ∧ left.WellTyped ∧ right.WellTyped := by
  unfold Expr.WellTyped
  rw [Expr.nodes, List.forall_mem_cons, List.forall_mem_append]

theorem Expr.wellTyped_compare {op : CompareOp} :
    (Expr.compare loc op left right).WellTyped ↔ left.WellTyped ∧ right.WellTyped := by
  unfold Expr.WellTyped
  rw [Expr.nodes, List.forall_mem_cons, List.forall_mem_append]
  exact and_iff_right (Expr.consistent_compare ..)

theorem Expr.wellTyped_unary {op : UnaryOp} {operand : Expr} :
    (Expr.unary loc op operand type).WellTyped ↔
      (Expr.unary loc op operand type).Consistent ∧ operand.WellTyped := by
  unfold Expr.WellTyped
  rw [Expr.nodes, List.forall_mem_cons]

end Nodes

/-! ## The operator table -/

section Table

variable {l r t : ValueType}

/-- A product or a quotient is one of numbers. -/
theorem BinaryOp.operands_number {op : BinaryOp} (hop : op = .mul ∨ op = .div)
    (h : op.resultType l r = .ok t) (hl : l ≠ .unknown) (hr : r ≠ .unknown) :
    t = .number ∧ l = .number ∧ r = .number := by
  have htable : op.resultType l r =
      if l.excludes .number || r.excludes .number then .error (.operands op l r)
      else .ok (l.arithmetic r) := by
    rcases hop with rfl | rfl <;> rfl
  rw [htable] at h
  split at h
  · cases h
  · rename_i hexcludes
    simp only [Bool.or_eq_true, not_or, Bool.not_eq_true] at hexcludes
    obtain rfl := ValueType.eq_of_not_excludes hl hexcludes.1
    obtain rfl := ValueType.eq_of_not_excludes hr hexcludes.2
    cases h
    exact ⟨rfl, rfl, rfl⟩

/-- Two numbers that are computed have the type of a number. -/
theorem arithmetic?_type {op : BinaryOp} {x y value : Number}
    (hvalue : arithmetic? op x y = some value) (h : op.resultType .number .number = .ok t) :
    t = .number := by
  cases op with
  | and | or | shl | shr => cases hvalue
  | add | sub | mul | div | mod =>
    cases h
    rfl

end Table

/-! ## The rules -/

section Rules

variable {loc : Location} {left right s : Expr} {type : ValueType}

theorem consistent_decideWith {other : Expr} (neutral value : Bool) (h : other.Consistent)
    (ht : other.type = .boolean) :
    (decideWith loc neutral value other).Consistent ∧
      (decideWith loc neutral value other).type = .boolean := by
  unfold decideWith
  split
  · exact ⟨h, ht⟩
  · exact ⟨Expr.consistent_boolean .., rfl⟩

/-- The type of what a rule makes follows from its parts, and is that of the operator. -/
theorem Optimize.Simplifies.consistent {op : BinaryOp} {rule : Rule}
    (h : Simplifies loc op left right type rule s)
    (he : (Expr.binary loc op left right type).Consistent) (hl : left.Consistent) (hr : right.Consistent) :
    s.Consistent ∧ s.type = type := by
  have htable : op.resultType left.type right.type = .ok type := he.follows
  cases h with
  | compute hvalue => exact ⟨Expr.consistent_number .., (arithmetic?_type hvalue htable).symm⟩
  | join => exact ⟨Expr.consistent_string .., rfl⟩
  | truthLeft hop =>
    obtain ⟨rfl, -, hright⟩ := BinaryOp.operands_boolean hop htable
    exact consistent_decideWith _ _ hr (hright hr.known)
  | truthRight hop =>
    obtain ⟨rfl, hleft, -⟩ := BinaryOp.operands_boolean hop htable
    exact consistent_decideWith _ _ hl (hleft hl.known)
  | zeroRight _ _ ht =>
    rw [ht] at htable ⊢
    cases htable
    exact ⟨hl, rfl⟩
  | zeroLeft _ _ ht =>
    rw [ht] at htable ⊢
    cases htable
    exact ⟨hr, rfl⟩
  | regroup ht =>
    refine ⟨⟨ValueType.noConfusion, ?_⟩, rfl⟩
    change BinaryOp.add.resultType _ .number = .ok .number
    rw [ht]
    rfl
  | oneRight =>
    obtain ⟨rfl, hleft, -⟩ := BinaryOp.operands_number (.inl rfl) htable hl.known hr.known
    exact ⟨hl, hleft⟩
  | oneLeft =>
    obtain ⟨rfl, -, hright⟩ := BinaryOp.operands_number (.inl rfl) htable hl.known hr.known
    exact ⟨hr, hright⟩
  | nothingRight | nothingLeft =>
    obtain ⟨rfl, -⟩ := BinaryOp.operands_number (.inl rfl) htable hl.known hr.known
    exact ⟨Expr.consistent_number .., rfl⟩
  | shlRight | shlLeft =>
    -- The table gives a number for a shift of anything.
    obtain ⟨rfl, -⟩ := BinaryOp.operands_number (.inl rfl) htable hl.known hr.known
    exact ⟨⟨ValueType.noConfusion, rfl⟩, rfl⟩
  | shr =>
    obtain ⟨rfl, -⟩ := BinaryOp.operands_number (.inr rfl) htable hl.known hr.known
    exact ⟨⟨ValueType.noConfusion, rfl⟩, rfl⟩
  | stay => exact ⟨he, rfl⟩

theorem Optimize.Simplifies.hasType {op : BinaryOp} {rule : Rule}
    (h : Simplifies loc op left right type rule s)
    (he : (Expr.binary loc op left right type).WellTyped) :
    s.HasType type := by
  obtain ⟨hroot, hl, hr⟩ := Expr.wellTyped_binary.mp he
  obtain ⟨hs, htype⟩ := h.consistent hroot hl.root hr.root
  exact ⟨htype, h.forall_nodes Expr.consistent_number hl hr hs⟩

theorem hasType_simplifyCompare {op : CompareOp} (hl : left.WellTyped) (hr : right.WellTyped) :
    (simplifyCompare loc op left right).HasType .boolean := by
  rcases simplifyCompare_cases loc op left right with ⟨b, h⟩ | ⟨h, -⟩
  · rw [h]
    exact ⟨rfl, List.forall_mem_singleton.mpr (Expr.consistent_boolean ..)⟩
  · rw [h]
    exact ⟨rfl, Expr.wellTyped_compare.mpr ⟨hl, hr⟩⟩

theorem hasType_simplifyUnary {op : UnaryOp} {operand : Expr}
    (he : (Expr.unary loc op operand type).WellTyped) :
    (simplifyUnary loc op operand type).HasType type := by
  obtain ⟨hroot, ho⟩ := Expr.wellTyped_unary.mp he
  have htable : op.resultType operand.type = .ok type := hroot.follows
  unfold simplifyUnary
  split
  · cases htable
    exact ⟨rfl, List.forall_mem_singleton.mpr (Expr.consistent_number ..)⟩
  · cases htable
    exact ⟨rfl, List.forall_mem_singleton.mpr (Expr.consistent_boolean ..)⟩
  · -- Both `!` give truth values, and so does what is left.
    obtain ⟨hinner, hx⟩ := Expr.wellTyped_unary.mp ho
    obtain ⟨rfl, -⟩ := UnaryOp.operand_boolean htable ho.root.known
    obtain ⟨-, hboolean⟩ := UnaryOp.operand_boolean hinner.follows hx.root.known
    exact ⟨hboolean, hx⟩
  · exact ⟨rfl, he⟩

theorem hasType_simplifyCall {callee : Bytes} {args : List Expr} {builtin : Bool}
    (hroot : type ≠ .unknown ∧ (builtin = true → type = .number))
    (ha : ∀ n ∈ Expr.nodesList args, n.Consistent) :
    (simplifyCall loc callee args type builtin).HasType type := by
  rcases simplifyCall_cases loc callee args type builtin with ⟨_, _, value, hb, -, -, h⟩ | ⟨h, -⟩
  · rw [h]
    obtain rfl := hroot.2 hb
    exact ⟨rfl, List.forall_mem_singleton.mpr (Expr.consistent_number ..)⟩
  · rw [h]
    exact ⟨rfl, List.forall_mem_cons.mpr ⟨⟨hroot.1, hroot.2⟩, ha⟩⟩

theorem consistent_interpolate (loc : Location) (ss : List Segment) :
    (Expr.interpolate loc ss).Consistent ∧ (Expr.interpolate loc ss).type = .string := by
  unfold Expr.interpolate
  split
  · exact ⟨Expr.consistent_string .., rfl⟩
  · exact ⟨Expr.consistent_string .., rfl⟩
  · exact ⟨Expr.consistent_interpolated .., rfl⟩

theorem hasType_simplifyString {pieces simplified : List Segment}
    (h : ∀ n ∈ Segment.nodesList simplified, n.Consistent) :
    (simplifyString loc pieces simplified).HasType .string := by
  have hroot : (simplifyString loc pieces simplified).Consistent ∧
      (simplifyString loc pieces simplified).type = .string := by
    rcases simplifyString_cases loc pieces simplified with heq | heq
    · rw [heq]
      exact ⟨Expr.consistent_interpolated .., rfl⟩
    · rw [heq]
      exact consistent_interpolate loc simplified
  exact ⟨hroot.2, forall_nodes_simplifyString h hroot.1⟩

end Rules

/-! ## Whole expressions -/

mutual

theorem Expr.WellTyped.hasType_optimize : {e : Expr} → e.WellTyped → e.optimize.HasType e.type
  | .number .., h | .string .., h | .boolean .., h | .identifier _, h => ⟨rfl, h⟩
  | .interpolated _ ss, h =>
    hasType_simplifyString (Segment.consistent_optimizeList ss (List.forall_mem_cons.mp h).2)
  | .binary loc op left right type, h => by
    obtain ⟨hroot, hleft, hright⟩ := Expr.wellTyped_binary.mp h
    have hl := hleft.hasType_optimize
    have hr := hright.hasType_optimize
    have hnode : (Expr.binary loc op left.optimize right.optimize type).Consistent := by
      refine ⟨hroot.known, ?_⟩
      change op.resultType left.optimize.type right.optimize.type = .ok type
      rw [hl.type_eq, hr.type_eq]
      exact hroot.follows
    exact (simplifyBinary_simplifies ..).hasType
      (Expr.wellTyped_binary.mpr ⟨hnode, hl.wellTyped, hr.wellTyped⟩)
  | .compare .., h => by
    obtain ⟨hl, hr⟩ := Expr.wellTyped_compare.mp h
    exact hasType_simplifyCompare hl.hasType_optimize.wellTyped hr.hasType_optimize.wellTyped
  | .unary loc op operand type, h => by
    obtain ⟨hroot, hoperand⟩ := Expr.wellTyped_unary.mp h
    have ho := hoperand.hasType_optimize
    have hnode : (Expr.unary loc op operand.optimize type).Consistent := by
      refine ⟨hroot.known, ?_⟩
      change op.resultType operand.optimize.type = .ok type
      rw [ho.type_eq]
      exact hroot.follows
    exact hasType_simplifyUnary (Expr.wellTyped_unary.mpr ⟨hnode, ho.wellTyped⟩)
  | .call .., h =>
    hasType_simplifyCall ⟨h.root.known, h.root.follows⟩
      (Expr.consistent_optimizeList (List.forall_mem_cons.mp h).2)
  | .range .., h => by
    have hb : Expr.WellTyped _ := (List.forall_mem_cons.mp h).2
    exact ⟨rfl, List.forall_mem_cons.mpr
      ⟨⟨ValueType.noConfusion, trivial⟩, hb.hasType_optimize.wellTyped⟩⟩

theorem Expr.consistent_optimizeList : {es : List Expr} → (∀ n ∈ Expr.nodesList es, n.Consistent) →
    ∀ n ∈ Expr.nodesList (Expr.optimizeList es), n.Consistent
  | [], h => h
  | e :: es, h => by
    have he : e.WellTyped := (List.forall_mem_append.mp h).1
    exact List.forall_mem_append.mpr ⟨he.hasType_optimize.wellTyped,
      Expr.consistent_optimizeList (List.forall_mem_append.mp h).2⟩

theorem Segment.consistent_optimizeList : (ss : List Segment) →
    (∀ n ∈ Segment.nodesList ss, n.Consistent) →
    ∀ n ∈ Segment.nodesList (Segment.optimizeList ss), n.Consistent
  | [], h => h
  | .text _ :: ss, h => Segment.consistent_optimizeList ss h
  | .embedded e :: ss, h => by
    have he : e.WellTyped := (List.forall_mem_append.mp h).1
    exact forall_nodes_simplifyEmbedded he.hasType_optimize.wellTyped
      (Segment.consistent_optimizeList ss (List.forall_mem_append.mp h).2)

end

/-- If all types in an expression are known and follow from the operator table, the simplified
expression has the same type, and all types in it are known and follow from the table again. -/
theorem optimize_keepsType {e : Expr} (h : e.WellTyped) :
    e.optimize.type = e.type ∧ e.optimize.WellTyped :=
  ⟨h.hasType_optimize.type_eq, h.hasType_optimize.wellTyped⟩

/-- `-v$(((x + 1) + 2) * floor(8.0)): $(!!(b and true))-`. -/
def reportExpr : Expr :=
  let x := Expr.identifier ⟨{}, ascii "x", .number, false⟩
  let b := Expr.identifier ⟨{}, ascii "b", .boolean, false⟩
  let number (n : Nat) := Expr.number {} (.ofNat n)
  let sum := Expr.binary {} .add (.binary {} .add x (number 1) .number) (number 2) .number
  let floor := Expr.call {} (ascii "floor") [number 8] .number true
  let both := Expr.binary {} .and b (.boolean {} true) .boolean
  .interpolated {} [.text (ascii "v"), .embedded (.binary {} .mul sum floor .number),
    .text (ascii ": "), .embedded (.unary {} .not (.unary {} .not both .boolean) .boolean)]

theorem reportExpr_keepsType :
    reportExpr.WellTyped ∧ reportExpr.optimize ≠ reportExpr ∧
      reportExpr.optimize.type = .string ∧ reportExpr.optimize.WellTyped := by
  have h : reportExpr.WellTyped := by decide +kernel
  obtain ⟨htype, hwell⟩ := optimize_keepsType h
  exact ⟨h, by decide +kernel, htype, hwell⟩

end Roar
