import Roar.Proofs.Optimize.Nodes

/-!
# A pass leaves nothing behind

`Expr.Reducible` and `Stmt.Reducible` list what a pass looks for, as it would stand in a program:
operators on literals, comparisons of an expression with itself, conditionals and loops that are
decided or empty. Rules make new nodes from parts that are simplified already, so each of them has to
be asked whether what it makes could be simplified once more. None of these can
(`optimize_leaves_nothing`), although others may: adding zero, a further regrouping of terms or
another shift can come up again.
-/

namespace Roar

open Optimize

/-! ## What is looked for -/

/-- The built-in functions that are computed for every number literal. -/
def alwaysComputed : List Bytes := [ascii "abs", ascii "floor", ascii "ceil"]

/-- An expression that is simplified whatever its other parts are. -/
inductive Expr.Reducible : Expr → Prop
  | truthLeft {loc l : Location} {op : BinaryOp} {b : Bool} {right : Expr} {type : ValueType}
      (hop : op = .and ∨ op = .or) : Reducible (.binary loc op (.boolean l b) right type)
  | truthRight {loc l : Location} {op : BinaryOp} {b : Bool} {left : Expr} {type : ValueType}
      (hop : op = .and ∨ op = .or) : Reducible (.binary loc op left (.boolean l b) type)
  | arithmetic {loc lx ly : Location} {op : BinaryOp} {x y : Number} {type : ValueType}
      (hop : op = .add ∨ op = .sub ∨ op = .mul) :
      Reducible (.binary loc op (.number lx x) (.number ly y) type)
  | quotient {loc lx ly : Location} {op : BinaryOp} {x y : Number} {type : ValueType}
      (hop : op = .div ∨ op = .mod) (hy : y.isZero = false) :
      Reducible (.binary loc op (.number lx x) (.number ly y) type)
  | same {loc : Location} {op : CompareOp} {left right : Expr} (h : left.same right = true) :
      Reducible (.compare loc op left right)
  | literals {loc : Location} {op : CompareOp} {left right : Expr} {x y : Literal}
      (hop : op.isEquality = true) (hl : left.literal? = some x) (hr : right.literal? = some y) :
      Reducible (.compare loc op left right)
  | notTruth {loc l : Location} {b : Bool} {type : ValueType} :
      Reducible (.unary loc .not (.boolean l b) type)
  | notNot {loc l : Location} {e : Expr} {t type : ValueType} :
      Reducible (.unary loc .not (.unary l .not e t) type)
  | negative {loc l : Location} {x : Number} {type : ValueType} :
      Reducible (.unary loc .neg (.number l x) type)
  | builtin {loc l : Location} {callee : Bytes} {x : Number} {type : ValueType}
      (h : callee ∈ alwaysComputed) : Reducible (.call loc callee [.number l x] type true)
  | embedded {loc : Location} {segments : List Segment} {e : Expr} {x : Literal}
      (h : .embedded e ∈ segments) (he : e.literal? = some x) :
      Reducible (.interpolated loc segments)

/-- A statement that goes, or that a block of it takes the place of. -/
inductive Stmt.Reducible : Stmt → Prop
  | known {loc l thenLoc : Location} {b : Bool} {thenBody : List Stmt} {alternate : Alternate} :
      Reducible (.branch loc (.boolean l b) thenLoc thenBody alternate)
  | emptyBranch {loc thenLoc : Location} {condition : Expr} :
      Reducible (.branch loc condition thenLoc [] .none)
  | emptyLoop {loc rangeLoc bodyLoc : Location} {counter : Identifier} {bound : Expr} :
      Reducible (.loop loc counter rangeLoc bound bodyLoc [])
  | idleLoop {loc rangeLoc l bodyLoc : Location} {counter : Identifier} {x : Number}
      {body : List Stmt} (h : x.le (.zero false) = true) :
      Reducible (.loop loc counter rangeLoc (.number l x) bodyLoc body)
  | selfAssign {loc : Location} {target id : Identifier} {declares : Bool}
      (h : id.name = target.name) : Reducible (.assign loc target (.identifier id) declares)

/-! ## Rules for expressions -/

section Rules

variable {loc : Location} {left right s : Expr} {type : ValueType}

/-- A binary operator stays only where its operands are not computed and do not decide it. -/
theorem Optimize.none_of_ruleOf_stay {op : BinaryOp} (h : ruleOf loc op left right type = .stay) :
    computeNumbers? loc op left right = none ∧ shortCircuit? loc op left right = none := by
  -- The rules in front of these two are tried first, so they are refuted in the order of `ruleOf`.
  cases hcompute : (computeNumbers? loc op left right).isSome with
  | true =>
    rw [ruleOf, if_pos hcompute] at h
    cases h
  | false =>
  have hcompute' := Bool.eq_false_iff.mp hcompute
  cases hjoin : (joinLiterals? loc op left right type).isSome with
  | true =>
    rw [ruleOf, if_neg hcompute', if_pos hjoin] at h
    cases h
  | false =>
  have hjoin' := Bool.eq_false_iff.mp hjoin
  cases htruth : (shortCircuit? loc op left right).isSome with
  | true =>
    rw [ruleOf, if_neg hcompute', if_neg hjoin', if_pos htruth] at h
    split at h <;> cases h
  | false => exact ⟨by simpa using hcompute, by simpa using htruth⟩

theorem not_reducible_of_stay {op : BinaryOp} (h : ruleOf loc op left right type = .stay) :
    ¬ (Expr.binary loc op left right type).Reducible := by
  obtain ⟨hcompute, htruth⟩ := none_of_ruleOf_stay h
  intro hred
  cases hred with
  | truthLeft hop => rcases hop with rfl | rfl <;> cases htruth
  | truthRight hop =>
    rcases hop with rfl | rfl <;> cases left <;> cases htruth
  | arithmetic hop => rcases hop with rfl | rfl | rfl <;> cases hcompute
  | quotient hop hy =>
    rcases hop with rfl | rfl
    all_goals
      rw [computeNumbers?, arithmetic?, hy] at hcompute
      cases hcompute

theorem not_reducible_boolean (b : Bool) : ¬ (Expr.boolean loc b).Reducible := by
  intro h
  cases h

theorem not_reducible_decideWith {other : Expr} {neutral value : Bool} (h : ¬ other.Reducible) :
    ¬ (decideWith loc neutral value other).Reducible := by
  unfold decideWith
  split
  · exact h
  · exact not_reducible_boolean value

/-- No rule makes what could be computed or decided. In a regrouped sum, the first term is not a
number literal: the sum that it was a term of is simplified. -/
theorem Optimize.Simplifies.not_reducible {op : BinaryOp} {rule : Rule}
    (h : Simplifies loc op left right type rule s)
    (hrule : ruleOf loc op left right type = rule) (hl : ¬ left.Reducible)
    (hr : ¬ right.Reducible) : ¬ s.Reducible := by
  cases h with
  | compute | join | nothingRight | nothingLeft =>
    intro hs
    cases hs
  | truthLeft => exact not_reducible_decideWith hr
  | truthRight => exact not_reducible_decideWith hl
  | zeroRight | oneRight => exact hl
  | zeroLeft | oneLeft => exact hr
  | regroup =>
    intro hs
    cases hs with
    | truthLeft hop => rcases hop with hop | hop <;> cases hop
    | arithmetic => exact hl (.arithmetic (.inl rfl))
    | quotient hop => rcases hop with hop | hop <;> cases hop
  | shlRight | shlLeft | shr =>
    intro hs
    cases hs with
    | truthLeft hop => rcases hop with hop | hop <;> cases hop
    | arithmetic hop => rcases hop with hop | hop | hop <;> cases hop
    | quotient hop => rcases hop with hop | hop <;> cases hop
  | stay => exact not_reducible_of_stay hrule

/-- Any two literals are compared for equality. -/
theorem isSome_compareLiterals? {op : CompareOp} (hop : op.isEquality = true) (x y : Literal) :
    (compareLiterals? op x y).isSome := by
  cases x <;> cases y <;> simp [compareLiterals?, hop]

theorem not_reducible_simplifyCompare {op : CompareOp} :
    ¬ (simplifyCompare loc op left right).Reducible := by
  rcases simplifyCompare_cases loc op left right with ⟨b, h⟩ | ⟨h, hliterals, hsame⟩
  · rw [h]
    exact not_reducible_boolean b
  · rw [h]
    intro hs
    cases hs with
    | same h => exact Bool.false_ne_true (hsame.symm.trans h)
    | @literals _ _ _ _ x y hop hl hr =>
      have hsome := isSome_compareLiterals? hop x y
      simp only [literalOutcome?, hl, hr] at hliterals
      rw [hliterals] at hsome
      cases hsome

theorem not_reducible_simplifyUnary {op : UnaryOp} {operand : Expr}
    (ho : ∀ n ∈ operand.nodes, ¬ n.Reducible) :
    ¬ (simplifyUnary loc op operand type).Reducible := by
  unfold simplifyUnary
  split
  · intro h
    cases h
  · exact not_reducible_boolean _
  · exact ho _ (List.mem_cons_of_mem _ (Expr.self_mem_nodes _))
  · rename_i hneg htruth hnot
    intro h
    cases h with
    | notTruth => exact htruth _ _ rfl rfl
    | notNot => exact hnot _ _ _ rfl rfl
    | negative => exact hneg _ _ rfl rfl

private theorem isSome_builtinValue? {callee : Bytes} (h : callee ∈ alwaysComputed) (x : Number) :
    (builtinValue? callee x).isSome := by
  simp only [alwaysComputed, List.mem_cons, List.not_mem_nil, or_false] at h
  rcases h with rfl | rfl | rfl <;> rfl

theorem not_reducible_simplifyCall {callee : Bytes} {args : List Expr} {builtin : Bool} :
    ¬ (simplifyCall loc callee args type builtin).Reducible := by
  rcases simplifyCall_cases loc callee args type builtin with ⟨_, _, value, -, -, -, h⟩ | ⟨h, hnone⟩
  · rw [h]
    intro hs
    cases hs
  · rw [h]
    intro hs
    cases hs with
    | @builtin _ l _ x _ hname =>
      have hsome := isSome_builtinValue? hname x
      rw [hnone l x rfl rfl] at hsome
      cases hsome

end Rules

/-! ## Strings -/

/-- No value that is put into the string is a literal. -/
def Segment.NoLiterals (ss : List Segment) : Prop := ∀ e, .embedded e ∈ ss → e.literal? = none

section Strings

variable {loc : Location} {ss : List Segment}

theorem Segment.mem_of_mem_merge {e : Expr} (h : .embedded e ∈ Segment.merge ss) :
    .embedded e ∈ ss := by
  fun_induction Segment.merge ss with
  | case1 => exact h
  | case2 e' rest ih =>
    rcases List.mem_cons.mp h with h | h
    · exact h ▸ List.mem_cons_self
    · exact List.mem_cons_of_mem _ (ih h)
  | case3 rest ih => exact List.mem_cons_of_mem _ (ih h)
  | case4 t rest ht u more hmore ih =>
    rcases List.mem_cons.mp h with h | h
    · cases h
    · exact List.mem_cons_of_mem _ (ih (hmore ▸ List.mem_cons_of_mem _ h))
  | case5 t rest ht hmore ih =>
    rcases List.mem_cons.mp h with h | h
    · cases h
    · exact List.mem_cons_of_mem _ (ih h)

theorem not_reducible_interpolated (h : Segment.NoLiterals ss) :
    ¬ (Expr.interpolated loc ss).Reducible := by
  intro hs
  cases hs with
  | embedded hmem hliteral => exact absurd ((h _ hmem).symm.trans hliteral) (by simp)

theorem not_reducible_simplifyString {pieces : List Segment} (h : Segment.NoLiterals ss) :
    ¬ (simplifyString loc pieces ss).Reducible := by
  rcases simplifyString_cases loc pieces ss with heq | heq
  · rw [heq]
    exact not_reducible_interpolated h
  · rw [heq]
    unfold Expr.interpolate
    split
    · intro hs
      cases hs
    · intro hs
      cases hs
    · exact not_reducible_interpolated fun e he => h e (Segment.mem_of_mem_merge he)

theorem Segment.noLiterals_optimizeList (ss : List Segment) :
    Segment.NoLiterals (Segment.optimizeList ss) := by
  induction ss with
  | nil => exact fun _ h => absurd h List.not_mem_nil
  | cons s ss ih =>
    intro e h
    rcases List.mem_cons.mp h with h | h
    · cases s with
      | text _ => cases h
      | embedded value =>
        unfold Segment.optimize simplifyEmbedded at h
        split at h
        · cases h
        · rename_i hnone
          cases h
          exact hnone
    · exact ih e h

end Strings

/-! ## Whole expressions -/

mutual

theorem Expr.not_reducible_optimize : (e : Expr) → ∀ n ∈ e.optimize.nodes, ¬ n.Reducible
  | .number .. | .string .. | .boolean .. | .identifier _ => by
    refine List.forall_mem_singleton.mpr fun h => ?_
    cases h
  | .interpolated _ ss =>
    forall_nodes_simplifyString (Segment.not_reducible_optimizeList ss)
      (not_reducible_simplifyString (Segment.noLiterals_optimizeList ss))
  | .binary loc op left right type => by
    have hl := left.not_reducible_optimize
    have hr := right.not_reducible_optimize
    have h := simplifyBinary_simplifies loc op left.optimize right.optimize type
    refine h.forall_nodes (fun l x hx => ?_) hl hr
      (h.not_reducible rfl (hl _ (Expr.self_mem_nodes _)) (hr _ (Expr.self_mem_nodes _)))
    cases hx
  | .compare _ _ left right =>
    forall_nodes_simplifyCompare left.not_reducible_optimize right.not_reducible_optimize
      not_reducible_simplifyCompare
  | .unary _ _ operand _ =>
    forall_nodes_simplifyUnary operand.not_reducible_optimize
      (not_reducible_simplifyUnary operand.not_reducible_optimize)
  | .call _ _ args _ _ =>
    forall_nodes_simplifyCall (Expr.not_reducible_optimizeList args) not_reducible_simplifyCall
  | .range _ bound => by
    refine List.forall_mem_cons.mpr ⟨fun h => ?_, bound.not_reducible_optimize⟩
    cases h

theorem Expr.not_reducible_optimizeList :
    (es : List Expr) → ∀ n ∈ Expr.nodesList (Expr.optimizeList es), ¬ n.Reducible
  | [] => List.forall_mem_nil _
  | e :: es =>
    List.forall_mem_append.mpr ⟨e.not_reducible_optimize, Expr.not_reducible_optimizeList es⟩

theorem Segment.not_reducible_optimizeList :
    (ss : List Segment) → ∀ n ∈ Segment.nodesList (Segment.optimizeList ss), ¬ n.Reducible
  | [] => List.forall_mem_nil _
  | .text _ :: ss => Segment.not_reducible_optimizeList ss
  | .embedded e :: ss =>
    forall_nodes_simplifyEmbedded e.not_reducible_optimize (Segment.not_reducible_optimizeList ss)

end

/-- An `==` of two operands is computed or decided if their `!=` is. -/
theorem reducible_ne_of_eq {loc : Location} {left right : Expr}
    (h : (Expr.compare loc .eq left right).Reducible) :
    (Expr.compare loc .ne left right).Reducible := by
  cases h with
  | same h => exact .same h
  | literals _ hl hr => exact .literals rfl hl hr

/-! ## Statements -/

section Branches

variable {loc thenLoc : Location} {condition : Expr} {thenBody out : List Stmt}
  {alternate : Alternate}

theorem partsList_alternateStmts (a : Alternate) :
    Stmt.partsList (alternateStmts a) = a.parts := by
  cases a with
  | none => rfl
  | block loc body => rfl
  | branch => exact List.append_nil _

theorem parts_alternateOf (loc : Location) (ss : List Stmt) :
    (alternateOf loc ss).parts = Stmt.partsList ss := by
  rw [← partsList_alternateStmts, alternateStmts_alternateOf]

private theorem simplifyBranch_empty (hc : boolean? condition = none) :
    simplifyBranch loc condition thenLoc [] .none = [] := by
  cases condition with
  | boolean => cases hc
  | _ => rfl

/-- A conditional that is kept is neither decided nor empty. -/
theorem not_reducible_branch (hc : boolean? condition = none)
    (h : simplifyBranch loc condition thenLoc thenBody alternate =
      [.branch loc condition thenLoc thenBody alternate]) :
    ¬ (Stmt.branch loc condition thenLoc thenBody alternate).Reducible := by
  intro hs
  cases hs with
  | known => cases hc
  | emptyBranch =>
    rw [simplifyBranch_empty hc] at h
    cases h

theorem forall_parts_simplifyBranch (ht : ∀ s ∈ Stmt.partsList thenBody, ¬ s.Reducible)
    (ha : ∀ s ∈ alternate.parts, ¬ s.Reducible) :
    ∀ s ∈ Stmt.partsList (simplifyBranch loc condition thenLoc thenBody alternate),
      ¬ s.Reducible := by
  have h := simplifyBranch_branches loc condition thenLoc thenBody alternate
  -- `Branches` does not say that a kept conditional has statements, so the equation stays at hand.
  generalize hout : simplifyBranch loc condition thenLoc thenBody alternate = out at h ⊢
  cases h with
  | known =>
    split
    · exact ht
    · rw [partsList_alternateStmts]
      exact ha
  | empty => exact List.forall_mem_nil _
  | turned =>
    simp only [Stmt.partsList, Stmt.parts, Alternate.parts, List.append_nil]
    refine List.forall_mem_cons.mpr ⟨fun hs => ?_, List.forall_mem_append.mpr ⟨ha, ht⟩⟩
    cases hs
  | kept hc =>
    simp only [Stmt.partsList, Stmt.parts, List.append_nil]
    exact List.forall_mem_cons.mpr
      ⟨not_reducible_branch hc hout, List.forall_mem_append.mpr ⟨ht, ha⟩⟩

theorem forall_parts_simplifyAssign {target : Identifier} {value : Expr} {declares : Bool} :
    ∀ s ∈ Stmt.partsList (simplifyAssign loc target value declares), ¬ s.Reducible := by
  unfold simplifyAssign
  split
  · exact List.forall_mem_nil _
  · rename_i hself
    refine List.forall_mem_singleton.mpr fun hs => ?_
    cases hs with
    | selfAssign h => exact hself (beq_iff_eq.mpr h)

theorem forall_parts_simplifyLoop {counter : Identifier} {rangeLoc bodyLoc : Location}
    {bound : Expr} {body : List Stmt} (hb : ∀ s ∈ Stmt.partsList body, ¬ s.Reducible) :
    ∀ s ∈ Stmt.partsList (simplifyLoop loc counter rangeLoc bound bodyLoc body),
      ¬ s.Reducible := by
  unfold simplifyLoop
  split
  · exact List.forall_mem_nil _
  · rename_i hkept
    simp only [Bool.or_eq_true, not_or] at hkept
    simp only [Stmt.partsList, Stmt.parts, List.append_nil]
    refine List.forall_mem_cons.mpr ⟨fun hs => ?_, hb⟩
    cases hs with
    | emptyLoop => exact hkept.2 rfl
    | idleLoop h => exact hkept.1 h

end Branches

mutual

theorem Stmt.not_reducible_optimize :
    (s : Stmt) → ∀ t ∈ Stmt.partsList s.optimize, ¬ t.Reducible
  | .block _ body | .function _ _ _ _ body _ => by
    simp only [Stmt.optimize, Stmt.partsList, Stmt.parts, List.append_nil]
    refine List.forall_mem_cons.mpr ⟨fun h => ?_, Stmt.not_reducible_optimizeList body⟩
    cases h
  | .assign .. => forall_parts_simplifyAssign
  | .print .. | .serve .. | .leave _ | .comment .. | .expression .. => by
    refine List.forall_mem_singleton.mpr fun h => ?_
    cases h
  | .branch _ _ _ thenBody alternate =>
    forall_parts_simplifyBranch (Stmt.not_reducible_optimizeList thenBody)
      alternate.not_reducible_optimize
  | .loop _ _ _ _ _ body => forall_parts_simplifyLoop (Stmt.not_reducible_optimizeList body)

theorem Alternate.not_reducible_optimize :
    (a : Alternate) → ∀ t ∈ a.optimize.parts, ¬ t.Reducible
  | .none => List.forall_mem_nil _
  | .block _ body => Stmt.not_reducible_optimizeList body
  | .branch _ _ _ thenBody alternate => by
    rw [Alternate.optimize, parts_alternateOf]
    exact forall_parts_simplifyBranch (Stmt.not_reducible_optimizeList thenBody)
      alternate.not_reducible_optimize

theorem Stmt.not_reducible_optimizeList :
    (ss : List Stmt) → ∀ t ∈ Stmt.partsList (Stmt.optimizeList ss), ¬ t.Reducible
  | [] => List.forall_mem_nil _
  | s :: ss => by
    rw [Stmt.optimizeList, Stmt.partsList_append]
    exact List.forall_mem_append.mpr
      ⟨s.not_reducible_optimize, Stmt.not_reducible_optimizeList ss⟩

end

/-- In a simplified program, no expression and no statement at any depth is one that the pass looks
for. -/
theorem optimize_leaves_nothing (p : Program) :
    (∀ e ∈ p.optimize.nodes, ¬ e.Reducible) ∧ ∀ s ∈ p.optimize.parts, ¬ s.Reducible :=
  ⟨p.forall_nodes_optimize
    ⟨Expr.not_reducible_optimize, fun h heq => h (reducible_ne_of_eq heq)⟩,
    Stmt.not_reducible_optimizeList p.statements⟩

end Roar
