import Mathlib.Logic.Function.Iterate
import Roar.Proofs.Optimize.Rules
import Roar.Proofs.Program.Nodes

/-!
# Repeated simplification comes to an end

Some rules leave as many nodes as they find: a product becomes a shift, the blocks of a `!=` change
places. Each of them makes an operator of another kind out of a product, a quotient or a `!=`, and
no rule makes one of these. So a program is weighed by its nodes, with these operators counted twice
(`Program.weight`): a pass either returns a program as it is or makes it lighter
(`Stmt.shrinks_optimizeList`), and after as many passes as the program weighs none changes it any
more.
-/

namespace Roar

open Optimize

/-! ## Weights -/

/-- A product, a quotient or a `!=`. -/
def Expr.isCostly : Expr → Bool
  | .binary _ op _ _ _ => op == .mul || op == .div
  | .compare _ op _ _ => op == .ne
  | _ => false

mutual

/-- How many statements there are in a statement. A body is a block, also where it is not written as
one. -/
def Stmt.count : Stmt → Nat
  | .block _ body => 1 + Stmt.countList body
  | .function _ _ _ _ body _ | .loop _ _ _ _ _ body => 1 + (1 + Stmt.countList body)
  | .branch _ _ _ thenBody alternate => 1 + (1 + Stmt.countList thenBody) + alternate.count
  | .assign .. | .print .. | .serve .. | .leave _ | .comment .. | .expression .. => 1

def Alternate.count : Alternate → Nat
  | .none => 0
  | .block _ body => 1 + Stmt.countList body
  | .branch _ _ _ thenBody alternate => 1 + (1 + Stmt.countList thenBody) + alternate.count

def Stmt.countList : List Stmt → Nat
  | [] => 0
  | s :: ss => s.count + Stmt.countList ss

end

/-- The number of statements and expressions of a program, and of products, quotients and `!=` among
them. -/
def Program.weight (p : Program) : Nat :=
  Stmt.countList p.statements + p.nodes.length + p.nodes.countP Expr.isCostly

/-- The weight of some expressions without their parts. -/
def weightOf (es : List Expr) : Nat := es.length + es.countP Expr.isCostly

@[simp] theorem weightOf_nil : weightOf [] = 0 := rfl

@[simp] theorem weightOf_cons (e : Expr) (es : List Expr) :
    weightOf (e :: es) = 1 + e.isCostly.toNat + weightOf es := by
  have hcostly : (if e.isCostly then 1 else 0) = e.isCostly.toNat := by
    cases e.isCostly <;> rfl
  unfold weightOf
  rw [List.countP_cons, List.length_cons, hcostly]
  omega

@[simp] theorem weightOf_append (es fs : List Expr) :
    weightOf (es ++ fs) = weightOf es + weightOf fs := by
  unfold weightOf
  rw [List.length_append, List.countP_append]
  omega

/-- The weight of an expression. -/
def Expr.weight (e : Expr) : Nat := weightOf e.nodes

def Expr.weightList (es : List Expr) : Nat := weightOf (Expr.nodesList es)

def Segment.weightList (ss : List Segment) : Nat := weightOf (Segment.nodesList ss)

section Expressions

variable (loc : Location) (left right e : Expr) (type : ValueType)

@[simp] theorem Expr.weight_number (x : Number) : (Expr.number loc x).weight = 1 := rfl

@[simp] theorem Expr.weight_string (s : Bytes) : (Expr.string loc s).weight = 1 := rfl

@[simp] theorem Expr.weight_boolean (b : Bool) : (Expr.boolean loc b).weight = 1 := rfl

@[simp] theorem Expr.weight_identifier (id : Identifier) : (Expr.identifier id).weight = 1 := rfl

@[simp] theorem Expr.weight_interpolated (ss : List Segment) :
    (Expr.interpolated loc ss).weight = 1 + Segment.weightList ss := weightOf_cons ..

@[simp] theorem Expr.weight_binary (op : BinaryOp) :
    (Expr.binary loc op left right type).weight =
      1 + (op == .mul || op == .div).toNat + left.weight + right.weight := by
  rw [Expr.weight, Expr.nodes, weightOf_cons, weightOf_append, ← Nat.add_assoc]
  rfl

@[simp] theorem Expr.weight_compare (op : CompareOp) :
    (Expr.compare loc op left right).weight =
      1 + (op == .ne).toNat + left.weight + right.weight := by
  rw [Expr.weight, Expr.nodes, weightOf_cons, weightOf_append, ← Nat.add_assoc]
  rfl

@[simp] theorem Expr.weight_unary (op : UnaryOp) :
    (Expr.unary loc op e type).weight = 1 + e.weight := weightOf_cons ..

@[simp] theorem Expr.weight_call (callee : Bytes) (args : List Expr) (builtin : Bool) :
    (Expr.call loc callee args type builtin).weight = 1 + Expr.weightList args := weightOf_cons ..

@[simp] theorem Expr.weight_range : (Expr.range loc e).weight = 1 + e.weight := weightOf_cons ..

@[simp] theorem Expr.weightList_nil : Expr.weightList [] = 0 := rfl

@[simp] theorem Expr.weightList_cons (es : List Expr) :
    Expr.weightList (e :: es) = e.weight + Expr.weightList es := weightOf_append ..

@[simp] theorem Segment.weightList_nil : Segment.weightList [] = 0 := rfl

@[simp] theorem Segment.weightList_text (t : Bytes) (ss : List Segment) :
    Segment.weightList (.text t :: ss) = Segment.weightList ss := rfl

@[simp] theorem Segment.weightList_embedded (ss : List Segment) :
    Segment.weightList (.embedded e :: ss) = e.weight + Segment.weightList ss := weightOf_append ..

theorem Expr.weight_pos (e : Expr) : 0 < e.weight := by
  have hnodes : 0 < e.nodes.length := by
    cases e <;> exact Nat.succ_pos _
  unfold Expr.weight weightOf
  omega

end Expressions

/-- The weight of a statement. -/
def Stmt.weight (s : Stmt) : Nat := s.count + weightOf s.nodes

def Alternate.weight (a : Alternate) : Nat := a.count + weightOf a.nodes

def Stmt.weightList (ss : List Stmt) : Nat := Stmt.countList ss + weightOf (Stmt.nodesList ss)

section Statements

variable (loc bodyLoc : Location) (value : Expr) (body : List Stmt) (alternate : Alternate)

@[simp] theorem Stmt.weightList_nil : Stmt.weightList [] = 0 := rfl

@[simp] theorem Stmt.weightList_cons (s : Stmt) (ss : List Stmt) :
    Stmt.weightList (s :: ss) = s.weight + Stmt.weightList ss := by
  simp only [Stmt.weightList, Stmt.weight, Stmt.countList, Stmt.nodesList, weightOf_append]
  omega

@[simp] theorem Stmt.weightList_append (ss ts : List Stmt) :
    Stmt.weightList (ss ++ ts) = Stmt.weightList ss + Stmt.weightList ts := by
  induction ss with
  | nil => simp
  | cons s ss ih => simp [ih, Nat.add_assoc]

@[simp] theorem Stmt.weight_block : (Stmt.block loc body).weight = 1 + Stmt.weightList body :=
  Nat.add_assoc ..

@[simp] theorem Stmt.weight_assign (target : Identifier) (declares : Bool) :
    (Stmt.assign loc target value declares).weight = 2 + value.weight := by
  simp only [Stmt.weight, Stmt.count, Stmt.nodes, weightOf_cons, Expr.isCostly, Bool.toNat_false,
    Expr.weight]
  omega

@[simp] theorem Stmt.weight_print : (Stmt.print loc value).weight = 1 + value.weight := rfl

@[simp] theorem Stmt.weight_serve : (Stmt.serve loc value).weight = 1 + value.weight := rfl

@[simp] theorem Stmt.weight_expression : (Stmt.expression loc value).weight = 1 + value.weight :=
  rfl

@[simp] theorem Stmt.weight_function (name : Bytes) (params : List Bytes) (returns : ValueType) :
    (Stmt.function loc name params bodyLoc body returns).weight = 2 + Stmt.weightList body := by
  simp only [Stmt.weight, Stmt.count, Stmt.nodes, Stmt.weightList]
  omega

@[simp] theorem Stmt.weight_branch :
    (Stmt.branch loc value bodyLoc body alternate).weight =
      2 + value.weight + Stmt.weightList body + alternate.weight := by
  simp only [Stmt.weight, Stmt.count, Stmt.nodes, weightOf_append, Stmt.weightList,
    Alternate.weight, Expr.weight]
  omega

@[simp] theorem Stmt.weight_loop (counter : Identifier) (rangeLoc : Location) :
    (Stmt.loop loc counter rangeLoc value bodyLoc body).weight =
      4 + value.weight + Stmt.weightList body := by
  have hrange := Expr.weight_range rangeLoc value
  simp only [Stmt.weight, Stmt.count, Stmt.nodes, weightOf_cons, weightOf_append, Stmt.weightList,
    Expr.isCostly, Bool.toNat_false, Expr.weight] at hrange ⊢
  omega

@[simp] theorem Alternate.weight_none : Alternate.none.weight = 0 := rfl

@[simp] theorem Alternate.weight_block :
    (Alternate.block loc body).weight = 1 + Stmt.weightList body := Nat.add_assoc ..

/-- A further condition weighs as much as a conditional of its own. -/
@[simp] theorem Alternate.weight_branch :
    (Alternate.branch loc value bodyLoc body alternate).weight =
      2 + value.weight + Stmt.weightList body + alternate.weight :=
  Stmt.weight_branch loc bodyLoc value body alternate

end Statements

/-! ## Shrinking -/

/-- What comes out is what went in, or lighter. -/
def Shrinks {α : Type} (weight : α → Nat) (before after : α) : Prop :=
  after = before ∨ weight after < weight before

namespace Shrinks

variable {α β : Type} {weight : α → Nat} {a b c : α}

theorem refl (a : α) : Shrinks weight a a := .inl rfl

theorem trans (h : Shrinks weight a b) (h' : Shrinks weight b c) : Shrinks weight a c := by
  rcases h with rfl | h
  · exact h'
  · rcases h' with rfl | h'
    · exact .inr h
    · exact .inr (Nat.lt_trans h' h)

/-- A part that shrinks makes the whole shrink, if a lighter part makes it lighter. -/
theorem map (h : Shrinks weight a b) (weight' : β → Nat) (f : α → β)
    (hf : weight b < weight a → weight' (f b) < weight' (f a)) : Shrinks weight' (f a) (f b) := by
  rcases h with rfl | h
  · exact refl _
  · exact .inr (hf h)

/-- Where every step shrinks, so many steps as the start weighs lead to what no step changes. -/
theorem exists_iterate {f : α → α} (h : ∀ a, Shrinks weight a (f a)) (a : α) :
    ∃ n ≤ weight a, f (f^[n] a) = f^[n] a := by
  -- Induction on the weight: a step that changes something leaves less for the steps after it.
  induction hw : weight a using Nat.strongRecOn generalizing a with
  | ind w ih =>
    rcases h a with hfix | hlt
    · exact ⟨0, Nat.zero_le _, hfix⟩
    · obtain ⟨n, hn, hfix⟩ := ih _ (hw ▸ hlt) (f a) rfl
      exact ⟨n + 1, by omega, hfix⟩

end Shrinks

/-! ## Expressions -/

section Nodes

variable {loc : Location} {left right s : Expr} {type : ValueType}

/-- Every rule for binary operators takes weight away. -/
theorem Optimize.Simplifies.shrinks {op : BinaryOp} {rule : Rule}
    (h : Simplifies loc op left right type rule s) :
    Shrinks Expr.weight (.binary loc op left right type) s := by
  have hl := left.weight_pos
  have hr := right.weight_pos
  cases h with
  | stay => exact .refl _
  | truthLeft hop | truthRight hop =>
    refine .inr ?_
    unfold decideWith
    split
    all_goals
      simp only [Expr.weight_binary, Expr.weight_boolean] at *
      omega
  | compute | join | zeroRight | zeroLeft | oneRight | oneLeft | nothingRight | nothingLeft =>
    refine .inr ?_
    simp only [Expr.weight_binary, Expr.weight_number, Expr.weight_string] at *
    omega
  | regroup =>
    refine .inr ?_
    simp only [Expr.weight_binary, Expr.weight_number]
    omega
  | shlRight | shlLeft | shr =>
    -- As many nodes as before, but the product or quotient counted twice.
    refine .inr ?_
    simp only [Expr.weight_binary, Expr.weight_number]
    change 1 + 0 + _ + _ < 1 + 1 + _ + _
    omega

theorem shrinks_simplifyCompare (op : CompareOp) :
    Shrinks Expr.weight (.compare loc op left right) (simplifyCompare loc op left right) := by
  have hlt (b : Bool) : (Expr.boolean loc b).weight < (Expr.compare loc op left right).weight := by
    have hl := left.weight_pos
    rw [Expr.weight_boolean, Expr.weight_compare]
    omega
  rw [simplifyCompare_eq]
  cases literalOutcome? op left right with
  | some outcome => exact .inr (hlt outcome)
  | none =>
    simp only [Option.map_none, Option.getD_none]
    split
    · exact .inr (hlt _)
    · exact .refl _

theorem shrinks_simplifyUnary (op : UnaryOp) (operand : Expr) :
    Shrinks Expr.weight (.unary loc op operand type) (simplifyUnary loc op operand type) := by
  unfold simplifyUnary
  split
  · exact .inr (by simp)
  · exact .inr (by simp)
  · exact .inr (by simp only [Expr.weight_unary]; omega)
  · exact .refl _

theorem shrinks_simplifyCall (callee : Bytes) (args : List Expr) (builtin : Bool) :
    Shrinks Expr.weight (.call loc callee args type builtin)
      (simplifyCall loc callee args type builtin) := by
  unfold simplifyCall
  split
  · rename_i l x
    cases builtinValue? callee x with
    | some value => exact .inr (by simp)
    | none => exact .refl _
  · exact .refl _

/-- An embedded literal has a node, and text has none. -/
theorem shrinks_simplifyEmbedded (e : Expr) (rest : List Segment) :
    Shrinks Segment.weightList (.embedded e :: rest) (simplifyEmbedded e :: rest) := by
  have he := e.weight_pos
  unfold simplifyEmbedded
  split
  · exact .inr (by
      simp only [Segment.weightList_embedded, Segment.weightList_text]
      omega)
  · exact .refl _

theorem Segment.weightList_merge (ss : List Segment) :
    Segment.weightList (Segment.merge ss) = Segment.weightList ss := by
  rw [Segment.weightList, Segment.nodesList_merge, Segment.weightList]

/-- Joining texts changes no weight. -/
theorem Expr.weight_interpolate (loc : Location) (ss : List Segment) :
    (Expr.interpolate loc ss).weight = 1 + Segment.weightList ss := by
  rw [← Segment.weightList_merge]
  unfold Expr.interpolate
  split
  · rename_i h
    simp [h]
  · rename_i h
    simp [h]
  · simp

theorem shrinks_simplifyString {pieces simplified : List Segment}
    (h : Shrinks Segment.weightList pieces simplified) :
    Shrinks Expr.weight (.interpolated loc pieces) (simplifyString loc pieces simplified) := by
  unfold simplifyString
  split
  · exact .refl _
  · rename_i hne
    have hlt := h.resolve_left hne
    exact .inr (by rw [Expr.weight_interpolate, Expr.weight_interpolated]; omega)

end Nodes

mutual

theorem Expr.shrinks_optimize : (e : Expr) → Shrinks Expr.weight e e.optimize
  | .number .. | .string .. | .boolean .. | .identifier _ => .refl _
  | .interpolated _ ss => shrinks_simplifyString (Segment.shrinks_optimizeList ss)
  | .binary loc op left right type => by
    have hl := left.shrinks_optimize.map Expr.weight (Expr.binary loc op · right type) (by simp)
    have hr := right.shrinks_optimize.map Expr.weight (Expr.binary loc op left.optimize · type)
      (by simp)
    exact hl.trans (hr.trans (simplifyBinary_simplifies ..).shrinks)
  | .compare loc op left right => by
    have hl := left.shrinks_optimize.map Expr.weight (Expr.compare loc op · right) (by simp)
    have hr := right.shrinks_optimize.map Expr.weight (Expr.compare loc op left.optimize ·)
      (by simp)
    exact hl.trans (hr.trans (shrinks_simplifyCompare op))
  | .unary loc op operand type => by
    have ho := operand.shrinks_optimize.map Expr.weight (Expr.unary loc op · type) (by simp)
    exact ho.trans (shrinks_simplifyUnary op _)
  | .call loc callee args type builtin => by
    have ha := (Expr.shrinks_optimizeList args).map Expr.weight
      (Expr.call loc callee · type builtin) (by simp)
    exact ha.trans (shrinks_simplifyCall callee _ builtin)
  | .range loc bound => bound.shrinks_optimize.map Expr.weight (Expr.range loc ·) (by simp)

theorem Expr.shrinks_optimizeList :
    (es : List Expr) → Shrinks Expr.weightList es (Expr.optimizeList es)
  | [] => .refl _
  | e :: es => by
    have he := e.shrinks_optimize.map Expr.weightList (· :: es) (by simp)
    have hes := (Expr.shrinks_optimizeList es).map Expr.weightList (e.optimize :: ·) (by simp)
    exact he.trans hes

theorem Segment.shrinks_optimizeList :
    (ss : List Segment) → Shrinks Segment.weightList ss (Segment.optimizeList ss)
  | [] => .refl _
  | .text t :: ss =>
    (Segment.shrinks_optimizeList ss).map Segment.weightList (.text t :: ·) (by simp)
  | .embedded e :: ss => by
    have he := e.shrinks_optimize.map Segment.weightList (Segment.embedded · :: ss) (by simp)
    have hs := (Segment.shrinks_optimizeList ss).map Segment.weightList
      (Segment.embedded e.optimize :: ·) (by simp)
    exact he.trans (hs.trans (shrinks_simplifyEmbedded ..))

end

/-! ## Statements -/

section Branches

variable {loc thenLoc : Location} {condition : Expr} {thenBody out : List Stmt}
  {alternate : Alternate}

private theorem weightList_alternateStmts_le (a : Alternate) :
    Stmt.weightList (alternateStmts a) ≤ a.weight := by
  cases a <;> simp [alternateStmts]

/-- At worst a further condition becomes a block. -/
theorem weight_alternateOf_le (loc : Location) (ss : List Stmt) :
    (alternateOf loc ss).weight ≤ 1 + Stmt.weightList ss := by
  unfold alternateOf
  split
  · exact Nat.zero_le _
  · rw [Alternate.weight_branch, Stmt.weightList_cons, Stmt.weight_branch]
    omega
  · exact Nat.le_of_eq (Alternate.weight_block ..)

/-- The block that is run leaves out the condition and the conditional around it. -/
theorem weightList_known_lt (loc l thenLoc : Location) (value : Bool) (thenBody : List Stmt)
    (alternate : Alternate) :
    1 + Stmt.weightList (if value then thenBody else alternateStmts alternate) <
      (Stmt.branch loc (.boolean l value) thenLoc thenBody alternate).weight := by
  have ha := weightList_alternateStmts_le alternate
  rw [Stmt.weight_branch, Expr.weight_boolean]
  split <;> omega

/-- Turning a conditional round makes an `==` of its `!=`. -/
theorem weight_turned_lt (loc : Location) {l elseLoc : Location} {left right : Expr}
    {elseBody : List Stmt} :
    (Stmt.branch loc (.compare l .eq left right) elseLoc elseBody
        (.block thenLoc thenBody)).weight <
      (Stmt.branch loc (.compare l .ne left right) thenLoc thenBody
        (.block elseLoc elseBody)).weight := by
  simp only [Stmt.weight_branch, Expr.weight_compare, Alternate.weight_block]
  change 2 + (1 + 0 + _ + _) + _ + _ < 2 + (1 + 1 + _ + _) + _ + _
  omega

theorem Optimize.Branches.shrinks (h : Branches loc condition thenLoc thenBody alternate out) :
    Shrinks Stmt.weightList [.branch loc condition thenLoc thenBody alternate] out := by
  cases h with
  | @known l _ value _ _ =>
    have hlt := weightList_known_lt loc l thenLoc value thenBody alternate
    exact .inr (by rw [Stmt.weightList_cons]; omega)
  | empty =>
    exact .inr (by simp only [Stmt.weightList_cons, Stmt.weight_branch]; omega)
  | turned =>
    refine .inr ?_
    rw [Stmt.weightList_cons, Stmt.weightList_cons]
    exact Nat.add_lt_add_right (weight_turned_lt loc) _
  | kept => exact .refl _

theorem Optimize.Branches.shrinks_alternateOf
    (h : Branches loc condition thenLoc thenBody alternate out) :
    Shrinks Alternate.weight (.branch loc condition thenLoc thenBody alternate)
      (alternateOf loc out) := by
  cases h with
  | @known l _ value _ _ =>
    exact .inr (Nat.lt_of_le_of_lt (weight_alternateOf_le ..)
      (weightList_known_lt loc l thenLoc value thenBody alternate))
  | empty =>
    exact .inr (by simp only [alternateOf, Alternate.weight_branch]; omega)
  | turned => exact .inr (weight_turned_lt loc)
  | kept => exact .refl _

end Branches

theorem shrinks_simplifyAssign (loc : Location) (target : Identifier) (value : Expr)
    (declares : Bool) :
    Shrinks Stmt.weightList [.assign loc target value declares]
      (simplifyAssign loc target value declares) := by
  unfold simplifyAssign
  split
  · exact .inr (by simp only [Stmt.weightList_cons, Stmt.weightList_nil, Stmt.weight_assign]; omega)
  · exact .refl _

theorem shrinks_simplifyLoop (loc : Location) (counter : Identifier) (rangeLoc : Location)
    (bound : Expr) (bodyLoc : Location) (body : List Stmt) :
    Shrinks Stmt.weightList [.loop loc counter rangeLoc bound bodyLoc body]
      (simplifyLoop loc counter rangeLoc bound bodyLoc body) := by
  unfold simplifyLoop
  split
  · exact .inr (by simp only [Stmt.weightList_cons, Stmt.weightList_nil, Stmt.weight_loop]; omega)
  · exact .refl _

mutual

theorem Stmt.shrinks_optimize : (s : Stmt) → Shrinks Stmt.weightList [s] s.optimize
  | .block loc body =>
    (Stmt.shrinks_optimizeList body).map Stmt.weightList ([Stmt.block loc ·]) (by simp)
  | .assign loc target value declares => by
    have hv := value.shrinks_optimize.map Stmt.weightList ([Stmt.assign loc target · declares])
      (by simp)
    exact hv.trans (shrinks_simplifyAssign ..)
  | .print loc value => value.shrinks_optimize.map Stmt.weightList ([Stmt.print loc ·]) (by simp)
  | .serve loc value => value.shrinks_optimize.map Stmt.weightList ([Stmt.serve loc ·]) (by simp)
  | .expression loc value =>
    value.shrinks_optimize.map Stmt.weightList ([Stmt.expression loc ·]) (by simp)
  | .function loc name params bodyLoc body returns =>
    (Stmt.shrinks_optimizeList body).map Stmt.weightList
      ([Stmt.function loc name params bodyLoc · returns]) (by simp)
  | .branch loc condition thenLoc thenBody alternate => by
    have hc := condition.shrinks_optimize.map Stmt.weightList
      ([Stmt.branch loc · thenLoc thenBody alternate]) (by simp)
    have ht := (Stmt.shrinks_optimizeList thenBody).map Stmt.weightList
      ([Stmt.branch loc condition.optimize thenLoc · alternate]) (by simp)
    have ha := alternate.shrinks_optimize.map Stmt.weightList
      ([Stmt.branch loc condition.optimize thenLoc (Stmt.optimizeList thenBody) ·]) (by simp)
    exact hc.trans (ht.trans (ha.trans (simplifyBranch_branches ..).shrinks))
  | .loop loc counter rangeLoc bound bodyLoc body => by
    have hn := bound.shrinks_optimize.map Stmt.weightList
      ([Stmt.loop loc counter rangeLoc · bodyLoc body]) (by simp)
    have hb := (Stmt.shrinks_optimizeList body).map Stmt.weightList
      ([Stmt.loop loc counter rangeLoc bound.optimize bodyLoc ·]) (by simp)
    exact hn.trans (hb.trans (shrinks_simplifyLoop ..))
  | .leave _ | .comment .. => .refl _

theorem Alternate.shrinks_optimize : (a : Alternate) → Shrinks Alternate.weight a a.optimize
  | .none => .refl _
  | .block loc body =>
    (Stmt.shrinks_optimizeList body).map Alternate.weight (Alternate.block loc ·) (by simp)
  | .branch loc condition thenLoc thenBody alternate => by
    have hc := condition.shrinks_optimize.map Alternate.weight
      (Alternate.branch loc · thenLoc thenBody alternate) (by simp)
    have ht := (Stmt.shrinks_optimizeList thenBody).map Alternate.weight
      (Alternate.branch loc condition.optimize thenLoc · alternate) (by simp)
    have ha := alternate.shrinks_optimize.map Alternate.weight
      (Alternate.branch loc condition.optimize thenLoc (Stmt.optimizeList thenBody) ·) (by simp)
    exact hc.trans (ht.trans (ha.trans (simplifyBranch_branches ..).shrinks_alternateOf))

theorem Stmt.shrinks_optimizeList :
    (ss : List Stmt) → Shrinks Stmt.weightList ss (Stmt.optimizeList ss)
  | [] => .refl _
  | s :: ss => by
    have hs := s.shrinks_optimize.map Stmt.weightList (· ++ ss) (by simp)
    have hss := (Stmt.shrinks_optimizeList ss).map Stmt.weightList (s.optimize ++ ·) (by simp)
    exact hs.trans hss

end

theorem Program.shrinks_optimize (p : Program) : Shrinks Program.weight p p.optimize := by
  refine (Stmt.shrinks_optimizeList p.statements).map Program.weight Program.mk fun h => ?_
  rw [Program.weight, Program.weight, Nat.add_assoc, Nat.add_assoc]
  exact h

/-- A pass returns a program as it is or makes it lighter. So after some passes, no more than the
program weighs, no further pass changes anything. -/
theorem optimize_converges (p : Program) :
    (p.optimize = p ∨ p.optimize.weight < p.weight) ∧
      ∃ n ≤ p.weight, ∀ m,
        Program.optimize^[m] (Program.optimize^[n] p) = Program.optimize^[n] p := by
  refine ⟨p.shrinks_optimize, ?_⟩
  obtain ⟨n, hn, hfix⟩ := Shrinks.exists_iterate Program.shrinks_optimize p
  exact ⟨n, hn, fun m => Function.iterate_fixed hfix m⟩

-- One pass is not always enough: `(x + 1) + -1` becomes `x + 0` first.
example :
    let x := Expr.identifier ⟨{}, ascii "x", .number, false⟩
    let sum := Expr.binary {} .add (.binary {} .add x (.number {} (.ofNat 1)) .number)
      (.number {} (Number.ofNat 1).neg) .number
    sum.optimize = .binary {} .add x (.number {} (.zero false)) .number ∧
      sum.optimize.optimize = x := by
  decide +kernel

end Roar
