import Roar.Proofs.Optimize.Rules
import Roar.Proofs.Program.Nodes

/-!
# The nodes of a simplified program

A rule makes few nodes of its own: what comes out of it has the nodes of the parts, number literals
and its own root. So a property that all number literals have holds for all nodes of what a rule
makes, once it holds for the nodes of the parts and for the root (`Simplifies.forall_nodes` and its
neighbours).

Of statements only conditionals make a node, when they are turned round. The properties of simplified
expressions are therefore those of the expressions of a simplified program
(`Program.forall_nodes_optimize`), also if they speak of the nodes that the program had before
(`Program.forall_nodes_optimize_within`).
-/

namespace Roar

open Optimize

variable {P : Expr → Prop}

/-! ## Expressions -/

section Expressions

variable {loc : Location} {left right s : Expr} {type : ValueType}

theorem forall_nodes_decideWith {other : Expr} {neutral value : Bool}
    (hother : ∀ n ∈ other.nodes, P n) (hs : P (decideWith loc neutral value other)) :
    ∀ n ∈ (decideWith loc neutral value other).nodes, P n := by
  unfold decideWith at hs ⊢
  split at hs
  · rename_i hv
    rw [if_pos hv]
    exact hother
  · rename_i hv
    rw [if_neg hv]
    exact List.forall_mem_singleton.mpr hs

theorem Optimize.Simplifies.forall_nodes {op : BinaryOp} {rule : Rule}
    (h : Simplifies loc op left right type rule s) (hnumber : ∀ l x, P (.number l x))
    (hl : ∀ n ∈ left.nodes, P n) (hr : ∀ n ∈ right.nodes, P n) (hs : P s) :
    ∀ n ∈ s.nodes, P n := by
  have hleaf (l : Location) (x : Number) : ∀ n ∈ (Expr.number l x).nodes, P n :=
    List.forall_mem_singleton.mpr (hnumber l x)
  cases h with
  | compute | join | nothingRight | nothingLeft => exact List.forall_mem_singleton.mpr hs
  | truthLeft => exact forall_nodes_decideWith hr hs
  | truthRight => exact forall_nodes_decideWith hl hs
  | zeroRight | oneRight => exact hl
  | zeroLeft | oneLeft => exact hr
  | regroup =>
    have hx := (List.forall_mem_append.mp (List.forall_mem_cons.mp hl).2).1
    exact List.forall_mem_cons.mpr ⟨hs, List.forall_mem_append.mpr ⟨hx, hleaf _ _⟩⟩
  | shlRight | shr =>
    exact List.forall_mem_cons.mpr ⟨hs, List.forall_mem_append.mpr ⟨hl, hleaf _ _⟩⟩
  | shlLeft => exact List.forall_mem_cons.mpr ⟨hs, List.forall_mem_append.mpr ⟨hr, hleaf _ _⟩⟩
  | stay => exact List.forall_mem_cons.mpr ⟨hs, List.forall_mem_append.mpr ⟨hl, hr⟩⟩

/-- A comparison stays, or is a truth value. -/
theorem simplifyCompare_cases (loc : Location) (op : CompareOp) (left right : Expr) :
    (∃ b, simplifyCompare loc op left right = .boolean loc b) ∨
      simplifyCompare loc op left right = .compare loc op left right ∧
        literalOutcome? op left right = none ∧ left.same right = false := by
  rw [simplifyCompare_eq]
  cases h : literalOutcome? op left right with
  | some outcome => exact .inl ⟨outcome, rfl⟩
  | none =>
    cases hsame : left.same right with
    | true => exact .inl ⟨compareSame op, rfl⟩
    | false => exact .inr ⟨rfl, rfl, rfl⟩

theorem forall_nodes_simplifyCompare {op : CompareOp} (hl : ∀ n ∈ left.nodes, P n)
    (hr : ∀ n ∈ right.nodes, P n) (hs : P (simplifyCompare loc op left right)) :
    ∀ n ∈ (simplifyCompare loc op left right).nodes, P n := by
  rcases simplifyCompare_cases loc op left right with ⟨b, h⟩ | ⟨h, -⟩
  · rw [h] at hs ⊢
    exact List.forall_mem_singleton.mpr hs
  · rw [h] at hs ⊢
    exact List.forall_mem_cons.mpr ⟨hs, List.forall_mem_append.mpr ⟨hl, hr⟩⟩

theorem forall_nodes_simplifyUnary {op : UnaryOp} {operand : Expr}
    (ho : ∀ n ∈ operand.nodes, P n) (hs : P (simplifyUnary loc op operand type)) :
    ∀ n ∈ (simplifyUnary loc op operand type).nodes, P n := by
  unfold simplifyUnary at hs ⊢
  split at hs
  · exact List.forall_mem_singleton.mpr hs
  · exact List.forall_mem_singleton.mpr hs
  · exact (List.forall_mem_cons.mp ho).2
  · exact List.forall_mem_cons.mpr ⟨hs, ho⟩

/-- A call stays, or is the number that a built-in function gives for one. -/
theorem simplifyCall_cases (loc : Location) (callee : Bytes) (args : List Expr) (type : ValueType)
    (builtin : Bool) :
    (∃ l x value, builtin = true ∧ args = [.number l x] ∧ builtinValue? callee x = some value ∧
        simplifyCall loc callee args type builtin = .number loc value) ∨
      simplifyCall loc callee args type builtin = .call loc callee args type builtin ∧
        ∀ l x, builtin = true → args = [.number l x] → builtinValue? callee x = none := by
  unfold simplifyCall
  split
  · rename_i l x
    cases h : builtinValue? callee x with
    | some value => exact .inl ⟨l, x, value, rfl, rfl, h, rfl⟩
    | none =>
      refine .inr ⟨rfl, fun l' x' _ hargs => ?_⟩
      cases hargs
      exact h
  · rename_i hargs
    exact .inr ⟨rfl, fun l x hb ha => absurd ha (hargs l x hb)⟩

theorem forall_nodes_simplifyCall {callee : Bytes} {args : List Expr} {builtin : Bool}
    (ha : ∀ n ∈ Expr.nodesList args, P n) (hs : P (simplifyCall loc callee args type builtin)) :
    ∀ n ∈ (simplifyCall loc callee args type builtin).nodes, P n := by
  rcases simplifyCall_cases loc callee args type builtin with ⟨_, _, value, -, -, -, h⟩ | ⟨h, -⟩
  · rw [h] at hs ⊢
    exact List.forall_mem_singleton.mpr hs
  · rw [h] at hs ⊢
    exact List.forall_mem_cons.mpr ⟨hs, ha⟩

theorem forall_nodes_interpolate {ss : List Segment} (h : ∀ n ∈ Segment.nodesList ss, P n)
    (hs : P (.interpolate loc ss)) : ∀ n ∈ (Expr.interpolate loc ss).nodes, P n := by
  rw [← Segment.nodesList_merge] at h
  unfold Expr.interpolate at hs ⊢
  split at hs
  · exact List.forall_mem_singleton.mpr hs
  · exact List.forall_mem_singleton.mpr hs
  · exact List.forall_mem_cons.mpr ⟨hs, h⟩

theorem forall_nodes_simplifyString {pieces simplified : List Segment}
    (h : ∀ n ∈ Segment.nodesList simplified, P n) (hs : P (simplifyString loc pieces simplified)) :
    ∀ n ∈ (simplifyString loc pieces simplified).nodes, P n := by
  rcases simplifyString_cases loc pieces simplified with heq | heq
  · rw [heq] at hs ⊢
    exact List.forall_mem_cons.mpr ⟨hs, h⟩
  · rw [heq] at hs ⊢
    exact forall_nodes_interpolate h hs

theorem forall_nodes_simplifyEmbedded {e : Expr} {rest : List Segment}
    (he : ∀ n ∈ e.nodes, P n) (hrest : ∀ n ∈ Segment.nodesList rest, P n) :
    ∀ n ∈ Segment.nodesList (simplifyEmbedded e :: rest), P n := by
  unfold simplifyEmbedded
  split
  · exact hrest
  · exact List.forall_mem_append.mpr ⟨he, hrest⟩

end Expressions

/-! ## Statements -/

section Statements

variable {loc thenLoc : Location} {condition : Expr} {thenBody out : List Stmt}
  {alternate : Alternate}

theorem nodesList_alternateStmts (a : Alternate) :
    Stmt.nodesList (alternateStmts a) = a.nodes := by
  cases a with
  | none => rfl
  | block loc body => rfl
  | branch => exact List.append_nil _

theorem nodes_alternateOf (loc : Location) (ss : List Stmt) :
    (alternateOf loc ss).nodes = Stmt.nodesList ss := by
  rw [← nodesList_alternateStmts, alternateStmts_alternateOf]

/-- A conditional that is turned round asks for equality instead. -/
theorem Optimize.Branches.forall_nodes (h : Branches loc condition thenLoc thenBody alternate out)
    (hturn : ∀ {l a b}, P (.compare l .ne a b) → P (.compare l .eq a b))
    (hc : ∀ n ∈ condition.nodes, P n) (ht : ∀ n ∈ Stmt.nodesList thenBody, P n)
    (ha : ∀ n ∈ alternate.nodes, P n) : ∀ n ∈ Stmt.nodesList out, P n := by
  cases h with
  | known =>
    split
    · exact ht
    · rw [nodesList_alternateStmts]
      exact ha
  | empty => exact List.forall_mem_nil P
  | turned =>
    obtain ⟨hroot, hparts⟩ := List.forall_mem_cons.mp hc
    have hc' := List.forall_mem_cons.mpr ⟨hturn hroot, hparts⟩
    simp only [Stmt.nodesList, Stmt.nodes, List.append_nil, List.forall_mem_append]
    exact ⟨⟨hc', ha⟩, ht⟩
  | kept =>
    simp only [Stmt.nodesList, Stmt.nodes, List.append_nil, List.forall_mem_append]
    exact ⟨⟨hc, ht⟩, ha⟩

theorem forall_nodes_simplifyAssign {target : Identifier} {value : Expr} {declares : Bool}
    (hid : ∀ n ∈ (Expr.identifier target).nodes, P n) (hv : ∀ n ∈ value.nodes, P n) :
    ∀ n ∈ Stmt.nodesList (simplifyAssign loc target value declares), P n := by
  unfold simplifyAssign
  split
  · exact List.forall_mem_nil P
  · simp only [Stmt.nodesList, Stmt.nodes, List.append_nil]
    exact List.forall_mem_append.mpr ⟨hid, hv⟩

theorem forall_nodes_simplifyLoop {counter : Identifier} {rangeLoc bodyLoc : Location}
    {bound : Expr} {body : List Stmt} (hid : ∀ n ∈ (Expr.identifier counter).nodes, P n)
    (hrange : ∀ n ∈ (Expr.range rangeLoc bound).nodes, P n)
    (hb : ∀ n ∈ Stmt.nodesList body, P n) :
    ∀ n ∈ Stmt.nodesList (simplifyLoop loc counter rangeLoc bound bodyLoc body), P n := by
  unfold simplifyLoop
  split
  · exact List.forall_mem_nil P
  · simp only [Stmt.nodesList, Stmt.nodes, List.append_nil]
    exact List.forall_mem_append.mpr ⟨hid, List.forall_mem_append.mpr ⟨hrange, hb⟩⟩

end Statements

section Programs

variable {nodes : List Expr}

/-- Holds for the nodes of all simplified expressions that are made of these nodes, and for an `==` in
place of a `!=`. -/
structure Optimize.HoldsWithin (nodes : List Expr) (P : Expr → Prop) : Prop where
  simplified (e : Expr) : e.nodes ⊆ nodes → ∀ n ∈ e.optimize.nodes, P n
  turned {loc : Location} {left right : Expr} :
    P (.compare loc .ne left right) → P (.compare loc .eq left right)

mutual

theorem Stmt.forall_nodes_optimize (h : HoldsWithin nodes P) :
    (s : Stmt) → s.nodes ⊆ nodes → ∀ n ∈ Stmt.nodesList s.optimize, P n
  | .block _ body, hs | .function _ _ _ _ body _, hs => by
    simpa only [Stmt.optimize, Stmt.nodesList, Stmt.nodes, List.append_nil]
      using Stmt.forall_nodes_optimizeList h body hs
  | .assign _ target value _, hs =>
    have ⟨htarget, hvalue⟩ := List.append_subset.mp hs
    forall_nodes_simplifyAssign (h.simplified (.identifier target) htarget)
      (h.simplified value hvalue)
  | .print _ value, hs | .serve _ value, hs | .expression _ value, hs => by
    simpa only [Stmt.optimize, Stmt.nodesList, Stmt.nodes, List.append_nil]
      using h.simplified value hs
  | .branch _ condition _ thenBody alternate, hs =>
    have ⟨hfront, halternate⟩ := List.append_subset.mp hs
    have ⟨hcondition, hthen⟩ := List.append_subset.mp hfront
    (simplifyBranch_branches ..).forall_nodes h.turned (h.simplified condition hcondition)
      (Stmt.forall_nodes_optimizeList h thenBody hthen)
      (alternate.forall_nodes_optimize h halternate)
  | .loop _ counter rangeLoc bound _ body, hs =>
    have ⟨hcounter, hrest⟩ := List.append_subset.mp hs
    have ⟨hrange, hbody⟩ := List.append_subset.mp hrest
    forall_nodes_simplifyLoop (h.simplified (.identifier counter) hcounter)
      (h.simplified (.range rangeLoc bound) hrange) (Stmt.forall_nodes_optimizeList h body hbody)
  | .leave _, _ | .comment .., _ => List.forall_mem_nil P

theorem Alternate.forall_nodes_optimize (h : HoldsWithin nodes P) :
    (a : Alternate) → a.nodes ⊆ nodes → ∀ n ∈ a.optimize.nodes, P n
  | .none, _ => List.forall_mem_nil P
  | .block _ body, ha => Stmt.forall_nodes_optimizeList h body ha
  | .branch _ condition _ thenBody alternate, ha => by
    have ⟨hfront, halternate⟩ := List.append_subset.mp ha
    have ⟨hcondition, hthen⟩ := List.append_subset.mp hfront
    rw [Alternate.optimize, nodes_alternateOf]
    exact (simplifyBranch_branches ..).forall_nodes h.turned (h.simplified condition hcondition)
      (Stmt.forall_nodes_optimizeList h thenBody hthen)
      (alternate.forall_nodes_optimize h halternate)

theorem Stmt.forall_nodes_optimizeList (h : HoldsWithin nodes P) :
    (ss : List Stmt) → Stmt.nodesList ss ⊆ nodes →
      ∀ n ∈ Stmt.nodesList (Stmt.optimizeList ss), P n
  | [], _ => List.forall_mem_nil P
  | s :: ss, hss => by
    have ⟨hs, hrest⟩ := List.append_subset.mp hss
    rw [Stmt.optimizeList, Stmt.nodesList_append]
    exact List.forall_mem_append.mpr
      ⟨s.forall_nodes_optimize h hs, Stmt.forall_nodes_optimizeList h ss hrest⟩

end

theorem Program.forall_nodes_optimize_within {p : Program} (h : HoldsWithin p.nodes P) :
    ∀ n ∈ p.optimize.nodes, P n :=
  Stmt.forall_nodes_optimizeList h p.statements (List.Subset.refl _)

/-- Holds for the nodes of all simplified expressions, and for an `==` in place of a `!=`. -/
structure Optimize.HoldsSimplified (P : Expr → Prop) : Prop where
  simplified (e : Expr) : ∀ n ∈ e.optimize.nodes, P n
  turned {loc : Location} {left right : Expr} :
    P (.compare loc .ne left right) → P (.compare loc .eq left right)

theorem Program.forall_nodes_optimize (h : HoldsSimplified P) (p : Program) :
    ∀ n ∈ p.optimize.nodes, P n :=
  forall_nodes_optimize_within ⟨fun e _ => h.simplified e, h.turned⟩

end Programs

end Roar
