import Roar.Proofs.Optimize.Rules
import Roar.Proofs.Scoping.References

/-!
# References in a simplified program

Simplifying leaves references out and adds none (`Expr.references_optimize`,
`Stmt.references_optimizeList`), and the declarations among the simplified statements are
declarations of the source (`Stmt.mem_declarations_optimize`).
-/

namespace Roar

open Optimize

/-! ## Expressions -/

section Expressions

variable {loc : Location} {left right s : Expr} {type : ValueType}

theorem references_decideWith (neutral value : Bool) (e : Expr) :
    (decideWith loc neutral value e).references ⊆ e.references := by
  unfold decideWith
  split
  · exact List.Subset.refl _
  · exact List.nil_subset _

theorem Optimize.Simplifies.references {op : BinaryOp} {rule : Rule}
    (h : Simplifies loc op left right type rule s) :
    s.references ⊆ left.references ++ right.references := by
  cases h with
  | compute => exact List.nil_subset _
  | join => exact List.nil_subset _
  | truthLeft => exact List.subset_append_of_subset_right _ (references_decideWith _ _ _)
  | truthRight => exact List.subset_append_of_subset_left _ (references_decideWith _ _ _)
  | nothingRight => exact List.nil_subset _
  | nothingLeft => exact List.nil_subset _
  | _ => simp [Expr.references]

theorem references_simplifyCompare (op : CompareOp) :
    (simplifyCompare loc op left right).references ⊆ left.references ++ right.references := by
  unfold simplifyCompare
  simp only
  split
  · exact List.nil_subset _
  · split
    · exact List.nil_subset _
    · exact List.Subset.refl _

theorem references_simplifyUnary (op : UnaryOp) (operand : Expr) :
    (simplifyUnary loc op operand type).references ⊆ operand.references := by
  unfold simplifyUnary
  split
  · exact List.nil_subset _
  · exact List.nil_subset _
  · exact List.Subset.refl _
  · exact List.Subset.refl _

theorem references_simplifyCall (callee : Bytes) (args : List Expr) (builtin : Bool) :
    (simplifyCall loc callee args type builtin).references ⊆
      (Expr.call loc callee args type builtin).references := by
  unfold simplifyCall
  simp only
  split
  · exact List.nil_subset _
  · exact List.Subset.refl _

theorem references_simplifyEmbedded (value : Expr) :
    (simplifyEmbedded value).references ⊆ value.references := by
  unfold simplifyEmbedded
  split
  · exact List.nil_subset _
  · exact List.Subset.refl _

theorem references_simplifyString (loc : Location) (pieces simplified : List Segment) :
    (simplifyString loc pieces simplified).references = Segment.referencesList simplified := by
  rcases simplifyString_cases loc pieces simplified with h | h
  · rw [h]
    rfl
  · rw [h, Expr.references_interpolate]

theorem append_subset_append {α : Type} {a b c d : List α} (h : a ⊆ c) (h' : b ⊆ d) :
    a ++ b ⊆ c ++ d :=
  List.append_subset.mpr
    ⟨List.subset_append_of_subset_left _ h, List.subset_append_of_subset_right _ h'⟩

mutual

/-- A simplified expression has no other references. -/
theorem Expr.references_optimize : (e : Expr) → e.optimize.references ⊆ e.references
  | .number .. | .string .. | .boolean .. | .identifier _ => List.Subset.refl _
  | .interpolated loc segments => by
    rw [Expr.optimize, references_simplifyString]
    exact Segment.references_optimizeList segments
  | .binary _ _ left right _ => by
    rw [Expr.optimize]
    exact List.Subset.trans (simplifyBinary_simplifies ..).references
      (append_subset_append left.references_optimize right.references_optimize)
  | .compare _ _ left right => by
    rw [Expr.optimize]
    exact List.Subset.trans (references_simplifyCompare _)
      (append_subset_append left.references_optimize right.references_optimize)
  | .unary _ _ operand _ => by
    rw [Expr.optimize]
    exact List.Subset.trans (references_simplifyUnary _ _) operand.references_optimize
  | .call _ _ args _ _ => by
    rw [Expr.optimize]
    exact List.Subset.trans (references_simplifyCall _ _ _)
      (append_subset_append (List.Subset.refl _) (Expr.references_optimizeList args))
  | .range _ bound => bound.references_optimize

theorem Expr.references_optimizeList :
    (es : List Expr) → Expr.referencesList (Expr.optimizeList es) ⊆ Expr.referencesList es
  | [] => List.Subset.refl _
  | e :: es => append_subset_append e.references_optimize (Expr.references_optimizeList es)

theorem Segment.references_optimizeList : (ss : List Segment) →
    Segment.referencesList (Segment.optimizeList ss) ⊆ Segment.referencesList ss
  | [] => List.Subset.refl _
  | .text _ :: ss => append_subset_append (List.Subset.refl _) (Segment.references_optimizeList ss)
  | .embedded e :: ss =>
    append_subset_append (List.Subset.trans (references_simplifyEmbedded _) e.references_optimize)
      (Segment.references_optimizeList ss)

end

theorem Expr.names_optimize (e : Expr) : e.optimize.names ⊆ e.names :=
  List.map_subset _ e.references_optimize

theorem assignsItself_eq_true {target : Identifier} {value : Expr}
    (h : assignsItself target value = true) :
    ∃ id, value = .identifier id ∧ id.name = target.name := by
  unfold assignsItself at h
  split at h
  · exact ⟨_, rfl, beq_iff_eq.mp h⟩
  · cases h

/-- The target of an assignment of a name to itself is among the names of its value. -/
theorem mem_names_of_assignsItself {target : Identifier} {value : Expr}
    (h : assignsItself target value.optimize = true) : target.name ∈ value.names := by
  obtain ⟨id, hid, hname⟩ := assignsItself_eq_true h
  apply value.names_optimize
  rw [hid, ← hname]
  exact List.mem_singleton_self _

end Expressions

/-! ## Statements -/

section Statements

variable {Γ : Scopes Declaration}

theorem Stmt.referencesList_append (ss ts : List Stmt) :
    Stmt.referencesList (ss ++ ts) = Stmt.referencesList ss ++ Stmt.referencesList ts := by
  induction ss with
  | nil => rfl
  | cons s ss ih =>
    rw [List.cons_append, Stmt.referencesList, Stmt.referencesList, ih, List.append_assoc]

theorem Stmt.resolvedList_singleton (s : Stmt) : Stmt.resolvedList Γ [s] = s.resolved Γ :=
  List.append_nil _

/-- What is done when a condition is false has the same references where it stands alone. -/
theorem resolvedList_alternateStmts (a : Alternate) :
    Stmt.resolvedList Γ (alternateStmts a) = a.resolved Γ := by
  cases a with
  | none => rfl
  | block _ body => exact (Stmt.resolvedList_push body).symm
  | branch => exact Stmt.resolvedList_singleton _

theorem resolved_alternateOf (loc : Location) (ss : List Stmt) :
    (alternateOf loc ss).resolved Γ = Stmt.resolvedList Γ ss := by
  rw [← resolvedList_alternateStmts, alternateStmts_alternateOf]

/-- The references of a simplified conditional come from its simplified parts. -/
theorem Optimize.Branches.mem_resolved {loc thenLoc : Location} {condition : Expr}
    {thenBody ss : List Stmt} {alternate : Alternate}
    (h : Branches loc condition thenLoc thenBody alternate ss)
    {b : Reference × Option Declaration} (hb : b ∈ Stmt.resolvedList Γ ss) :
    b ∈ (Stmt.branch loc condition thenLoc thenBody alternate).resolved Γ := by
  simp only [Stmt.resolved, List.mem_append]
  cases h with
  | @known _ _ value =>
    cases value with
    | true => exact .inl (.inr (by rwa [Stmt.resolvedList_push]))
    | false => exact .inr (by rwa [← resolvedList_alternateStmts])
  | empty => cases hb
  | turned =>
    simp only [Stmt.resolvedList_singleton, Stmt.resolved, List.mem_append] at hb
    exact (hb.imp_left Or.symm).elim (fun h => h.elim (fun h => .inr h) fun h => .inl (.inl h))
      fun h => .inl (.inr h)
  | kept =>
    simpa only [Stmt.resolvedList_singleton, Stmt.resolved, List.mem_append] using hb

theorem Optimize.Branches.references {loc thenLoc : Location} {condition : Expr}
    {thenBody ss : List Stmt} {alternate : Alternate}
    (h : Branches loc condition thenLoc thenBody alternate ss) :
    Stmt.referencesList ss ⊆
      (Stmt.branch loc condition thenLoc thenBody alternate).references := by
  intro r hr
  rw [← Stmt.map_fst_resolvedList []] at hr
  rw [← Stmt.map_fst_resolved []]
  obtain ⟨b, hb, rfl⟩ := List.mem_map.mp hr
  exact List.mem_map_of_mem (h.mem_resolved hb)

theorem references_alternateOf (loc : Location) (ss : List Stmt) :
    (alternateOf loc ss).references = Stmt.referencesList ss := by
  rw [← Alternate.map_fst_resolved [], resolved_alternateOf, Stmt.map_fst_resolvedList]

mutual

/-- A simplified statement has no other references. -/
theorem Stmt.references_optimize : (s : Stmt) → Stmt.referencesList s.optimize ⊆ s.references
  | .block _ body => by
    rw [Stmt.optimize, Stmt.referencesList, Stmt.referencesList, List.append_nil]
    exact Stmt.references_optimizeList body
  | .assign _ target value _ => by
    rw [Stmt.optimize, simplifyAssign]
    split
    · exact List.nil_subset _
    · rw [Stmt.referencesList, Stmt.referencesList, List.append_nil]
      exact append_subset_append value.references_optimize (List.Subset.refl _)
  | .print _ value | .serve _ value | .expression _ value => by
    rw [Stmt.optimize, Stmt.referencesList, Stmt.referencesList, List.append_nil]
    exact value.references_optimize
  | .function _ _ _ _ body _ => by
    rw [Stmt.optimize, Stmt.referencesList, Stmt.referencesList, List.append_nil]
    exact Stmt.references_optimizeList body
  | .branch _ condition _ thenBody alternate => by
    rw [Stmt.optimize]
    exact List.Subset.trans (simplifyBranch_branches ..).references
      (append_subset_append
        (append_subset_append condition.references_optimize (Stmt.references_optimizeList thenBody))
        alternate.references_optimize)
  | .loop _ _ _ bound _ body => by
    rw [Stmt.optimize, simplifyLoop]
    split
    · exact List.nil_subset _
    · rw [Stmt.referencesList, Stmt.referencesList, List.append_nil]
      exact append_subset_append bound.references_optimize (Stmt.references_optimizeList body)
  | .leave _ | .comment .. => List.Subset.refl _

theorem Alternate.references_optimize : (a : Alternate) → a.optimize.references ⊆ a.references
  | .none => List.Subset.refl _
  | .block _ body => Stmt.references_optimizeList body
  | .branch _ condition _ thenBody alternate => by
    rw [Alternate.optimize, references_alternateOf]
    exact List.Subset.trans (simplifyBranch_branches ..).references
      (append_subset_append
        (append_subset_append condition.references_optimize (Stmt.references_optimizeList thenBody))
        alternate.references_optimize)

theorem Stmt.references_optimizeList :
    (ss : List Stmt) → Stmt.referencesList (Stmt.optimizeList ss) ⊆ Stmt.referencesList ss
  | [] => List.Subset.refl _
  | s :: ss => by
    rw [Stmt.optimizeList, Stmt.referencesList_append]
    exact append_subset_append s.references_optimize (Stmt.references_optimizeList ss)

end

/-- A reference of simplified statements has a meaning in the source as well, maybe another one. -/
theorem Stmt.exists_mem_resolvedList_of_optimize {Γ Δ : Scopes Declaration} {ss : List Stmt}
    {r : Reference} {o : Option Declaration}
    (h : (r, o) ∈ Stmt.resolvedList Δ (Stmt.optimizeList ss)) :
    ∃ o', (r, o') ∈ Stmt.resolvedList Γ ss := by
  have hsource : r ∈ Stmt.referencesList ss := by
    apply Stmt.references_optimizeList ss
    rw [← Stmt.map_fst_resolvedList]
    exact List.mem_map_of_mem h
  rw [← Stmt.map_fst_resolvedList Γ] at hsource
  obtain ⟨⟨_, o'⟩, ho, rfl⟩ := List.mem_map.mp hsource
  exact ⟨o', ho⟩

/-! ## Declarations among the simplified statements -/

/-- A declaration among some statements, not in a block of them. -/
def DeclaredBy (ss : List Stmt) (d : Declaration) : Prop := ∃ s ∈ ss, s.declared? = some d

theorem DeclaredBy.of_append {ss ts : List Stmt} {d : Declaration} (h : DeclaredBy (ss ++ ts) d) :
    DeclaredBy ss d ∨ DeclaredBy ts d := by
  obtain ⟨s, hs, hd⟩ := h
  exact (List.mem_append.mp hs).imp (fun h => ⟨s, h, hd⟩) fun h => ⟨s, h, hd⟩

/-- A conditional that becomes one declares nothing; else its block does. -/
theorem Optimize.Branches.declaredBy {loc thenLoc : Location} {condition : Expr}
    {thenBody ss : List Stmt} {alternate : Alternate} {d : Declaration}
    (h : Branches loc condition thenLoc thenBody alternate ss) (hd : DeclaredBy ss d) :
    DeclaredBy thenBody d ∨ DeclaredBy (alternateStmts alternate) d := by
  cases h with
  | @known _ _ value =>
    cases value with
    | true => exact .inl hd
    | false => exact .inr hd
  | empty =>
    obtain ⟨s, hs, -⟩ := hd
    cases hs
  | turned =>
    obtain ⟨s, hs, hd⟩ := hd
    rw [List.mem_singleton.mp hs] at hd
    cases hd
  | kept =>
    obtain ⟨s, hs, hd⟩ := hd
    rw [List.mem_singleton.mp hs] at hd
    cases hd

mutual

/-- What simplified statements declare is declared in the source. -/
theorem Stmt.mem_declarations_optimize {d : Declaration} :
    (s : Stmt) → DeclaredBy s.optimize d → d ∈ s.declarations
  | .assign _ _ _ true, ⟨t, ht, hd⟩ => by
    rw [Stmt.optimize, simplifyAssign] at ht
    split at ht
    · cases ht
    · rw [List.mem_singleton.mp ht] at hd
      exact Stmt.mem_declarations_of_declared? hd
  | .assign _ _ _ false, ⟨t, ht, hd⟩ => by
    rw [Stmt.optimize, simplifyAssign] at ht
    split at ht
    · cases ht
    · rw [List.mem_singleton.mp ht] at hd
      cases hd
  | .function .., ⟨t, ht, hd⟩ => by
    rw [List.mem_singleton.mp ht] at hd
    cases hd
    exact .head _
  | .branch _ _ _ thenBody alternate, h => by
    rw [Stmt.optimize] at h
    rw [Stmt.declarations, List.mem_append]
    exact ((simplifyBranch_branches ..).declaredBy h).imp
      (Stmt.mem_declarations_optimizeList thenBody) alternate.mem_declarations_optimize
  | .loop _ _ _ _ _ _, ⟨t, ht, hd⟩ => by
    rw [Stmt.optimize, simplifyLoop] at ht
    split at ht
    · cases ht
    · rw [List.mem_singleton.mp ht] at hd
      cases hd
  | .block .., ⟨t, ht, hd⟩ | .print .., ⟨t, ht, hd⟩ | .serve .., ⟨t, ht, hd⟩
  | .expression .., ⟨t, ht, hd⟩ | .leave _, ⟨t, ht, hd⟩ | .comment .., ⟨t, ht, hd⟩ => by
    rw [List.mem_singleton.mp ht] at hd
    cases hd

theorem Alternate.mem_declarations_optimize {d : Declaration} :
    (a : Alternate) → DeclaredBy (alternateStmts a.optimize) d → d ∈ a.declarations
  | .none, ⟨_, ht, _⟩ => by cases ht
  | .block _ body, h => Stmt.mem_declarations_optimizeList body h
  | .branch _ _ _ thenBody alternate, h => by
    rw [Alternate.optimize, alternateStmts_alternateOf] at h
    rw [Alternate.declarations, List.mem_append]
    exact ((simplifyBranch_branches ..).declaredBy h).imp
      (Stmt.mem_declarations_optimizeList thenBody) alternate.mem_declarations_optimize

theorem Stmt.mem_declarations_optimizeList {d : Declaration} :
    (ss : List Stmt) → DeclaredBy (Stmt.optimizeList ss) d → d ∈ Stmt.declarationsList ss
  | [], ⟨_, ht, _⟩ => by cases ht
  | s :: ss, h => by
    rw [Stmt.declarationsList, List.mem_append]
    exact h.of_append.imp s.mem_declarations_optimize (Stmt.mem_declarations_optimizeList ss)

end

end Statements

end Roar
