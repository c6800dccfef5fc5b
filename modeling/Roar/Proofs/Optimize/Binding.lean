import Roar.Proofs.Optimize.References
import Roar.Proofs.Scoping.Analysis

/-!
# Which declarations a simplified program refers to

When the outcome of a condition is known, the statements of a block take the place of the
conditional, and what they declare lands in the scope around it. There it can capture a later
reference: a name of a function or of a built-in function may be declared again in a block, and
means the outer function after it.

* `Program.NoCapture`: no name that is moved out of a block in this way, and that has another
  meaning around it, is taken from there by what is left of the statements after the conditional.
* `noCapture_keepsBindings`: then every reference that survives and means a declaration of the
  program means the one that it means in the source.
* `keepsBindings_noCapture`: where declarations and references can be told apart by their places,
  this is the only way in which a reference can change its meaning.
-/

namespace Roar

open Optimize

/-! ## Names that move out of a block -/

/-- The names that a conditional declares in the scope that it stands in, once it is simplified. -/
def Stmt.spilled : Stmt → List Bytes
  | .branch loc condition thenLoc thenBody alternate =>
    declaredNames (Stmt.branch loc condition thenLoc thenBody alternate).optimize
  | _ => []

mutual

/-- In no list of statements that is kept, a name that moves out of a block captures a reference
after it. -/
def Stmt.NoCapture (Γ : Scopes Declaration) : Stmt → Prop
  | .block _ body => Stmt.NoCaptureList ([] :: Γ) body
  | .function loc name params _ body _ =>
    Stmt.NoCaptureList (paramScope loc params :: Scopes.bind name ⟨.function, name, loc⟩ Γ) body
  | .branch _ condition _ thenBody alternate =>
    (boolean? condition.optimize ≠ some false → Stmt.NoCaptureList ([] :: Γ) thenBody) ∧
      (boolean? condition.optimize ≠ some true → alternate.NoCapture Γ)
  | .loop _ counter _ bound _ body =>
    neverCounts bound.optimize = false → Stmt.NoCaptureList (counterScope counter :: Γ) body
  | .assign .. | .print .. | .serve .. | .leave _ | .comment .. | .expression .. => True

def Alternate.NoCapture (Γ : Scopes Declaration) : Alternate → Prop
  | .none => True
  | .block _ body => Stmt.NoCaptureList ([] :: Γ) body
  | .branch _ condition _ thenBody alternate =>
    (boolean? condition.optimize ≠ some false → Stmt.NoCaptureList ([] :: Γ) thenBody) ∧
      (boolean? condition.optimize ≠ some true → alternate.NoCapture Γ)

def Stmt.NoCaptureList (Γ : Scopes Declaration) : List Stmt → Prop
  | [] => True
  | s :: ss =>
    s.NoCapture Γ ∧
      (∀ x ∈ s.spilled, Scopes.lookup? Γ x ≠ none → x ∉ Stmt.freeList (Stmt.optimizeList ss)) ∧
      Stmt.NoCaptureList (s.extend Γ) ss

end

mutual

def Stmt.decideNoCapture (Γ : Scopes Declaration) : (s : Stmt) → Decidable (s.NoCapture Γ)
  | .block _ body => Stmt.decideNoCaptureList ([] :: Γ) body
  | .function loc name params _ body _ =>
    Stmt.decideNoCaptureList (paramScope loc params :: Scopes.bind name ⟨.function, name, loc⟩ Γ)
      body
  | .branch _ condition _ thenBody alternate =>
    have := Stmt.decideNoCaptureList ([] :: Γ) thenBody
    have := alternate.decideNoCapture Γ
    inferInstanceAs (Decidable ((boolean? condition.optimize ≠ some false → _) ∧
      (boolean? condition.optimize ≠ some true → _)))
  | .loop _ counter _ bound _ body =>
    have := Stmt.decideNoCaptureList (counterScope counter :: Γ) body
    inferInstanceAs (Decidable (neverCounts bound.optimize = false → _))
  | .assign .. | .print .. | .serve .. | .leave _ | .comment .. | .expression .. => .isTrue trivial

def Alternate.decideNoCapture (Γ : Scopes Declaration) :
    (a : Alternate) → Decidable (a.NoCapture Γ)
  | .none => .isTrue trivial
  | .block _ body => Stmt.decideNoCaptureList ([] :: Γ) body
  | .branch _ condition _ thenBody alternate =>
    have := Stmt.decideNoCaptureList ([] :: Γ) thenBody
    have := alternate.decideNoCapture Γ
    inferInstanceAs (Decidable ((boolean? condition.optimize ≠ some false → _) ∧
      (boolean? condition.optimize ≠ some true → _)))

def Stmt.decideNoCaptureList (Γ : Scopes Declaration) :
    (ss : List Stmt) → Decidable (Stmt.NoCaptureList Γ ss)
  | [] => .isTrue trivial
  | s :: ss =>
    have := s.decideNoCapture Γ
    have := Stmt.decideNoCaptureList (s.extend Γ) ss
    inferInstanceAs (Decidable (_ ∧
      (∀ x ∈ s.spilled, Scopes.lookup? Γ x ≠ none → x ∉ Stmt.freeList (Stmt.optimizeList ss)) ∧ _))

end

/-- No name that moves out of a block of the program captures a reference. -/
def Program.NoCapture (p : Program) : Prop := Stmt.NoCaptureList startScopes p.statements

instance (p : Program) : Decidable p.NoCapture := Stmt.decideNoCaptureList startScopes p.statements

/-- A reference that survives and means a declaration of the program means the same one in the
source. -/
def Program.KeepsBindings (p : Program) : Prop :=
  ∀ r d, (r, some d) ∈ p.optimize.resolved → d.IsUser → (r, some d) ∈ p.resolved

/-- The declarations of the program can be told apart, and its references as far as they have
different meanings. -/
def Program.Distinct (p : Program) : Prop :=
  (Stmt.declarationsList p.statements).Nodup ∧
    ∀ b ∈ p.resolved, ∀ b' ∈ p.resolved, b.1 = b'.1 → b = b'

instance (p : Program) : Decidable p.Distinct := inferInstanceAs (Decidable (_ ∧ _))

/-! ## Scopes of the source and of the simplified program -/

/-- What the second chain says a live name means, the first says as well. A name is dead where the
simplified program does not use it any more. -/
def Stands (dead : Bytes → Prop) (Γ Γ' : Scopes Declaration) : Prop :=
  ∀ x d, ¬ dead x → Scopes.lookup? Γ x ≠ none → Scopes.lookup? Γ' x = some d → d.IsUser →
    Scopes.lookup? Γ x = some d

namespace Stands

variable {dead : Bytes → Prop} {Γ Γ' : Scopes Declaration}

theorem enter (h : Stands dead Γ Γ') : Stands dead ([] :: Γ) Γ' := by
  intro x d
  rw [Scopes.lookup?_push]
  exact h x d

theorem cons (h : Stands dead Γ Γ') (f : List (Bytes × Declaration)) :
    Stands (fun x => dead x ∧ x ∉ f.map (·.1)) (f :: Γ) (f :: Γ') := by
  intro x d hx
  cases hf : f.lookup x with
  | some e =>
    rw [Scopes.lookup?_cons_some hf, Scopes.lookup?_cons_some hf]
    exact fun _ h _ => h
  | none =>
    rw [Scopes.lookup?_cons_none hf, Scopes.lookup?_cons_none hf]
    exact h x d fun hd => hx ⟨hd, Scopes.lookup_eq_none_iff.mp hf⟩

theorem push (h : Stands dead Γ Γ') : Stands dead ([] :: Γ) ([] :: Γ') := by
  intro x d
  rw [Scopes.lookup?_push, Scopes.lookup?_push]
  exact h x d

theorem bind (h : Stands dead Γ Γ') (x : Bytes) (e : Declaration) :
    Stands (fun y => dead y ∧ y ≠ x) (Scopes.bind x e Γ) (Scopes.bind x e Γ') := by
  intro y d hy
  rw [Scopes.lookup?_bind, Scopes.lookup?_bind]
  split
  · exact fun _ h _ => h
  · rename_i hne
    exact h y d fun hd => hy ⟨hd, hne⟩

theorem mono {dead' : Bytes → Prop} (h : Stands dead Γ Γ') (hd : ∀ x, dead x → dead' x) :
    Stands dead' Γ Γ' := fun x d hx => h x d fun hdx => hx (hd x hdx)

theorem mem_resolveAll {e : Expr} {r : Reference} {d : Declaration} (h : Stands dead Γ Γ')
    (hv : e.Visible Γ) (hdead : ∀ x ∈ e.optimize.names, ¬ dead x)
    (hr : (r, some d) ∈ resolveAll Γ' e.optimize.references) (hd : d.IsUser) :
    (r, some d) ∈ resolveAll Γ e.references := by
  obtain ⟨hr, hx⟩ := Roar.mem_resolveAll.mp hr
  have hsource := e.references_optimize hr
  exact Roar.mem_resolveAll.mpr
    ⟨hsource, h _ d (hdead _ (List.mem_map_of_mem hr)) (hv r hsource) hx hd⟩

end Stands

/-! ## What a statement leaves behind -/

/-- The dead names after a statement: a dead name that it declares is alive again, and a name that
moves out of a block over another meaning is dead. -/
def DeadAfter (dead : Bytes → Prop) (Γ : Scopes Declaration) (s : Stmt) (x : Bytes) : Prop :=
  dead x ∧ x ∉ declaredNames s.optimize ∨ x ∈ s.spilled ∧ Scopes.lookup? Γ x ≠ none

section After

variable {dead : Bytes → Prop} {Γ Γ' : Scopes Declaration}

/-- An assignment leaves both chains as they are, or adds the same name to both. One that declares a
name and is left out has a built-in function as its value, and the simplified program goes on to find
that. -/
theorem Stands.after_assign (h : Stands dead Γ Γ') (loc : Location) (target : Identifier)
    (value : Expr) (declares : Bool) (hw : (Stmt.assign loc target value declares).WellScoped Γ) :
    Stands (DeadAfter dead Γ (.assign loc target value declares))
      ((Stmt.assign loc target value declares).extend Γ)
      (Stmt.extendList Γ' (Stmt.assign loc target value declares).optimize) := by
  unfold DeadAfter
  rw [Stmt.optimize, simplifyAssign]
  split
  · rename_i hself
    have hkeep : Stands dead Γ (Stmt.extendList Γ' []) := h
    cases declares with
    | false => exact hkeep.mono fun x hx => .inl ⟨hx, List.not_mem_nil⟩
    | true =>
      intro x d hx hΓ hd huser
      change Scopes.lookup? (Scopes.bind target.name _ Γ) x ≠ none at hΓ
      change Scopes.lookup? (Scopes.bind target.name _ Γ) x = some d
      by_cases hne : x = target.name
      · -- the name is that of a built-in function in both chains
        subst hne
        have hvis := hw.1.of_mem_names (mem_names_of_assignsItself hself)
        have hlive : ¬ dead target.name := fun hdx => hx (.inl ⟨hdx, List.not_mem_nil⟩)
        exact absurd (hw.2 d (h _ d hlive hvis hd huser)) huser
      · rw [Scopes.lookup?_bind_ne hne] at hΓ ⊢
        exact h x d (fun hdx => hx (.inl ⟨hdx, List.not_mem_nil⟩)) hΓ hd huser
  · cases declares with
    | false => exact h.mono fun x hx => .inl ⟨hx, List.not_mem_nil⟩
    | true =>
      refine (h.bind target.name ⟨.assigned, target.name, target.loc⟩).mono
        fun x hx => .inl ⟨hx.1, ?_⟩
      simpa [declaredNames, Stmt.declared?] using hx.2

theorem Stands.after (h : Stands dead Γ Γ') :
    (s : Stmt) → s.WellScoped Γ →
      Stands (DeadAfter dead Γ s) (s.extend Γ) (Stmt.extendList Γ' s.optimize)
  | .assign loc target value declares, hw => h.after_assign loc target value declares hw
  | .function loc name params bodyLoc body returns, _ => by
    refine (h.bind name ⟨.function, name, loc⟩).mono fun x hx => .inl ⟨hx.1, ?_⟩
    simpa [Stmt.optimize, declaredNames, Stmt.declared?] using hx.2
  | .branch loc condition thenLoc thenBody alternate, _ => by
    intro x d hx hΓ hd huser
    have hnot : x ∉ declaredNames (Stmt.branch loc condition thenLoc thenBody alternate).optimize :=
      fun hmem => hx (.inr ⟨hmem, hΓ⟩)
    rw [lookup?_extendList_of_not_mem hnot] at hd
    exact h x d (fun hdx => hx (.inl ⟨hdx, hnot⟩)) hΓ hd huser
  | .loop .., _ => by
    unfold DeadAfter
    rw [Stmt.optimize, simplifyLoop]
    split
    all_goals exact h.mono fun x hx => .inl ⟨hx, List.not_mem_nil⟩
  | .block .., _ | .print .., _ | .serve .., _ | .leave _, _ | .comment .., _
  | .expression .., _ => h.mono fun x hx => .inl ⟨hx, List.not_mem_nil⟩

end After

/-! ## Sufficient -/

theorem Stmt.freeList_singleton (s : Stmt) : Stmt.freeList [s] = s.free := List.append_nil _

theorem freeList_alternateStmts (a : Alternate) : Stmt.freeList (alternateStmts a) = a.free := by
  cases a with
  | none => rfl
  | block => rfl
  | branch => exact Stmt.freeList_singleton _

theorem free_alternateOf (loc : Location) (ss : List Stmt) :
    (alternateOf loc ss).free = Stmt.freeList ss := by
  rw [← freeList_alternateStmts, alternateStmts_alternateOf]

/-- A reference of a simplified conditional stands in its condition or in a block that may be run. What
is free there is free in the conditional. -/
theorem Optimize.Branches.mem_cases {Γ : Scopes Declaration} {loc thenLoc : Location}
    {condition : Expr} {thenBody ss : List Stmt} {alternate : Alternate}
    {b : Reference × Option Declaration}
    (h : Branches loc condition thenLoc thenBody alternate ss) (hb : b ∈ Stmt.resolvedList Γ ss) :
    b ∈ resolveAll Γ condition.references ∧ condition.names ⊆ Stmt.freeList ss ∨
      (boolean? condition ≠ some false ∧
        b ∈ Stmt.resolvedList Γ thenBody ∧ Stmt.freeList thenBody ⊆ Stmt.freeList ss) ∨
      (boolean? condition ≠ some true ∧
        b ∈ alternate.resolved Γ ∧ alternate.free ⊆ Stmt.freeList ss) := by
  cases h with
  | @known _ _ value =>
    cases value with
    | true => exact .inr (.inl ⟨by simp [boolean?], hb, List.Subset.refl _⟩)
    | false =>
      simp only [Bool.false_eq_true, if_false, freeList_alternateStmts,
        resolvedList_alternateStmts] at hb ⊢
      exact .inr (.inr ⟨by simp [boolean?], hb, List.Subset.refl _⟩)
  | empty => cases hb
  | turned =>
    simp only [Stmt.resolvedList_singleton, Stmt.resolved, Alternate.resolved, List.mem_append] at hb
    simp only [Stmt.freeList_singleton, Stmt.free, Alternate.free]
    rcases hb with (hb | hb) | hb
    · exact .inl ⟨hb, fun x hx => List.mem_append_left _ (List.mem_append_left _ hx)⟩
    · exact .inr (.inr ⟨by simp [boolean?], hb,
        fun x hx => List.mem_append_left _ (List.mem_append_right _ hx)⟩)
    · rw [Stmt.resolvedList_push] at hb
      exact .inr (.inl ⟨by simp [boolean?], hb, fun x hx => List.mem_append_right _ hx⟩)
  | kept hc =>
    simp only [Stmt.resolvedList_singleton, Stmt.resolved, List.mem_append] at hb
    simp only [Stmt.freeList_singleton, Stmt.free]
    rcases hb with (hb | hb) | hb
    · exact .inl ⟨hb, fun x hx => List.mem_append_left _ (List.mem_append_left _ hx)⟩
    · rw [Stmt.resolvedList_push] at hb
      exact .inr (.inl ⟨by simp [hc], hb,
        fun x hx => List.mem_append_left _ (List.mem_append_right _ hx)⟩)
    · exact .inr (.inr ⟨by simp [hc], hb, fun x hx => List.mem_append_right _ hx⟩)

section Sufficient

variable {r : Reference} {d : Declaration}

/-- A simplified conditional, from what is known of its simplified blocks. -/
theorem Optimize.Branches.mem_source {dead : Bytes → Prop} {Γ Γ' : Scopes Declaration}
    {loc thenLoc : Location} {condition : Expr} {thenBody thenBody' ss : List Stmt}
    {alternate alternate' : Alternate}
    (hs : Branches loc condition.optimize thenLoc thenBody' alternate' ss) (h : Stands dead Γ Γ')
    (hv : condition.Visible Γ) (hfree : ∀ x ∈ Stmt.freeList ss, ¬ dead x) (hd : d.IsUser)
    (hthen : boolean? condition.optimize ≠ some false → (∀ x ∈ Stmt.freeList thenBody', ¬ dead x) →
      (r, some d) ∈ Stmt.resolvedList Γ' thenBody' →
        (r, some d) ∈ Stmt.resolvedList ([] :: Γ) thenBody)
    (helse : boolean? condition.optimize ≠ some true → (∀ x ∈ alternate'.free, ¬ dead x) →
      (r, some d) ∈ alternate'.resolved Γ' → (r, some d) ∈ alternate.resolved Γ)
    (hr : (r, some d) ∈ Stmt.resolvedList Γ' ss) :
    (r, some d) ∈ resolveAll Γ condition.references ++ Stmt.resolvedList ([] :: Γ) thenBody ++
      alternate.resolved Γ := by
  simp only [List.mem_append]
  rcases hs.mem_cases hr with ⟨hr, hn⟩ | ⟨hc, hr, hn⟩ | ⟨hc, hr, hn⟩
  · exact .inl (.inl (h.mem_resolveAll hv (fun x hx => hfree x (hn hx)) hr hd))
  · exact .inl (.inr (hthen hc (fun x hx => hfree x (hn hx)) hr))
  · exact .inr (helse hc (fun x hx => hfree x (hn hx)) hr)

mutual

/-- A reference of a simplified statement that means a declaration of the program means it in the
source. -/
theorem Stmt.mem_resolved_of_optimize {dead : Bytes → Prop} {Γ Γ' : Scopes Declaration}
    (h : Stands dead Γ Γ') (hd : d.IsUser) :
    (s : Stmt) → s.WellScoped Γ → s.NoCapture Γ → (∀ x ∈ Stmt.freeList s.optimize, ¬ dead x) →
      (r, some d) ∈ Stmt.resolvedList Γ' s.optimize → (r, some d) ∈ s.resolved Γ
  | .block _ body, hw, hn, hfree, hr => by
    rw [Stmt.optimize, Stmt.freeList_singleton] at hfree
    rw [Stmt.optimize, Stmt.resolvedList_singleton] at hr
    exact Stmt.mem_resolvedList_of_optimize h.push hd body hw hn hfree hr
  | .assign loc target value declares, hw, _, hfree, hr => by
    rw [Stmt.optimize, simplifyAssign] at hfree hr
    split at hr
    · cases hr
    · rename_i hself
      rw [if_neg hself, Stmt.freeList_singleton, Stmt.free] at hfree
      rw [Stmt.resolvedList_singleton, Stmt.resolved, List.mem_append] at hr
      refine List.mem_append.mpr (hr.imp (fun hr => ?_) fun hr => ?_)
      · exact h.mem_resolveAll hw.1 (fun x hx => hfree x (List.mem_append_left _ hx)) hr hd
      · obtain ⟨hr, hx⟩ := mem_resolveAll.mp hr
        refine mem_resolveAll.mpr ⟨hr, ?_⟩
        obtain rfl := List.mem_singleton.mp hr
        cases declares with
        | true =>
          rw [← hx]
          exact (Scopes.lookup?_bind_self ..).trans (Scopes.lookup?_bind_self ..).symm
        | false =>
          obtain ⟨e, he, -⟩ := hw.2
          have hlive := hfree target.name (List.mem_append_right _ (.head _))
          exact h target.name d hlive (by simp [he]) hx hd
  | .print _ value, hw, _, hfree, hr | .serve _ value, hw, _, hfree, hr
  | .expression _ value, hw, _, hfree, hr => by
    rw [Stmt.optimize, Stmt.freeList_singleton] at hfree
    rw [Stmt.optimize, Stmt.resolvedList_singleton] at hr
    exact h.mem_resolveAll hw hfree hr hd
  | .function loc name params _ body _, hw, hn, hfree, hr => by
    rw [Stmt.optimize, Stmt.freeList_singleton] at hfree
    rw [Stmt.optimize, Stmt.resolvedList_singleton] at hr
    refine Stmt.mem_resolvedList_of_optimize ((h.bind _ _).cons _) hd body hw hn
      (fun x hx hdead => ?_) hr
    refine hfree x ?_ hdead.1.1
    have hparams : x ∉ params := by simpa [paramScope] using hdead.2
    simp [Stmt.free, hx, hdead.1.2, hparams]
  | .branch _ condition _ thenBody alternate, hw, hn, hfree, hr => by
    rw [Stmt.optimize] at hfree hr
    exact (simplifyBranch_branches ..).mem_source h hw.1 hfree hd
      (fun hc => Stmt.mem_resolvedList_of_optimize h.enter hd thenBody hw.2.1 (hn.1 hc))
      (fun hc => Alternate.mem_resolved_of_optimize h hd alternate hw.2.2 (hn.2 hc)) hr
  | .loop _ counter _ bound _ body, hw, hn, hfree, hr => by
    rw [Stmt.optimize, simplifyLoop] at hfree hr
    split at hr
    · cases hr
    · rename_i hkeep
      simp only [Bool.or_eq_true, not_or, Bool.not_eq_true] at hkeep
      simp only [hkeep.1, hkeep.2, Bool.or_self, Bool.false_eq_true, if_false,
        Stmt.freeList_singleton, Stmt.free, List.mem_append, List.mem_filter] at hfree
      rw [Stmt.resolvedList_singleton, Stmt.resolved, List.mem_append] at hr
      refine List.mem_append.mpr (hr.imp (fun hr => ?_) fun hr => ?_)
      · exact h.mem_resolveAll hw.1 (fun x hx => hfree x (.inl hx)) hr hd
      · refine Stmt.mem_resolvedList_of_optimize (h.cons _) hd body hw.2 (hn hkeep.1)
          (fun x hx hdead => ?_) hr
        refine hfree x (.inr ⟨hx, ?_⟩) hdead.1
        simpa [counterScope] using hdead.2
  | .leave _, _, _, _, hr | .comment .., _, _, _, hr => by cases hr

theorem Alternate.mem_resolved_of_optimize {dead : Bytes → Prop} {Γ Γ' : Scopes Declaration}
    (h : Stands dead Γ Γ') (hd : d.IsUser) :
    (a : Alternate) → a.WellScoped Γ → a.NoCapture Γ → (∀ x ∈ a.optimize.free, ¬ dead x) →
      (r, some d) ∈ a.optimize.resolved Γ' → (r, some d) ∈ a.resolved Γ
  | .none, _, _, _, hr => by cases hr
  | .block _ body, hw, hn, hfree, hr =>
    Stmt.mem_resolvedList_of_optimize h.push hd body hw hn hfree hr
  | .branch _ condition _ thenBody alternate, hw, hn, hfree, hr => by
    rw [Alternate.optimize, free_alternateOf] at hfree
    rw [Alternate.optimize, resolved_alternateOf] at hr
    exact (simplifyBranch_branches ..).mem_source h hw.1 hfree hd
      (fun hc => Stmt.mem_resolvedList_of_optimize h.enter hd thenBody hw.2.1 (hn.1 hc))
      (fun hc => Alternate.mem_resolved_of_optimize h hd alternate hw.2.2 (hn.2 hc)) hr

theorem Stmt.mem_resolvedList_of_optimize {dead : Bytes → Prop} {Γ Γ' : Scopes Declaration}
    (h : Stands dead Γ Γ') (hd : d.IsUser) :
    (ss : List Stmt) → Stmt.WellScopedList Γ ss → Stmt.NoCaptureList Γ ss →
      (∀ x ∈ Stmt.freeList (Stmt.optimizeList ss), ¬ dead x) →
      (r, some d) ∈ Stmt.resolvedList Γ' (Stmt.optimizeList ss) →
        (r, some d) ∈ Stmt.resolvedList Γ ss
  | [], _, _, _, hr => by cases hr
  | s :: ss, hw, hn, hfree, hr => by
    rw [Stmt.optimizeList, Stmt.resolvedList_append, List.mem_append] at hr
    rw [Stmt.optimizeList] at hfree
    refine List.mem_append.mpr (hr.imp (fun hr => ?_) fun hr => ?_)
    · exact Stmt.mem_resolved_of_optimize h hd s hw.1 hn.1
        (fun x hx => hfree x (Stmt.mem_freeList_append.mpr (.inl hx))) hr
    · refine Stmt.mem_resolvedList_of_optimize (h.after s hw.1) hd ss hw.2 hn.2.2
        (fun x hx hdead => ?_) hr
      rcases hdead with ⟨hdx, hnot⟩ | ⟨hspilled, hΓ⟩
      · exact hfree x (Stmt.mem_freeList_append.mpr (.inr ⟨hx, hnot⟩)) hdx
      · exact hn.2.1 x hspilled hΓ hx

end

/-- Where no name that moves out of a block captures a reference, no reference is re-bound. -/
theorem noCapture_keepsBindings {p : Program} (hw : Stmt.WellScopedList startScopes p.statements)
    (hn : p.NoCapture) : p.KeepsBindings := by
  have h : Stands (fun _ => False) startScopes startScopes := fun _ _ _ _ h _ => h
  intro r d hr hd
  exact Stmt.mem_resolvedList_of_optimize h hd p.statements hw hn (fun _ _ h => h) hr

end Sufficient

/-! ## Necessary -/

section Necessary

/-- The references of a block that may be run survive with it. -/
theorem Optimize.Branches.mem_of_then {Γ : Scopes Declaration} {loc thenLoc : Location}
    {condition : Expr} {thenBody ss : List Stmt} {alternate : Alternate}
    {b : Reference × Option Declaration}
    (h : Branches loc condition thenLoc thenBody alternate ss)
    (hc : boolean? condition ≠ some false) (hb : b ∈ Stmt.resolvedList Γ thenBody) :
    b ∈ Stmt.resolvedList Γ ss := by
  rw [← Stmt.resolvedList_push] at hb
  cases h with
  | @known _ _ value =>
    cases value with
    | true => rwa [Stmt.resolvedList_push] at hb
    | false => exact absurd rfl hc
  | empty => cases hb
  | turned => simp [Stmt.resolvedList_singleton, Stmt.resolved, Alternate.resolved, hb]
  | kept => simp [Stmt.resolvedList_singleton, Stmt.resolved, hb]

theorem Optimize.Branches.mem_of_else {Γ : Scopes Declaration} {loc thenLoc : Location}
    {condition : Expr} {thenBody ss : List Stmt} {alternate : Alternate}
    {b : Reference × Option Declaration}
    (h : Branches loc condition thenLoc thenBody alternate ss)
    (hc : boolean? condition ≠ some true) (hb : b ∈ alternate.resolved Γ) :
    b ∈ Stmt.resolvedList Γ ss := by
  cases h with
  | @known _ _ value =>
    cases value with
    | true => exact absurd rfl hc
    | false => rwa [← resolvedList_alternateStmts] at hb
  | empty => cases hb
  | turned =>
    rw [Alternate.resolved] at hb
    simp [Stmt.resolvedList_singleton, Stmt.resolved, hb]
  | kept => simp [Stmt.resolvedList_singleton, Stmt.resolved, hb]

/-- The resolved references of a program whose references can be told apart. -/
structure Bindings where
  all : List (Reference × Option Declaration)
  unique : ∀ r o o', (r, o) ∈ all → (r, o') ∈ all → o = o'

def Program.bindings (p : Program) (hp : p.Distinct) : Bindings :=
  ⟨p.resolved, fun _ _ _ h h' => (Prod.mk.inj (hp.2 _ h _ h' rfl)).2⟩

/-- The references of some statements are among the bindings, those of the simplified statements are
too if they mean a declaration of the program, and the statements declare nothing twice or again. -/
structure Traced (B : Bindings) (Γ : Scopes Declaration)
    (source optimized : List (Reference × Option Declaration)) (declarations : List Declaration) :
    Prop where
  source : ∀ b ∈ source, b ∈ B.all
  optimized : ∀ r d, (r, some d) ∈ optimized → d.IsUser → (r, some d) ∈ B.all
  nodup : declarations.Nodup
  new : ∀ d ∈ declarations, ¬ Scopes.Has Γ d

/-- A part of some statements, in the scopes around it. -/
theorem Traced.part {B : Bindings} {Γ Δ : Scopes Declaration}
    {source optimized source' optimized' : List (Reference × Option Declaration)}
    {declarations declarations' : List Declaration} (h : Traced B Γ source optimized declarations)
    (hs : source' ⊆ source) (ho : optimized' ⊆ optimized)
    (hd : declarations'.Sublist declarations)
    (hΔ : ∀ d ∈ declarations', Scopes.Has Δ d → Scopes.Has Γ d) :
    Traced B Δ source' optimized' declarations' where
  source b hb := h.source b (hs hb)
  optimized r d hr := h.optimized r d (ho hr)
  nodup := h.nodup.sublist hd
  new d hd' hΔd := h.new d (hd.subset hd') (hΔ d hd' hΔd)

/-- The blocks of a conditional that may be run. -/
theorem Traced.branch {B : Bindings} {Γ Γ' : Scopes Declaration} {loc thenLoc : Location}
    {condition : Expr} {thenBody thenBody' ss : List Stmt} {alternate alternate' : Alternate}
    {conditions : List (Reference × Option Declaration)}
    (h : Traced B Γ
      (conditions ++ Stmt.resolvedList ([] :: Γ) thenBody ++ alternate.resolved Γ)
      (Stmt.resolvedList Γ' ss) (Stmt.declarationsList thenBody ++ alternate.declarations))
    (hs : Branches loc condition thenLoc thenBody' alternate' ss) :
    (boolean? condition ≠ some false →
        Traced B ([] :: Γ) (Stmt.resolvedList ([] :: Γ) thenBody) (Stmt.resolvedList Γ' thenBody')
          (Stmt.declarationsList thenBody)) ∧
      (boolean? condition ≠ some true →
        Traced B Γ (alternate.resolved Γ) (alternate'.resolved Γ') alternate.declarations) := by
  refine ⟨fun hc => ?_, fun hc => ?_⟩
  · exact h.part (List.subset_append_of_subset_left _ (List.subset_append_right _ _))
      (fun b hb => hs.mem_of_then hc hb) (List.sublist_append_left _ _)
      fun _ _ => Scopes.Has.of_push
  · exact h.part (List.subset_append_right _ _) (fun b hb => hs.mem_of_else hc hb)
      (List.sublist_append_right _ _) fun _ _ h => h

/-- A captured reference would have two meanings in the source. -/
theorem not_mem_freeList_of_spilled {B : Bindings} {Γ Γ' : Scopes Declaration} {s : Stmt}
    {ss : List Stmt}
    (h : Traced B Γ (Stmt.resolvedList Γ (s :: ss))
      (Stmt.resolvedList Γ' (Stmt.optimizeList (s :: ss))) (Stmt.declarationsList (s :: ss)))
    {x : Bytes} (hx : x ∈ s.spilled) : x ∉ Stmt.freeList (Stmt.optimizeList ss) := by
  intro hfree
  have hnames : x ∈ declaredNames s.optimize ∧ s.extend Γ = Γ := by
    cases s with
    | branch => exact ⟨hx, rfl⟩
    | _ => cases hx
  obtain ⟨t, ht, d, hd, hlookup⟩ := exists_lookup?_extendList (Γ := Γ') hnames.1
  -- in the simplified program a reference means the declaration that has moved out of the block
  obtain ⟨r, -, hr⟩ := Stmt.exists_mem_resolvedList hlookup (Stmt.optimizeList ss) hfree
  have hB : (r, some d) ∈ B.all := by
    refine h.optimized r d ?_ (Stmt.isUser_of_declared? hd)
    rw [Stmt.optimizeList, Stmt.resolvedList_append]
    exact List.mem_append_right _ hr
  -- in the source the same reference means something else
  obtain ⟨o, ho⟩ := Stmt.exists_mem_resolvedList_of_optimize (Γ := s.extend Γ) hr
  obtain rfl := B.unique _ _ _ (h.source _ (List.mem_append_right _ ho)) hB
  have hdecl : d ∈ s.declarations := s.mem_declarations_optimize ⟨t, ht, hd⟩
  have hnew := h.new d (List.mem_append_left _ hdecl)
  rw [hnames.2] at ho
  rcases Stmt.has_or_mem_declarationsList ss ho with hΓ | hss
  · exact hnew hΓ
  · exact (List.nodup_append.mp h.nodup).2.2 d hdecl d hss rfl

mutual

/-- A statement whose simplified form re-binds no reference captures none. -/
theorem Stmt.noCapture_of_traced {B : Bindings} {Γ : Scopes Declaration}
    (Γ' : Scopes Declaration) :
    (s : Stmt) → Traced B Γ (s.resolved Γ) (Stmt.resolvedList Γ' s.optimize) s.declarations →
      s.NoCapture Γ
  | .block _ body, h => by
    rw [Stmt.optimize, Stmt.resolvedList_singleton] at h
    exact Stmt.noCaptureList_of_traced _ body
      (h.part (List.Subset.refl _) (List.Subset.refl _) (.refl _) fun _ _ => Scopes.Has.of_push)
  | .function loc name params _ body _, h => by
    rw [Stmt.optimize, Stmt.resolvedList_singleton] at h
    have hnodup := h.nodup
    rw [Stmt.declarations, List.nodup_cons, List.nodup_append] at hnodup
    refine Stmt.noCaptureList_of_traced _ body
      (h.part (List.Subset.refl _) (List.Subset.refl _)
        ((List.sublist_append_right _ _).trans (List.sublist_cons_self _ _)) fun d hd hΔ => ?_)
    rcases hΔ.of_paramScope with hp | hΔ
    · exact absurd rfl (hnodup.2.2.2 d hp d hd)
    · rcases hΔ.of_bind with rfl | hΓ
      · exact absurd (List.mem_append_right _ hd) hnodup.1
      · exact hΓ
  | .branch _ condition _ thenBody alternate, h => by
    rw [Stmt.optimize] at h
    obtain ⟨hthen, helse⟩ := h.branch (simplifyBranch_branches ..)
    exact ⟨fun hc => Stmt.noCaptureList_of_traced Γ' thenBody (hthen hc),
      fun hc => alternate.noCapture_of_traced Γ' (helse hc)⟩
  | .loop _ counter _ bound _ body, h => by
    intro hcounts
    have hnodup := h.nodup
    rw [Stmt.declarations, List.nodup_cons] at hnodup
    refine Stmt.noCaptureList_of_traced (counterScope counter :: Γ') body
      (h.part (List.subset_append_right _ _) (fun b hb => ?_) (List.sublist_cons_self _ _)
        fun d hd hΔ => ?_)
    · -- a loop is left out only if nothing is left of its body
      rw [Stmt.optimize, simplifyLoop, hcounts, Bool.false_or]
      split
      · rename_i hempty
        rw [List.isEmpty_iff.mp hempty] at hb
        cases hb
      · rw [Stmt.resolvedList_singleton]
        exact List.mem_append_right _ hb
    · rcases hΔ.of_counterScope with rfl | hΓ
      · exact absurd hd hnodup.1
      · exact hΓ
  | .assign .., _ | .print .., _ | .serve .., _ | .leave _, _ | .comment .., _
  | .expression .., _ => trivial

theorem Alternate.noCapture_of_traced {B : Bindings} {Γ : Scopes Declaration}
    (Γ' : Scopes Declaration) :
    (a : Alternate) → Traced B Γ (a.resolved Γ) (a.optimize.resolved Γ') a.declarations →
      a.NoCapture Γ
  | .none, _ => trivial
  | .block _ body, h =>
    Stmt.noCaptureList_of_traced _ body
      (h.part (List.Subset.refl _) (List.Subset.refl _) (.refl _) fun _ _ => Scopes.Has.of_push)
  | .branch _ condition _ thenBody alternate, h => by
    rw [Alternate.optimize, resolved_alternateOf] at h
    obtain ⟨hthen, helse⟩ := h.branch (simplifyBranch_branches ..)
    exact ⟨fun hc => Stmt.noCaptureList_of_traced Γ' thenBody (hthen hc),
      fun hc => alternate.noCapture_of_traced Γ' (helse hc)⟩

theorem Stmt.noCaptureList_of_traced {B : Bindings} {Γ : Scopes Declaration}
    (Γ' : Scopes Declaration) :
    (ss : List Stmt) →
      Traced B Γ (Stmt.resolvedList Γ ss) (Stmt.resolvedList Γ' (Stmt.optimizeList ss))
        (Stmt.declarationsList ss) →
      Stmt.NoCaptureList Γ ss
  | [], _ => trivial
  | s :: ss, h => by
    have happend : Stmt.resolvedList Γ' (Stmt.optimizeList (s :: ss)) =
        Stmt.resolvedList Γ' s.optimize ++
          Stmt.resolvedList (Stmt.extendList Γ' s.optimize) (Stmt.optimizeList ss) :=
      Stmt.resolvedList_append _ _
    refine ⟨?_, fun x hx _ => not_mem_freeList_of_spilled h hx, ?_⟩
    · exact s.noCapture_of_traced _ (h.part (List.subset_append_left _ _)
        (happend ▸ List.subset_append_left _ _) (List.sublist_append_left _ _) fun _ _ h => h)
    · refine Stmt.noCaptureList_of_traced _ ss (h.part (List.subset_append_right _ _)
        (happend ▸ List.subset_append_right _ _) (List.sublist_append_right _ _) fun d hd hΔ => ?_)
      rcases hΔ.of_extend with hs | hΓ
      · exact absurd rfl ((List.nodup_append.mp h.nodup).2.2 d hs d hd)
      · exact hΓ

end

/-- Where places tell declarations and references apart, a program of which no reference is re-bound
has no capture. -/
theorem keepsBindings_noCapture {p : Program} (hp : p.Distinct) (hk : p.KeepsBindings) :
    p.NoCapture := by
  refine Stmt.noCaptureList_of_traced (B := p.bindings hp) startScopes p.statements
    ⟨fun b hb => hb, fun r d hr hd => hk r d hr hd, hp.1, fun d hd hΓ => ?_⟩
  -- the scopes of the start have built-in functions only
  have huser := Stmt.isUser_of_mem_declarationsList p.statements hd
  rcases hΓ.of_push.of_cons with ⟨x, hx⟩ | ⟨x, hx⟩
  · obtain ⟨y, -, hy⟩ := List.mem_map.mp hx
    exact huser (by rw [← (Prod.mk.inj hy).2])
  · cases hx

end Necessary

/-! ## The exact condition -/

/-- A simplified program in which nothing is captured re-binds no reference, and where places tell
declarations and references apart every other program has a reference that is re-bound. -/
theorem optimize_keepsBindings_iff (tree : Grammar.Tree) {p : Program} (h : analyze tree = .ok p) :
    (p.NoCapture → p.KeepsBindings) ∧ (p.Distinct → p.KeepsBindings → p.NoCapture) :=
  ⟨noCapture_keepsBindings (analyze_wellScoped h), keepsBindings_noCapture⟩

/-- A function `f`, and a block that is always run and declares another one; the statements after it
are given. -/
def shadowTree (rest : List Grammar.Stmt) : Grammar.Tree :=
  ⟨0,
    .function ⟨0, 1, 1⟩ (ascii "f") [⟨ascii "a", ⟨0, 1, 10⟩⟩] ⟨0, 1, 13⟩
        [.serve ⟨0, 2, 3⟩ (.number ⟨0, 2, 9⟩ (.ofNat 1) (ascii "1"))] ::
      .branch ⟨0, 4, 1⟩ (.arm ⟨0, 4, 1⟩ (.boolean ⟨0, 4, 5⟩ true) ⟨0, 4, 11⟩
        [.function ⟨0, 5, 3⟩ (ascii "f") [⟨ascii "a", ⟨0, 5, 12⟩⟩] ⟨0, 5, 15⟩
            [.serve ⟨0, 6, 5⟩ (.number ⟨0, 6, 11⟩ (.ofNat 2) (ascii "2"))],
          .assign ⟨0, 8, 3⟩ (.identifier ⟨0, 8, 3⟩ (ascii "y"))
            (.call ⟨0, 8, 7⟩ (ascii "f") [.number ⟨0, 8, 9⟩ (.ofNat 3) (ascii "3")])] .done) ::
      rest⟩

/-- The variable `y` of the block is out of scope after it, and is declared again. -/
def secondVariableTree : Grammar.Tree :=
  shadowTree
    [.assign ⟨0, 10, 1⟩ (.identifier ⟨0, 10, 1⟩ (ascii "y"))
        (.number ⟨0, 10, 5⟩ (.ofNat 4) (ascii "4")),
      .print ⟨0, 11, 1⟩ (.identifier ⟨0, 11, 6⟩ (ascii "y"))]

/-- The second `y` is kept apart from the one that moves out of the block, and the inner function is
not called after it. -/
theorem secondVariable_keepsBindings :
    ∃ p, analyze secondVariableTree = .ok p ∧ p.NoCapture ∧ p.Distinct ∧ p.KeepsBindings := by
  refine ⟨_, rfl, ?capture, ?distinct, ?keeps⟩
  case capture => decide +kernel
  case distinct => decide +kernel
  case keeps =>
    refine (optimize_keepsBindings_iff secondVariableTree rfl).1 ?_
    decide +kernel

/-- A call after the block means the outer function in the source and the inner one in the
simplified program. -/
theorem inner_function_captures_call :
    ¬ ∀ (tree : Grammar.Tree) (p : Program), analyze tree = .ok p → p.KeepsBindings := by
  intro h
  have hkeeps := h (shadowTree
    [.print ⟨0, 10, 1⟩ (.call ⟨0, 10, 6⟩ (ascii "f")
      [.number ⟨0, 10, 8⟩ (.zero false) (ascii "0")])]) _ rfl
    ⟨.callee, ⟨0, 10, 6⟩, ascii "f"⟩ ⟨.function, ascii "f", ⟨0, 5, 3⟩⟩
  revert hkeeps
  decide +kernel

end Roar
