import Roar.Proofs.Optimize.Binding

/-!
# Names that are left without a declaration

A statement that declares a name may be left out: `sqrt = sqrt` declares a variable that has the
built-in function as its value, but is taken for an assignment that does nothing. The statements after
it still mean the variable, and the simplified program has no declaration of it any more.

* `Program.NoLoss`: where a declaration is left out, the simplified statements after it do not use its
  name, or the scopes around have another declaration of it.
* `noLoss_noDangling`: then every reference of the simplified program means a declaration of the
  program, or a built-in function in the source.
* `noDangling_noLoss`: where references can be told apart by their places, this is the only way in
  which a name can be left without a declaration.
* `Stmt.builtin_of_mem_lost`: only a name of a built-in function can lose its declaration.
-/

namespace Roar

open Optimize

/-! ## Names with a declaration -/

/-- The name means a declaration of the program. -/
def Claimed (Γ : Scopes Declaration) (x : Bytes) : Prop :=
  ∃ d, Scopes.lookup? Γ x = some d ∧ d.IsUser

instance (Γ : Scopes Declaration) (x : Bytes) : Decidable (Claimed Γ x) :=
  decidable_of_iff ((Scopes.lookup? Γ x).any fun d => d.IsUser)
    (by simp only [Option.any_eq_true, decide_eq_true_eq, Claimed])

section Claimed

variable {Γ : Scopes Declaration} {x : Bytes}

theorem Claimed.congr {Γ Δ : Scopes Declaration} (h : Claimed Γ x)
    (hx : Scopes.lookup? Δ x = Scopes.lookup? Γ x) : Claimed Δ x := by
  rwa [Claimed, hx]

theorem Claimed.push (h : Claimed Γ x) : Claimed ([] :: Γ) x := h.congr (Scopes.lookup?_push Γ x)

theorem Claimed.bind (h : Claimed Γ x) (y : Bytes) {d : Declaration} (hd : d.IsUser) :
    Claimed (Scopes.bind y d Γ) x := by
  unfold Claimed
  rw [Scopes.lookup?_bind]
  split
  · exact ⟨d, rfl, hd⟩
  · exact h

/-- A scope of the program around a name only adds declarations of the program. -/
theorem Claimed.cons (h : Claimed Γ x) {f : List (Bytes × Declaration)}
    (hf : ∀ p ∈ f, p.2.IsUser) : Claimed (f :: Γ) x := by
  cases hx : f.lookup x with
  | none => exact h.congr (Scopes.lookup?_cons_none hx Γ)
  | some d =>
    exact ⟨d, Scopes.lookup?_cons_some hx Γ, hf (x, d) (Scopes.mem_of_lookup hx)⟩

theorem isUser_of_mem_paramScope {loc : Location} {params : List Bytes} :
    ∀ p ∈ paramScope loc params, p.2.IsUser := by
  intro p hp
  simp only [paramScope, List.mem_reverse, List.mem_map] at hp
  obtain ⟨_, -, rfl⟩ := hp
  exact fun h => by cases h

theorem isUser_of_mem_counterScope {counter : Identifier} :
    ∀ p ∈ counterScope counter, p.2.IsUser := by
  intro p hp
  rw [List.mem_singleton.mp hp]
  exact fun h => by cases h

theorem Claimed.extend (h : Claimed Γ x) (s : Stmt) : Claimed (s.extend Γ) x := by
  unfold Stmt.extend
  split
  · rename_i d hd
    exact h.bind d.name (Stmt.isUser_of_declared? hd)
  · exact h

theorem claimed_extendList {ss : List Stmt} (h : x ∈ declaredNames ss) :
    Claimed (Stmt.extendList Γ ss) x := by
  obtain ⟨s, -, d, hd, hx⟩ := exists_lookup?_extendList (Γ := Γ) h
  exact ⟨d, hx, Stmt.isUser_of_declared? hd⟩

/-- In the scope of a declaration of the program, its name always means one. -/
theorem isUser_of_mem_resolveAll {refs : List Reference} {r : Reference} {o : Option Declaration}
    (h : Claimed Γ r.name) (hr : (r, o) ∈ resolveAll Γ refs) : ∃ d, o = some d ∧ d.IsUser := by
  obtain ⟨-, rfl⟩ := mem_resolveAll.mp hr
  exact h

mutual

theorem Stmt.isUser_of_mem_resolved {Γ : Scopes Declaration} {r : Reference}
    {o : Option Declaration} (h : Claimed Γ r.name) :
    (s : Stmt) → (r, o) ∈ s.resolved Γ → ∃ d, o = some d ∧ d.IsUser
  | .block _ body, hr => Stmt.isUser_of_mem_resolvedList h.push body hr
  | .assign loc target value declares, hr => by
    rcases List.mem_append.mp hr with hr | hr
    · exact isUser_of_mem_resolveAll h hr
    · exact isUser_of_mem_resolveAll (h.extend _) hr
  | .print .., hr | .serve .., hr | .expression .., hr => isUser_of_mem_resolveAll h hr
  | .function loc name params _ body _, hr =>
    Stmt.isUser_of_mem_resolvedList
      ((h.bind name fun hd => by cases hd).cons isUser_of_mem_paramScope) body hr
  | .branch _ condition _ thenBody alternate, hr => by
    rw [Stmt.resolved, List.mem_append, List.mem_append] at hr
    rcases hr with (hr | hr) | hr
    · exact isUser_of_mem_resolveAll h hr
    · exact Stmt.isUser_of_mem_resolvedList h.push thenBody hr
    · exact alternate.isUser_of_mem_resolved h hr
  | .loop _ counter _ bound _ body, hr => by
    rcases List.mem_append.mp hr with hr | hr
    · exact isUser_of_mem_resolveAll h hr
    · exact Stmt.isUser_of_mem_resolvedList (h.cons isUser_of_mem_counterScope) body hr
  | .leave _, hr | .comment .., hr => by cases hr

theorem Alternate.isUser_of_mem_resolved {Γ : Scopes Declaration} {r : Reference}
    {o : Option Declaration} (h : Claimed Γ r.name) :
    (a : Alternate) → (r, o) ∈ a.resolved Γ → ∃ d, o = some d ∧ d.IsUser
  | .none, hr => by cases hr
  | .block _ body, hr => Stmt.isUser_of_mem_resolvedList h.push body hr
  | .branch _ condition _ thenBody alternate, hr => by
    rw [Alternate.resolved, List.mem_append, List.mem_append] at hr
    rcases hr with (hr | hr) | hr
    · exact isUser_of_mem_resolveAll h hr
    · exact Stmt.isUser_of_mem_resolvedList h.push thenBody hr
    · exact alternate.isUser_of_mem_resolved h hr

theorem Stmt.isUser_of_mem_resolvedList {Γ : Scopes Declaration} {r : Reference}
    {o : Option Declaration} (h : Claimed Γ r.name) :
    (ss : List Stmt) → (r, o) ∈ Stmt.resolvedList Γ ss → ∃ d, o = some d ∧ d.IsUser
  | [], hr => by cases hr
  | s :: ss, hr => by
    rcases List.mem_append.mp hr with hr | hr
    · exact s.isUser_of_mem_resolved h hr
    · exact Stmt.isUser_of_mem_resolvedList (h.extend s) ss hr

end

end Claimed

/-! ## Declarations that are left out -/

/-- The names that a statement declares and what is left of it does not. -/
def Stmt.lost (s : Stmt) : List Bytes :=
  (declaredNames [s]).filter fun x => !(declaredNames s.optimize).contains x

theorem Stmt.mem_lost {s : Stmt} {x : Bytes} :
    x ∈ s.lost ↔ x ∈ declaredNames [s] ∧ x ∉ declaredNames s.optimize := by
  simp [Stmt.lost]

mutual

/-- In no list of statements that is kept, a name whose declaration is left out is used after it with
no other declaration in sight. The scopes are those of the simplified program. -/
def Stmt.NoLoss (Δ : Scopes Declaration) : Stmt → Prop
  | .block _ body => Stmt.NoLossList ([] :: Δ) body
  | .function loc name params _ body _ =>
    Stmt.NoLossList (paramScope loc params :: Scopes.bind name ⟨.function, name, loc⟩ Δ) body
  | .branch _ condition _ thenBody alternate =>
    (boolean? condition.optimize ≠ some false → Stmt.NoLossList ([] :: Δ) thenBody) ∧
      (boolean? condition.optimize ≠ some true → alternate.NoLoss Δ)
  | .loop _ counter _ bound _ body =>
    neverCounts bound.optimize = false → Stmt.NoLossList (counterScope counter :: Δ) body
  | .assign .. | .print .. | .serve .. | .leave _ | .comment .. | .expression .. => True

def Alternate.NoLoss (Δ : Scopes Declaration) : Alternate → Prop
  | .none => True
  | .block _ body => Stmt.NoLossList ([] :: Δ) body
  | .branch _ condition _ thenBody alternate =>
    (boolean? condition.optimize ≠ some false → Stmt.NoLossList ([] :: Δ) thenBody) ∧
      (boolean? condition.optimize ≠ some true → alternate.NoLoss Δ)

def Stmt.NoLossList (Δ : Scopes Declaration) : List Stmt → Prop
  | [] => True
  | s :: ss =>
    s.NoLoss Δ ∧ (∀ x ∈ s.lost, x ∈ Stmt.freeList (Stmt.optimizeList ss) → Claimed Δ x) ∧
      Stmt.NoLossList (Stmt.extendList Δ s.optimize) ss

end

mutual

def Stmt.decideNoLoss (Δ : Scopes Declaration) : (s : Stmt) → Decidable (s.NoLoss Δ)
  | .block _ body => Stmt.decideNoLossList ([] :: Δ) body
  | .function loc name params _ body _ =>
    Stmt.decideNoLossList (paramScope loc params :: Scopes.bind name ⟨.function, name, loc⟩ Δ) body
  | .branch _ condition _ thenBody alternate =>
    have := Stmt.decideNoLossList ([] :: Δ) thenBody
    have := alternate.decideNoLoss Δ
    inferInstanceAs (Decidable ((boolean? condition.optimize ≠ some false → _) ∧
      (boolean? condition.optimize ≠ some true → _)))
  | .loop _ counter _ bound _ body =>
    have := Stmt.decideNoLossList (counterScope counter :: Δ) body
    inferInstanceAs (Decidable (neverCounts bound.optimize = false → _))
  | .assign .. | .print .. | .serve .. | .leave _ | .comment .. | .expression .. => .isTrue trivial

def Alternate.decideNoLoss (Δ : Scopes Declaration) : (a : Alternate) → Decidable (a.NoLoss Δ)
  | .none => .isTrue trivial
  | .block _ body => Stmt.decideNoLossList ([] :: Δ) body
  | .branch _ condition _ thenBody alternate =>
    have := Stmt.decideNoLossList ([] :: Δ) thenBody
    have := alternate.decideNoLoss Δ
    inferInstanceAs (Decidable ((boolean? condition.optimize ≠ some false → _) ∧
      (boolean? condition.optimize ≠ some true → _)))

def Stmt.decideNoLossList (Δ : Scopes Declaration) :
    (ss : List Stmt) → Decidable (Stmt.NoLossList Δ ss)
  | [] => .isTrue trivial
  | s :: ss =>
    have := s.decideNoLoss Δ
    have := Stmt.decideNoLossList (Stmt.extendList Δ s.optimize) ss
    inferInstanceAs (Decidable (_ ∧
      (∀ x ∈ s.lost, x ∈ Stmt.freeList (Stmt.optimizeList ss) → Claimed Δ x) ∧ _))

end

/-- No name of the program is used after its declaration has been left out. -/
def Program.NoLoss (p : Program) : Prop := Stmt.NoLossList startScopes p.statements

instance (p : Program) : Decidable p.NoLoss := Stmt.decideNoLossList startScopes p.statements

/-- A reference means a declaration of the program, or it means a built-in function in the source. -/
def Anchored (source : List (Reference × Option Declaration))
    (b : Reference × Option Declaration) : Prop :=
  (∃ d, b.2 = some d ∧ d.IsUser) ∨ ∃ d, (b.1, some d) ∈ source ∧ ¬ d.IsUser

instance (source : List (Reference × Option Declaration)) (b : Reference × Option Declaration) :
    Decidable (Anchored source b) :=
  decidable_of_iff
    (b.2.any (·.IsUser) ∨ ∃ b' ∈ source, b'.1 = b.1 ∧ b'.2.any fun d => ¬ d.IsUser) (by
      simp only [Option.any_eq_true, decide_eq_true_eq, Anchored]
      refine or_congr_right ⟨?_, ?_⟩
      · rintro ⟨⟨r, o⟩, hb, rfl, d, rfl, hd⟩
        exact ⟨d, hb, hd⟩
      · rintro ⟨d, hb, hd⟩
        exact ⟨_, hb, rfl, d, rfl, hd⟩)

theorem Anchored.mono {source source' : List (Reference × Option Declaration)}
    {b : Reference × Option Declaration} (h : Anchored source b) (hs : source ⊆ source') :
    Anchored source' b :=
  h.imp_right fun ⟨d, hd, hbuiltin⟩ => ⟨d, hs hd, hbuiltin⟩

/-- Every reference of the simplified program has a declaration in sight, unless it means a built-in
function in the source. -/
def Program.NoDangling (p : Program) : Prop := ∀ b ∈ p.optimize.resolved, Anchored p.resolved b

instance (p : Program) : Decidable p.NoDangling := inferInstanceAs (Decidable (∀ _ ∈ _, _))

/-! ## Scopes of the source and of the simplified program -/

/-- A live name that means a declaration of the program in the first chain does so in the second. -/
def Covers (dead : Bytes → Prop) (Γ Δ : Scopes Declaration) : Prop :=
  ∀ x, ¬ dead x → Claimed Γ x → Claimed Δ x

namespace Covers

variable {dead : Bytes → Prop} {Γ Δ : Scopes Declaration}

theorem push (h : Covers dead Γ Δ) : Covers dead ([] :: Γ) ([] :: Δ) := fun x hx hΓ =>
  (h x hx (hΓ.congr (Scopes.lookup?_push Γ x).symm)).push

theorem cons (h : Covers dead Γ Δ) (f : List (Bytes × Declaration)) :
    Covers (fun x => dead x ∧ x ∉ f.map (·.1)) (f :: Γ) (f :: Δ) := by
  intro x hx hΓ
  cases hf : f.lookup x with
  | some d =>
    exact hΓ.congr ((Scopes.lookup?_cons_some hf Δ).trans (Scopes.lookup?_cons_some hf Γ).symm)
  | none =>
    have hlive : ¬ dead x := fun hd => hx ⟨hd, Scopes.lookup_eq_none_iff.mp hf⟩
    exact (h x hlive (hΓ.congr (Scopes.lookup?_cons_none hf Γ).symm)).congr
      (Scopes.lookup?_cons_none hf Δ)

theorem bind (h : Covers dead Γ Δ) (y : Bytes) (d : Declaration) :
    Covers (fun x => dead x ∧ x ≠ y) (Scopes.bind y d Γ) (Scopes.bind y d Δ) := by
  intro x hx
  unfold Claimed
  rw [Scopes.lookup?_bind, Scopes.lookup?_bind]
  split
  · exact fun h => h
  · rename_i hne
    exact h x fun hd => hx ⟨hd, hne⟩

theorem anchored {e : Expr} {b : Reference × Option Declaration} (h : Covers dead Γ Δ)
    (hv : e.Visible Γ) (hdead : ∀ x ∈ e.optimize.names, ¬ dead x)
    (hb : b ∈ resolveAll Δ e.optimize.references) : Anchored (resolveAll Γ e.references) b := by
  obtain ⟨r, o⟩ := b
  obtain ⟨hr, rfl⟩ := mem_resolveAll.mp hb
  by_cases hΓ : Claimed Γ r.name
  · exact .inl (h r.name (hdead r.name (List.mem_map_of_mem hr)) hΓ)
  · have hsource := e.references_optimize hr
    obtain ⟨d, hd⟩ := Option.ne_none_iff_exists'.mp (hv r hsource)
    exact .inr ⟨d, mem_resolveAll.mpr ⟨hsource, hd⟩, fun huser => hΓ ⟨d, hd, huser⟩⟩

/-- The dead names after a statement: a dead name that is declared is alive again, and one whose
declaration is left out is dead if there is no other. -/
def DeadAfter (dead : Bytes → Prop) (Δ : Scopes Declaration) (s : Stmt) (x : Bytes) : Prop :=
  dead x ∧ x ∉ declaredNames s.optimize ∨ x ∈ s.lost ∧ ¬ Claimed Δ x

theorem after (h : Covers dead Γ Δ) (s : Stmt) :
    Covers (DeadAfter dead Δ s) (s.extend Γ) (Stmt.extendList Δ s.optimize) := by
  intro x hx hΓ
  by_cases hkept : x ∈ declaredNames s.optimize
  · exact claimed_extendList hkept
  · refine Claimed.congr ?_ (lookup?_extendList_of_not_mem hkept)
    by_cases hs : x ∈ declaredNames [s]
    · exact Decidable.not_not.mp fun hΔ => hx (.inr ⟨Stmt.mem_lost.mpr ⟨hs, hkept⟩, hΔ⟩)
    · exact h x (fun hd => hx (.inl ⟨hd, hkept⟩))
        (hΓ.congr (lookup?_extend_of_not_mem hs).symm)

end Covers

/-! ## Sufficient -/

section Sufficient

variable {b : Reference × Option Declaration}

/-- A simplified conditional, from what is known of its simplified blocks. -/
theorem Optimize.Branches.anchored {dead : Bytes → Prop} {Γ Δ : Scopes Declaration}
    {loc thenLoc : Location} {condition : Expr} {thenBody thenBody' ss : List Stmt}
    {alternate alternate' : Alternate}
    (hs : Branches loc condition.optimize thenLoc thenBody' alternate' ss) (h : Covers dead Γ Δ)
    (hv : condition.Visible Γ) (hfree : ∀ x ∈ Stmt.freeList ss, ¬ dead x)
    (hthen : boolean? condition.optimize ≠ some false → (∀ x ∈ Stmt.freeList thenBody', ¬ dead x) →
      b ∈ Stmt.resolvedList ([] :: Δ) thenBody' → Anchored (Stmt.resolvedList ([] :: Γ) thenBody) b)
    (helse : boolean? condition.optimize ≠ some true → (∀ x ∈ alternate'.free, ¬ dead x) →
      b ∈ alternate'.resolved Δ → Anchored (alternate.resolved Γ) b)
    (hb : b ∈ Stmt.resolvedList Δ ss) :
    Anchored (resolveAll Γ condition.references ++ Stmt.resolvedList ([] :: Γ) thenBody ++
      alternate.resolved Γ) b := by
  rcases hs.mem_cases hb with ⟨hb, hn⟩ | ⟨hc, hb, hn⟩ | ⟨hc, hb, hn⟩
  · exact (h.anchored hv (fun x hx => hfree x (hn hx)) hb).mono
      (List.subset_append_of_subset_left _ (List.subset_append_left _ _))
  · rw [← Stmt.resolvedList_push] at hb
    exact (hthen hc (fun x hx => hfree x (hn hx)) hb).mono
      (List.subset_append_of_subset_left _ (List.subset_append_right _ _))
  · exact (helse hc (fun x hx => hfree x (hn hx)) hb).mono (List.subset_append_right _ _)

mutual

theorem Stmt.anchored_of_noLoss {dead : Bytes → Prop} {Γ Δ : Scopes Declaration}
    (h : Covers dead Γ Δ) :
    (s : Stmt) → s.WellScoped Γ → s.NoLoss Δ → (∀ x ∈ Stmt.freeList s.optimize, ¬ dead x) →
      b ∈ Stmt.resolvedList Δ s.optimize → Anchored (s.resolved Γ) b
  | .block _ body, hw, hn, hfree, hb => by
    rw [Stmt.optimize, Stmt.freeList_singleton] at hfree
    rw [Stmt.optimize, Stmt.resolvedList_singleton] at hb
    exact Stmt.anchored_of_noLossList h.push body hw hn hfree hb
  | .assign loc target value declares, hw, _, hfree, hb => by
    rw [Stmt.optimize, simplifyAssign] at hfree hb
    split at hb
    · cases hb
    · rename_i hself
      rw [if_neg hself, Stmt.freeList_singleton, Stmt.free] at hfree
      rw [Stmt.resolvedList_singleton, Stmt.resolved] at hb
      rcases List.mem_append.mp hb with hb | hb
      · exact (h.anchored hw.1 (fun x hx => hfree x (List.mem_append_left _ hx)) hb).mono
          (List.subset_append_left _ _)
      · obtain rfl := List.mem_singleton.mp hb
        -- the target is declared here or has been declared before
        cases declares with
        | true => exact .inl ⟨_, Scopes.lookup?_bind_self .., fun hd => by cases hd⟩
        | false =>
          obtain ⟨d, hd, hkind⟩ := hw.2
          have hlive := hfree target.name (List.mem_append_right _ (.head _))
          refine .inl (h target.name hlive ⟨d, hd, fun hbuiltin => ?_⟩)
          rw [hbuiltin] at hkind
          rcases hkind with hkind | hkind <;> cases hkind
  | .print _ value, hw, _, hfree, hb | .serve _ value, hw, _, hfree, hb
  | .expression _ value, hw, _, hfree, hb => by
    rw [Stmt.optimize, Stmt.freeList_singleton] at hfree
    rw [Stmt.optimize, Stmt.resolvedList_singleton] at hb
    exact h.anchored hw hfree hb
  | .function loc name params _ body _, hw, hn, hfree, hb => by
    rw [Stmt.optimize, Stmt.freeList_singleton] at hfree
    rw [Stmt.optimize, Stmt.resolvedList_singleton] at hb
    refine Stmt.anchored_of_noLossList ((h.bind _ _).cons _) body hw hn (fun x hx hdead => ?_) hb
    refine hfree x ?_ hdead.1.1
    have hparams : x ∉ params := by simpa [paramScope] using hdead.2
    simp [Stmt.free, hx, hdead.1.2, hparams]
  | .branch _ condition _ thenBody alternate, hw, hn, hfree, hb => by
    rw [Stmt.optimize] at hfree hb
    exact (simplifyBranch_branches ..).anchored h hw.1 hfree
      (fun hc => Stmt.anchored_of_noLossList h.push thenBody hw.2.1 (hn.1 hc))
      (fun hc => alternate.anchored_of_noLoss h hw.2.2 (hn.2 hc)) hb
  | .loop _ counter _ bound _ body, hw, hn, hfree, hb => by
    rw [Stmt.optimize, simplifyLoop] at hfree hb
    split at hb
    · cases hb
    · rename_i hkeep
      simp only [Bool.or_eq_true, not_or, Bool.not_eq_true] at hkeep
      simp only [hkeep.1, hkeep.2, Bool.or_self, Bool.false_eq_true, if_false,
        Stmt.freeList_singleton, Stmt.free, List.mem_append, List.mem_filter] at hfree
      rw [Stmt.resolvedList_singleton, Stmt.resolved] at hb
      rcases List.mem_append.mp hb with hb | hb
      · exact (h.anchored hw.1 (fun x hx => hfree x (.inl hx)) hb).mono
          (List.subset_append_left _ _)
      · refine (Stmt.anchored_of_noLossList (h.cons _) body hw.2 (hn hkeep.1)
          (fun x hx hdead => ?_) hb).mono (List.subset_append_right _ _)
        refine hfree x (.inr ⟨hx, ?_⟩) hdead.1
        simpa [counterScope] using hdead.2
  | .leave _, _, _, _, hb | .comment .., _, _, _, hb => by cases hb

theorem Alternate.anchored_of_noLoss {dead : Bytes → Prop} {Γ Δ : Scopes Declaration}
    (h : Covers dead Γ Δ) :
    (a : Alternate) → a.WellScoped Γ → a.NoLoss Δ → (∀ x ∈ a.optimize.free, ¬ dead x) →
      b ∈ a.optimize.resolved Δ → Anchored (a.resolved Γ) b
  | .none, _, _, _, hb => by cases hb
  | .block _ body, hw, hn, hfree, hb => Stmt.anchored_of_noLossList h.push body hw hn hfree hb
  | .branch _ condition _ thenBody alternate, hw, hn, hfree, hb => by
    rw [Alternate.optimize, free_alternateOf] at hfree
    rw [Alternate.optimize, resolved_alternateOf] at hb
    exact (simplifyBranch_branches ..).anchored h hw.1 hfree
      (fun hc => Stmt.anchored_of_noLossList h.push thenBody hw.2.1 (hn.1 hc))
      (fun hc => alternate.anchored_of_noLoss h hw.2.2 (hn.2 hc)) hb

theorem Stmt.anchored_of_noLossList {dead : Bytes → Prop} {Γ Δ : Scopes Declaration}
    (h : Covers dead Γ Δ) :
    (ss : List Stmt) → Stmt.WellScopedList Γ ss → Stmt.NoLossList Δ ss →
      (∀ x ∈ Stmt.freeList (Stmt.optimizeList ss), ¬ dead x) →
      b ∈ Stmt.resolvedList Δ (Stmt.optimizeList ss) → Anchored (Stmt.resolvedList Γ ss) b
  | [], _, _, _, hb => by cases hb
  | s :: ss, hw, hn, hfree, hb => by
    rw [Stmt.optimizeList] at hfree
    rw [Stmt.optimizeList, Stmt.resolvedList_append, List.mem_append] at hb
    rcases hb with hb | hb
    · exact (s.anchored_of_noLoss h hw.1 hn.1
        (fun x hx => hfree x (Stmt.mem_freeList_append.mpr (.inl hx))) hb).mono
        (List.subset_append_left _ _)
    · refine (Stmt.anchored_of_noLossList (h.after s) ss hw.2 hn.2.2 (fun x hx hdead => ?_) hb).mono
        (List.subset_append_right _ _)
      rcases hdead with ⟨hdx, hnot⟩ | ⟨hlost, hΔ⟩
      · exact hfree x (Stmt.mem_freeList_append.mpr (.inr ⟨hx, hnot⟩)) hdx
      · exact hΔ (hn.2.1 x hlost hx)

end

/-- Where no name is used after its declaration has been left out, all names keep a declaration. -/
theorem noLoss_noDangling {p : Program} (hw : Stmt.WellScopedList startScopes p.statements)
    (hn : p.NoLoss) : p.NoDangling := by
  have h : Covers (fun _ => False) startScopes startScopes := fun _ _ h => h
  exact fun b hb => Stmt.anchored_of_noLossList h p.statements hw hn (fun _ _ h => h) hb

end Sufficient

/-! ## Necessary -/

section Necessary

/-- The references of some statements are among the bindings, and those of the simplified statements
are anchored in them. -/
structure Held (B : Bindings) (source optimized : List (Reference × Option Declaration)) : Prop where
  source : ∀ b ∈ source, b ∈ B.all
  optimized : ∀ b ∈ optimized, Anchored B.all b

theorem Held.part {B : Bindings}
    {source optimized source' optimized' : List (Reference × Option Declaration)}
    (h : Held B source optimized) (hs : source' ⊆ source) (ho : optimized' ⊆ optimized) :
    Held B source' optimized' where
  source b hb := h.source b (hs hb)
  optimized b hb := h.optimized b (ho hb)

/-- The blocks of a conditional that may be run. -/
theorem Held.branch {B : Bindings} {Γ Δ : Scopes Declaration} {loc thenLoc : Location}
    {condition : Expr} {thenBody thenBody' ss : List Stmt} {alternate alternate' : Alternate}
    {conditions : List (Reference × Option Declaration)}
    (h : Held B (conditions ++ Stmt.resolvedList ([] :: Γ) thenBody ++ alternate.resolved Γ)
      (Stmt.resolvedList Δ ss))
    (hs : Branches loc condition thenLoc thenBody' alternate' ss) :
    (boolean? condition ≠ some false →
        Held B (Stmt.resolvedList ([] :: Γ) thenBody) (Stmt.resolvedList ([] :: Δ) thenBody')) ∧
      (boolean? condition ≠ some true → Held B (alternate.resolved Γ) (alternate'.resolved Δ)) := by
  refine ⟨fun hc => ?_, fun hc => ?_⟩
  · rw [Stmt.resolvedList_push (Γ := Δ)]
    exact h.part (List.subset_append_of_subset_left _ (List.subset_append_right _ _))
      fun b hb => hs.mem_of_then hc hb
  · exact h.part (List.subset_append_right _ _) fun b hb => hs.mem_of_else hc hb

/-- A use of a name whose declaration is left out means a declaration of the program in the source, and
so in the simplified program. -/
theorem claimed_of_lost {B : Bindings} {Γ Δ : Scopes Declaration} {s : Stmt} {ss : List Stmt}
    (h : Held B (Stmt.resolvedList Γ (s :: ss)) (Stmt.resolvedList Δ (Stmt.optimizeList (s :: ss))))
    {x : Bytes} (hx : x ∈ s.lost) (hfree : x ∈ Stmt.freeList (Stmt.optimizeList ss)) :
    Claimed Δ x := by
  obtain ⟨hdeclared, hleft⟩ := Stmt.mem_lost.mp hx
  obtain ⟨r, rfl, hr⟩ := Stmt.exists_mem_resolvedList
    (lookup?_extendList_of_not_mem (Γ := Δ) hleft) (Stmt.optimizeList ss) hfree
  have hanchored : Anchored B.all (r, Scopes.lookup? Δ r.name) := by
    refine h.optimized _ ?_
    rw [Stmt.optimizeList, Stmt.resolvedList_append]
    exact List.mem_append_right _ hr
  rcases hanchored with hΔ | ⟨d, hd, hbuiltin⟩
  · exact hΔ
  · -- in the source the reference stands behind the declaration
    obtain ⟨o, ho⟩ := Stmt.exists_mem_resolvedList_of_optimize (Γ := s.extend Γ) hr
    have hclaimed : Claimed (s.extend Γ) r.name := claimed_extendList (Γ := Γ) hdeclared
    obtain ⟨e, rfl, huser⟩ := Stmt.isUser_of_mem_resolvedList hclaimed ss ho
    cases B.unique _ _ _ (h.source _ (List.mem_append_right _ ho)) hd
    exact absurd huser hbuiltin

mutual

theorem Stmt.noLoss_of_held {B : Bindings} {Γ Δ : Scopes Declaration} :
    (s : Stmt) → Held B (s.resolved Γ) (Stmt.resolvedList Δ s.optimize) → s.NoLoss Δ
  | .block _ body, h => by
    rw [Stmt.optimize, Stmt.resolvedList_singleton] at h
    exact Stmt.noLossList_of_held body h
  | .function loc name params _ body _, h => by
    rw [Stmt.optimize, Stmt.resolvedList_singleton] at h
    exact Stmt.noLossList_of_held body h
  | .branch _ condition _ thenBody alternate, h => by
    rw [Stmt.optimize] at h
    obtain ⟨hthen, helse⟩ := h.branch (simplifyBranch_branches ..)
    exact ⟨fun hc => Stmt.noLossList_of_held thenBody (hthen hc),
      fun hc => alternate.noLoss_of_held (helse hc)⟩
  | .loop _ counter _ bound _ body, h => by
    intro hcounts
    refine Stmt.noLossList_of_held body (h.part (List.subset_append_right _ _) fun b hb => ?_)
    -- a loop is left out only if nothing is left of its body
    rw [Stmt.optimize, simplifyLoop, hcounts, Bool.false_or]
    split
    · rename_i hempty
      rw [List.isEmpty_iff.mp hempty] at hb
      cases hb
    · rw [Stmt.resolvedList_singleton]
      exact List.mem_append_right _ hb
  | .assign .., _ | .print .., _ | .serve .., _ | .leave _, _ | .comment .., _
  | .expression .., _ => trivial

theorem Alternate.noLoss_of_held {B : Bindings} {Γ Δ : Scopes Declaration} :
    (a : Alternate) → Held B (a.resolved Γ) (a.optimize.resolved Δ) → a.NoLoss Δ
  | .none, _ => trivial
  | .block _ body, h => Stmt.noLossList_of_held body h
  | .branch _ condition _ thenBody alternate, h => by
    rw [Alternate.optimize, resolved_alternateOf] at h
    obtain ⟨hthen, helse⟩ := h.branch (simplifyBranch_branches ..)
    exact ⟨fun hc => Stmt.noLossList_of_held thenBody (hthen hc),
      fun hc => alternate.noLoss_of_held (helse hc)⟩

theorem Stmt.noLossList_of_held {B : Bindings} {Γ Δ : Scopes Declaration} :
    (ss : List Stmt) →
      Held B (Stmt.resolvedList Γ ss) (Stmt.resolvedList Δ (Stmt.optimizeList ss)) →
      Stmt.NoLossList Δ ss
  | [], _ => trivial
  | s :: ss, h => by
    have happend : Stmt.resolvedList Δ (Stmt.optimizeList (s :: ss)) =
        Stmt.resolvedList Δ s.optimize ++
          Stmt.resolvedList (Stmt.extendList Δ s.optimize) (Stmt.optimizeList ss) :=
      Stmt.resolvedList_append _ _
    refine ⟨?_, fun x hx hfree => claimed_of_lost h hx hfree, ?_⟩
    · exact s.noLoss_of_held
        (h.part (List.subset_append_left _ _) (happend ▸ List.subset_append_left _ _))
    · exact Stmt.noLossList_of_held ss
        (h.part (List.subset_append_right _ _) (happend ▸ List.subset_append_right _ _))

end

/-- Where places tell references apart, a program of which all names keep a declaration uses none whose
declaration has been left out. -/
theorem noDangling_noLoss {p : Program} (hp : p.Distinct) (hk : p.NoDangling) : p.NoLoss :=
  Stmt.noLossList_of_held (B := p.bindings hp) p.statements ⟨fun _ hb => hb, hk⟩

end Necessary

/-! ## Programs with names of their own -/

section OwnNames

/-- Only the names of built-in functions mean them. -/
def OwnNames (Γ : Scopes Declaration) : Prop :=
  ∀ x d, Scopes.lookup? Γ x = some d → ¬ d.IsUser → x ∈ builtinNames

variable {Γ : Scopes Declaration}

theorem OwnNames.cons (h : OwnNames Γ) {f : List (Bytes × Declaration)}
    (hf : ∀ p ∈ f, p.2.IsUser) : OwnNames (f :: Γ) := by
  intro x d hx hd
  cases hfx : f.lookup x with
  | none =>
    rw [Scopes.lookup?_cons_none hfx] at hx
    exact h x d hx hd
  | some e =>
    rw [Scopes.lookup?_cons_some hfx] at hx
    cases hx
    exact absurd (hf (x, d) (Scopes.mem_of_lookup hfx)) hd

theorem OwnNames.push (h : OwnNames Γ) : OwnNames ([] :: Γ) :=
  h.cons fun _ hp => by cases hp

theorem OwnNames.bind (h : OwnNames Γ) (y : Bytes) {e : Declaration} (he : e.IsUser) :
    OwnNames (Scopes.bind y e Γ) := by
  intro x d hx hd
  rw [Scopes.lookup?_bind] at hx
  split at hx
  · cases hx
    exact absurd he hd
  · exact h x d hx hd

theorem OwnNames.extend (h : OwnNames Γ) (s : Stmt) : OwnNames (s.extend Γ) := by
  unfold Stmt.extend
  split
  · rename_i d hd
    exact h.bind d.name (Stmt.isUser_of_declared? hd)
  · exact h

theorem ownNames_startScopes : OwnNames startScopes := by
  intro x d hx _
  obtain ⟨f, hf, hd⟩ := Scopes.exists_mem_of_lookup? hx
  simp only [startScopes, List.mem_cons, List.not_mem_nil, or_false] at hf
  rcases hf with rfl | rfl
  · cases hd
  · obtain ⟨y, hy, hxd⟩ := List.mem_map.mp hd
    cases hxd
    exact hy

/-- A declaration that is left out hides a built-in function. -/
theorem Stmt.builtin_of_mem_lost {s : Stmt} {x : Bytes} (hw : s.WellScoped Γ) (hx : x ∈ s.lost) :
    ∃ d, Scopes.lookup? Γ x = some d ∧ ¬ d.IsUser := by
  obtain ⟨hdeclared, hleft⟩ := Stmt.mem_lost.mp hx
  cases s with
  | assign loc target value declares =>
    cases declares with
    | false => cases hdeclared
    | true =>
      rw [Stmt.optimize, simplifyAssign] at hleft
      split at hleft
      · rename_i hself
        obtain rfl := List.mem_singleton.mp hdeclared
        have hvisible := hw.1.of_mem_names (mem_names_of_assignsItself hself)
        obtain ⟨d, hd⟩ := Option.ne_none_iff_exists'.mp hvisible
        exact ⟨d, hd, fun huser => huser (hw.2 d hd)⟩
      · exact absurd hdeclared hleft
  | function => exact absurd hdeclared hleft
  | _ => cases hdeclared

/-- The declarations have no names of built-in functions. -/
def HidesNothing (declarations : List Declaration) : Prop := ∀ d ∈ declarations, d.name ∉ builtinNames

theorem HidesNothing.part {ds ds' : List Declaration} (h : HidesNothing ds) (hs : ds' ⊆ ds) :
    HidesNothing ds' := fun d hd => h d (hs hd)

mutual

theorem Stmt.noLoss_of_hidesNothing {Γ Δ : Scopes Declaration} (h : OwnNames Γ) :
    (s : Stmt) → s.WellScoped Γ → HidesNothing s.declarations → s.NoLoss Δ
  | .block _ body, hw, hd => Stmt.noLossList_of_hidesNothing h.push body hw hd
  | .function loc name params _ body _, hw, hd =>
    Stmt.noLossList_of_hidesNothing
      ((h.bind name fun hd => by cases hd).cons isUser_of_mem_paramScope) body hw
      (hd.part (List.subset_cons_of_subset _ (List.subset_append_right _ _)))
  | .branch _ _ _ thenBody alternate, hw, hd =>
    ⟨fun _ => Stmt.noLossList_of_hidesNothing h.push thenBody hw.2.1
        (hd.part (List.subset_append_left _ _)),
      fun _ => alternate.noLoss_of_hidesNothing h hw.2.2 (hd.part (List.subset_append_right _ _))⟩
  | .loop _ counter _ _ _ body, hw, hd => fun _ =>
    Stmt.noLossList_of_hidesNothing (h.cons isUser_of_mem_counterScope) body hw.2
      (hd.part (List.subset_cons_self _ _))
  | .assign .., _, _ | .print .., _, _ | .serve .., _, _ | .leave _, _, _ | .comment .., _, _
  | .expression .., _, _ => trivial

theorem Alternate.noLoss_of_hidesNothing {Γ Δ : Scopes Declaration} (h : OwnNames Γ) :
    (a : Alternate) → a.WellScoped Γ → HidesNothing a.declarations → a.NoLoss Δ
  | .none, _, _ => trivial
  | .block _ body, hw, hd => Stmt.noLossList_of_hidesNothing h.push body hw hd
  | .branch _ _ _ thenBody alternate, hw, hd =>
    ⟨fun _ => Stmt.noLossList_of_hidesNothing h.push thenBody hw.2.1
        (hd.part (List.subset_append_left _ _)),
      fun _ => alternate.noLoss_of_hidesNothing h hw.2.2 (hd.part (List.subset_append_right _ _))⟩

theorem Stmt.noLossList_of_hidesNothing {Γ Δ : Scopes Declaration} (h : OwnNames Γ) :
    (ss : List Stmt) → Stmt.WellScopedList Γ ss → HidesNothing (Stmt.declarationsList ss) →
      Stmt.NoLossList Δ ss
  | [], _, _ => trivial
  | s :: ss, hw, hd => by
    have hs := hd.part (List.subset_append_left _ _)
    refine ⟨s.noLoss_of_hidesNothing h hw.1 hs, fun x hx _ => ?_,
      Stmt.noLossList_of_hidesNothing (h.extend s) ss hw.2 (hd.part (List.subset_append_right _ _))⟩
    obtain ⟨e, he, hbuiltin⟩ := Stmt.builtin_of_mem_lost hw.1 hx
    obtain ⟨d, hdeclared, rfl⟩ := mem_declaredNames_singleton.mp (Stmt.mem_lost.mp hx).1
    exact absurd (h d.name e he hbuiltin) (hs d (Stmt.mem_declarations_of_declared? hdeclared))

end

end OwnNames

/-! ## The exact condition -/

/-- A simplified program in which no name is used after its declaration has been left out has no
dangling name, and where places tell references apart every other program has one. There is none if
the program declares no name of a built-in function. -/
theorem optimize_noDangling_iff (tree : Grammar.Tree) {p : Program} (h : analyze tree = .ok p) :
    (p.NoLoss → p.NoDangling) ∧ (p.Distinct → p.NoDangling → p.NoLoss) ∧
      (HidesNothing (Stmt.declarationsList p.statements) → p.NoDangling) :=
  have hw := analyze_wellScoped h
  ⟨noLoss_noDangling hw, noDangling_noLoss, fun hd =>
    noLoss_noDangling hw (Stmt.noLossList_of_hidesNothing ownNames_startScopes p.statements hw hd)⟩

/-- The variable `sqrt`, with the built-in function as its value; the statements after it are given. -/
def hiddenTree (rest : List Grammar.Stmt) : Grammar.Tree :=
  ⟨0,
    .assign ⟨0, 1, 1⟩ (.identifier ⟨0, 1, 1⟩ (ascii "sqrt"))
        (.identifier ⟨0, 1, 8⟩ (ascii "sqrt")) ::
      rest⟩

/-- A function whose parameter has the name of the variable. -/
def hiddenParameterTree : Grammar.Tree :=
  hiddenTree
    [.function ⟨0, 2, 1⟩ (ascii "f") [⟨ascii "sqrt", ⟨0, 2, 10⟩⟩] ⟨0, 2, 16⟩
        [.serve ⟨0, 3, 3⟩ (.identifier ⟨0, 3, 9⟩ (ascii "sqrt"))],
      .print ⟨0, 5, 1⟩ (.call ⟨0, 5, 6⟩ (ascii "f") [.identifier ⟨0, 5, 8⟩ (ascii "abs")])]

/-- The variable is left out, and the function has its parameter. -/
theorem hiddenParameter_noDangling :
    ∃ p, analyze hiddenParameterTree = .ok p ∧
      p.optimize.statements.length < p.statements.length ∧ p.NoLoss ∧ p.Distinct ∧
      p.NoDangling := by
  refine ⟨_, rfl, ?shorter, ?loss, ?distinct, ?dangling⟩
  case shorter => decide +kernel
  case loss => decide +kernel
  case distinct => decide +kernel
  case dangling =>
    refine (optimize_noDangling_iff hiddenParameterTree rfl).1 ?_
    decide +kernel

/-- The variable is left out, and what is printed has no declaration any more. -/
theorem printed_variable_dangles :
    ¬ ∀ (tree : Grammar.Tree) (p : Program), analyze tree = .ok p → p.NoDangling := by
  intro h
  have hdangling := h
    (hiddenTree [.print ⟨0, 2, 1⟩ (.identifier ⟨0, 2, 6⟩ (ascii "sqrt"))]) _ rfl
  revert hdangling
  decide +kernel

end Roar
