import Roar.Bytes

/-!
# Scoped maps

A chain of scopes, the innermost first, each a list of names with what they stand for, the latest
first. The same shape serves the declarations that a reader of a program has in sight and the values
that a run of it keeps.

* `Scopes.lookup?`: a name stands for what the innermost scope that has it says.
* `Scopes.bind` adds to the innermost scope; `Scopes.assign` replaces where a name is found.
* `Scopes.Agree`: one chain stands in for another although some scopes of it are merged into the
  scope around them. It is kept by all operations (`Agree.bind`, `Agree.assign`, `Agree.open_own`,
  `Agree.pop`, `Agree.unmerge`), and what the first chain finds the second finds as well
  (`Agree.lookup?_eq`).
-/

namespace Roar

/-- A chain of scopes. -/
abbrev Scopes (α : Type) := List (List (Bytes × α))

namespace Scopes

variable {α β : Type}

/-- What a name stands for. -/
def lookup? (ρ : Scopes α) (x : Bytes) : Option α := ρ.findSome? (·.lookup x)

/-- Add a name to the innermost scope. -/
def bind (x : Bytes) (a : α) : Scopes α → Scopes α
  | [] => [[(x, a)]]
  | f :: ρ => ((x, a) :: f) :: ρ

/-- Change what a name stands for in one scope. -/
def replace (x : Bytes) (a : α) : List (Bytes × α) → List (Bytes × α)
  | [] => []
  | (y, b) :: f => if x == y then (y, a) :: f else (y, b) :: replace x a f

/-- Change what a name stands for in the innermost scope that has it. -/
def assign (x : Bytes) (a : α) : Scopes α → Scopes α
  | [] => []
  | f :: ρ => if (f.lookup x).isSome then replace x a f :: ρ else f :: assign x a ρ

/-- The names of every scope. -/
def names (ρ : Scopes α) : List (List Bytes) := ρ.map (·.map (·.1))

/-! ## Looking up -/

@[simp] theorem lookup?_nil (x : Bytes) : lookup? ([] : Scopes α) x = none := rfl

theorem lookup?_cons (f : List (Bytes × α)) (ρ : Scopes α) (x : Bytes) :
    lookup? (f :: ρ) x = (f.lookup x).or (lookup? ρ x) := by
  unfold lookup?
  rw [List.findSome?_cons]
  cases f.lookup x <;> rfl

theorem lookup?_cons_some {f : List (Bytes × α)} {x : Bytes} {a : α} (h : f.lookup x = some a)
    (ρ : Scopes α) : lookup? (f :: ρ) x = some a := by rw [lookup?_cons, h]; rfl

theorem lookup?_cons_none {f : List (Bytes × α)} {x : Bytes} (h : f.lookup x = none)
    (ρ : Scopes α) : lookup? (f :: ρ) x = lookup? ρ x := by rw [lookup?_cons, h]; rfl

@[simp] theorem lookup?_push (ρ : Scopes α) (x : Bytes) : lookup? ([] :: ρ) x = lookup? ρ x :=
  lookup?_cons_none rfl ρ

theorem lookup?_append (ρ σ : Scopes α) (x : Bytes) :
    lookup? (ρ ++ σ) x = (lookup? ρ x).or (lookup? σ x) := List.findSome?_append

theorem lookup_cons_self (x : Bytes) (a : α) (f : List (Bytes × α)) :
    ((x, a) :: f).lookup x = some a := by simp

theorem lookup_cons_ne {x y : Bytes} (h : y ≠ x) (a : α) (f : List (Bytes × α)) :
    ((x, a) :: f).lookup y = f.lookup y := by
  rw [List.lookup_cons, beq_eq_false_iff_ne.mpr h]

theorem lookup?_bind_self (x : Bytes) (a : α) (ρ : Scopes α) :
    lookup? (bind x a ρ) x = some a := by
  cases ρ <;> exact lookup?_cons_some (lookup_cons_self x a _) _

theorem lookup?_bind_ne {x y : Bytes} (h : y ≠ x) (a : α) (ρ : Scopes α) :
    lookup? (bind x a ρ) y = lookup? ρ y := by
  cases ρ with
  | nil => simp [bind, lookup?_cons, lookup_cons_ne h]
  | cons f ρ => rw [bind, lookup?_cons, lookup?_cons, lookup_cons_ne h]

theorem lookup?_bind (x y : Bytes) (a : α) (ρ : Scopes α) :
    lookup? (bind x a ρ) y = if y = x then some a else lookup? ρ y := by
  split
  · rename_i h
    rw [h, lookup?_bind_self]
  · rename_i h
    exact lookup?_bind_ne h a ρ

theorem lookup_replace_self {f : List (Bytes × α)} {x : Bytes} (h : f.lookup x ≠ none) (a : α) :
    (replace x a f).lookup x = some a := by
  induction f with
  | nil => simp at h
  | cons p f ih =>
    obtain ⟨y, b⟩ := p
    by_cases hy : x = y
    · simp [replace, hy]
    · rw [lookup_cons_ne hy] at h
      simp only [replace, beq_iff_eq, hy, if_false]
      rw [lookup_cons_ne hy]
      exact ih h

theorem lookup_replace_ne {x y : Bytes} (h : y ≠ x) (a : α) (f : List (Bytes × α)) :
    (replace x a f).lookup y = f.lookup y := by
  induction f with
  | nil => rfl
  | cons p f ih =>
    obtain ⟨z, b⟩ := p
    unfold replace
    split
    · rename_i hz
      have : y ≠ z := fun e => h (e.trans (beq_iff_eq.mp hz).symm)
      rw [lookup_cons_ne this, lookup_cons_ne this]
    · rw [List.lookup_cons, List.lookup_cons, ih]

theorem assign_found {f : List (Bytes × α)} {x : Bytes} (h : f.lookup x ≠ none) (a : α)
    (ρ : Scopes α) : assign x a (f :: ρ) = replace x a f :: ρ := by
  simp [assign, Option.isSome_iff_ne_none.mpr h]

theorem assign_outer {f : List (Bytes × α)} {x : Bytes} (h : f.lookup x = none) (a : α)
    (ρ : Scopes α) : assign x a (f :: ρ) = f :: assign x a ρ := by
  simp [assign, h]

/-- An assignment changes a scope at most at its name. -/
theorem exists_assign_cons (x : Bytes) (a : α) (f : List (Bytes × α)) (ρ : Scopes α) :
    ∃ g σ, assign x a (f :: ρ) = g :: σ ∧ ∀ y, y ≠ x → g.lookup y = f.lookup y := by
  by_cases h : f.lookup x = none
  · exact ⟨f, _, assign_outer h a ρ, fun _ _ => rfl⟩
  · exact ⟨_, ρ, assign_found h a ρ, fun y e => lookup_replace_ne e a f⟩

theorem lookup?_assign_ne {x y : Bytes} (h : y ≠ x) (a : α) (ρ : Scopes α) :
    lookup? (assign x a ρ) y = lookup? ρ y := by
  induction ρ with
  | nil => rfl
  | cons f ρ ih =>
    unfold assign
    split
    · rw [lookup?_cons, lookup?_cons, lookup_replace_ne h]
    · rw [lookup?_cons, lookup?_cons, ih]

private theorem replace_self {f : List (Bytes × α)} {x : Bytes} {a : α} (h : f.lookup x = some a) :
    replace x a f = f := by
  induction f with
  | nil => rfl
  | cons p f ih =>
    obtain ⟨y, b⟩ := p
    unfold replace
    rw [List.lookup_cons] at h
    split at h
    · rename_i hy
      rw [if_pos hy, Option.some.inj h]
    · rename_i hy
      rw [if_neg (by simp [hy]), ih h]

/-- A name can be given what it stands for. -/
theorem assign_self {ρ : Scopes α} {x : Bytes} {a : α} (h : lookup? ρ x = some a) :
    assign x a ρ = ρ := by
  induction ρ with
  | nil => rfl
  | cons f ρ ih =>
    cases hf : f.lookup x with
    | some b =>
      rw [lookup?_cons_some hf] at h
      rw [assign_found (by simp [hf]), replace_self (hf.trans h)]
    | none =>
      rw [lookup?_cons_none hf] at h
      rw [assign_outer hf, ih h]

/-! ## Names -/

theorem names_bind (x : Bytes) (a : α) (b : β) {ρ : Scopes α} {σ : Scopes β}
    (h : names ρ = names σ) : names (bind x a ρ) = names (bind x b σ) := by
  cases ρ <;> cases σ <;> simp_all [names, bind]

theorem names_cons {ρ : Scopes α} {σ : Scopes β} {f : List (Bytes × α)} {g : List (Bytes × β)}
    (hf : f.map (·.1) = g.map (·.1)) (h : names ρ = names σ) : names (f :: ρ) = names (g :: σ) := by
  simp only [names, List.map_cons, hf] at h ⊢
  rw [h]

theorem names_tail {ρ : Scopes α} {σ : Scopes β} (h : names ρ = names σ) :
    names ρ.tail = names σ.tail := by
  cases ρ <;> cases σ <;> simp_all [names]

private theorem map_fst_replace (x : Bytes) (a : α) (f : List (Bytes × α)) :
    (replace x a f).map (·.1) = f.map (·.1) := by
  induction f with
  | nil => rfl
  | cons p f ih =>
    obtain ⟨y, b⟩ := p
    unfold replace
    split
    · rfl
    · simp [ih]

@[simp] theorem names_assign (x : Bytes) (a : α) (ρ : Scopes α) :
    names (assign x a ρ) = names ρ := by
  induction ρ with
  | nil => rfl
  | cons f ρ ih =>
    unfold assign
    split
    · simp [names, map_fst_replace]
    · simp only [names, List.map_cons] at ih ⊢
      rw [ih]

theorem lookup_eq_none_iff {f : List (Bytes × α)} {x : Bytes} :
    f.lookup x = none ↔ x ∉ f.map (·.1) := by
  rw [List.lookup_eq_none_iff]
  simp only [List.mem_map, not_exists, not_and, bne_iff_ne]
  exact ⟨fun h p hp e => h p hp e.symm, fun h p hp e => h p hp e.symm⟩

theorem mem_of_lookup {f : List (Bytes × α)} {x : Bytes} {a : α} (h : f.lookup x = some a) :
    (x, a) ∈ f := by
  obtain ⟨l, r, rfl, -⟩ := List.lookup_eq_some_iff.mp h
  simp

theorem exists_mem_of_lookup? {ρ : Scopes α} {x : Bytes} {a : α} (h : lookup? ρ x = some a) :
    ∃ f ∈ ρ, (x, a) ∈ f := by
  obtain ⟨f, hf, hx⟩ := List.exists_of_findSome?_eq_some h
  exact ⟨f, hf, mem_of_lookup hx⟩

/-- A name has no meaning if and only if no scope has it. -/
theorem lookup?_eq_none_iff {ρ : Scopes α} {x : Bytes} :
    lookup? ρ x = none ↔ ∀ scope ∈ names ρ, x ∉ scope := by
  induction ρ with
  | nil => simp [names]
  | cons f ρ ih =>
    rw [lookup?_cons, Option.or_eq_none_iff, lookup_eq_none_iff, ih]
    simp [names]

/-- Chains with the same names find the same names. -/
theorem lookup?_eq_none_congr {ρ : Scopes α} {σ : Scopes β} (h : names ρ = names σ) (x : Bytes) :
    lookup? ρ x = none ↔ lookup? σ x = none := by
  rw [lookup?_eq_none_iff, lookup?_eq_none_iff, h]

/-! ## What is known of the entries -/

/-- The chain with only what `f` says of its entries. -/
def mapValues (f : α → β) (ρ : Scopes α) : Scopes β := ρ.map fun s => s.map fun p => (p.1, f p.2)

theorem lookup_mapValues (f : α → β) (s : List (Bytes × α)) (x : Bytes) :
    (s.map fun p => (p.1, f p.2)).lookup x = (s.lookup x).map f := by
  induction s with
  | nil => rfl
  | cons p s ih =>
    rw [List.map_cons, List.lookup_cons, List.lookup_cons]
    cases x == p.1
    · exact ih
    · rfl

theorem lookup?_mapValues (f : α → β) (ρ : Scopes α) (x : Bytes) :
    lookup? (mapValues f ρ) x = (lookup? ρ x).map f := by
  induction ρ with
  | nil => rfl
  | cons s ρ ih =>
    have hcons : mapValues f (s :: ρ) = (s.map fun p => (p.1, f p.2)) :: mapValues f ρ := rfl
    rw [hcons, lookup?_cons, lookup?_cons, ih, lookup_mapValues]
    cases s.lookup x <;> rfl

theorem mapValues_bind (f : α → β) (x : Bytes) (a : α) (ρ : Scopes α) :
    mapValues f (bind x a ρ) = bind x (f a) (mapValues f ρ) := by
  cases ρ <;> rfl

private theorem map_replace (f : α → β) (x : Bytes) (a : α) (s : List (Bytes × α)) :
    ((replace x a s).map fun p => (p.1, f p.2)) = replace x (f a) (s.map fun p => (p.1, f p.2)) := by
  induction s with
  | nil => rfl
  | cons p s ih =>
    obtain ⟨y, b⟩ := p
    rw [List.map_cons, replace, replace]
    split
    · rfl
    · rw [List.map_cons, ih]

theorem mapValues_assign (f : α → β) (x : Bytes) (a : α) (ρ : Scopes α) :
    mapValues f (assign x a ρ) = assign x (f a) (mapValues f ρ) := by
  induction ρ with
  | nil => rfl
  | cons s ρ ih =>
    have hcons (s : List (Bytes × α)) (ρ : Scopes α) :
        mapValues f (s :: ρ) = (s.map fun p => (p.1, f p.2)) :: mapValues f ρ := rfl
    rw [hcons, assign, assign, lookup_mapValues, Option.isSome_map]
    split
    · rw [hcons, map_replace]
    · rw [hcons, ih]

private theorem mem_replace {x : Bytes} {a : α} {s : List (Bytes × α)} {p : Bytes × α}
    (h : p ∈ replace x a s) : p ∈ s ∨ p = (x, a) := by
  induction s with
  | nil => cases h
  | cons q s ih =>
    obtain ⟨y, b⟩ := q
    unfold replace at h
    split at h
    · rename_i hy
      rcases List.mem_cons.mp h with rfl | h
      · exact .inr (by rw [beq_iff_eq.mp hy])
      · exact .inl (.tail _ h)
    · rcases List.mem_cons.mp h with rfl | h
      · exact .inl (.head _)
      · exact (ih h).imp (.tail _) id

/-- An assignment changes no entry but that of its name. -/
theorem mem_assign {x : Bytes} {a : α} {ρ : Scopes α} {s : List (Bytes × α)} {p : Bytes × α}
    (hs : s ∈ assign x a ρ) (hp : p ∈ s) : (∃ s' ∈ ρ, p ∈ s') ∨ p = (x, a) := by
  induction ρ with
  | nil => cases hs
  | cons f ρ ih =>
    unfold assign at hs
    split at hs
    · rcases List.mem_cons.mp hs with rfl | hs
      · exact (mem_replace hp).imp (fun h => ⟨f, .head _, h⟩) id
      · exact .inl ⟨s, .tail _ hs, hp⟩
    · rcases List.mem_cons.mp hs with rfl | hs
      · exact .inl ⟨s, .head _, hp⟩
      · exact (ih hs).imp (fun ⟨s', hs', h⟩ => ⟨s', .tail _ hs', h⟩) id

/-! ## A chain that stands in for another -/

/-- How a scope of the first chain lies in the second: as a scope of its own, or as part of the
scope around it. -/
inductive Link where
  | own
  | merged
deriving DecidableEq

/-- The second chain stands in for the first. A scope of the second may hold more names than the one
that it stands for, but none that the first chain finds further out. A scope is merged into the one
around it only if its names have no meaning there. -/
inductive Agree : List Link → Scopes α → Scopes α → Prop
  | nil : Agree [] [] []
  | own {links : List Link} {ρ ρ' : Scopes α} {f f' : List (Bytes × α)} (outer : Agree links ρ ρ')
      (kept : ∀ x, f.lookup x ≠ none → f'.lookup x = f.lookup x)
      (hidden : ∀ x, f.lookup x = none → lookup? ρ x ≠ none → f'.lookup x = none) :
      Agree (.own :: links) (f :: ρ) (f' :: ρ')
  | merged {links : List Link} {ρ ρ' : Scopes α} {f f' : List (Bytes × α)}
      (outer : Agree links ρ (f' :: ρ'))
      (kept : ∀ x, f.lookup x ≠ none → f'.lookup x = f.lookup x)
      (fresh : ∀ x, f.lookup x ≠ none → lookup? ρ x = none) :
      Agree (.merged :: links) (f :: ρ) (f' :: ρ')

namespace Agree

variable {links : List Link} {ρ ρ' : Scopes α} {f f' : List (Bytes × α)} {x : Bytes} {a : α}

/-- What the first chain finds, the second finds as well. -/
theorem lookup?_eq (h : Agree links ρ ρ') (hx : Scopes.lookup? ρ x ≠ none) :
    Scopes.lookup? ρ' x = Scopes.lookup? ρ x := by
  induction h with
  | nil => rfl
  | @own links ρ ρ' f f' outer kept hidden ih =>
    cases hf : f.lookup x with
    | some b =>
      rw [lookup?_cons, kept x (by simp [hf]), lookup?_cons, hf]
      rfl
    | none =>
      rw [lookup?_cons_none hf] at hx ⊢
      rw [lookup?_cons_none (hidden x hf hx), ih hx]
  | @merged links ρ ρ' f f' outer kept _ ih =>
    cases hf : f.lookup x with
    | some b =>
      rw [lookup?_cons, kept x (by simp [hf]), lookup?_cons, hf]
      rfl
    | none =>
      rw [lookup?_cons_none hf] at hx ⊢
      exact ih hx

/-! ### Opening and leaving scopes -/

/-- Both chains open a scope with the same names. -/
theorem open_own (h : Agree links ρ ρ') (f : List (Bytes × α)) :
    Agree (.own :: links) (f :: ρ) (f :: ρ') :=
  .own h (fun _ _ => rfl) (fun _ hf _ => hf)

/-- A scope is opened in the first chain alone. -/
theorem merge (h : Agree links ρ (f' :: ρ')) : Agree (.merged :: links) ([] :: ρ) (f' :: ρ') :=
  .merged h (fun _ hx => absurd rfl hx) (fun _ hx => absurd rfl hx)

/-- Both chains leave a scope. -/
theorem pop (h : Agree (.own :: links) ρ ρ') : Agree links ρ.tail ρ'.tail := by
  cases h with
  | own outer _ _ => exact outer

/-- The first chain leaves a scope that the second does not have. -/
theorem unmerge (h : Agree (.merged :: links) ρ ρ') : Agree links ρ.tail ρ' := by
  cases h with
  | merged outer _ _ => exact outer

/-- No scope is open in the second chain only if none is in the first. -/
theorem exists_cons {l : Link} (h : Agree (l :: links) ρ ρ') : ∃ f' σ, ρ' = f' :: σ := by
  cases h <;> exact ⟨_, _, rfl⟩

/-! ### Adding and changing names -/

/-- A name that the first chain does not find can be changed at will in the second. -/
theorem changeTop {f'' : List (Bytes × α)} (h : Agree links ρ (f' :: ρ'))
    (hx : Scopes.lookup? ρ x = none) (hf : ∀ y, y ≠ x → f''.lookup y = f'.lookup y) :
    Agree links ρ (f'' :: ρ') := by
  generalize hσ : f' :: ρ' = σ at h
  induction h with
  | nil => cases hσ
  | @own links ρ σ' g g' outer kept hidden _ =>
    cases hσ
    rw [lookup?_cons, Option.or_eq_none_iff] at hx
    refine .own outer (fun y hy => ?_) (fun y hy hρ => ?_)
    · rw [hf y (by rintro rfl; exact hy hx.1)]
      exact kept y hy
    · rw [hf y (by rintro rfl; exact hρ hx.2)]
      exact hidden y hy hρ
  | @merged links ρ σ' g g' outer kept fresh ih =>
    cases hσ
    rw [lookup?_cons, Option.or_eq_none_iff] at hx
    refine .merged (ih hx.2 rfl) (fun y hy => ?_) fresh
    rw [hf y (by rintro rfl; exact hy hx.1)]
    exact kept y hy

private theorem kept_cons (kept : ∀ x, f.lookup x ≠ none → f'.lookup x = f.lookup x) (x : Bytes)
    (a : α) :
    ∀ y, ((x, a) :: f).lookup y ≠ none → ((x, a) :: f').lookup y = ((x, a) :: f).lookup y := by
  intro y hy
  by_cases e : y = x
  · rw [e, lookup_cons_self, lookup_cons_self]
  · rw [lookup_cons_ne e] at hy
    rw [lookup_cons_ne e, lookup_cons_ne e]
    exact kept y hy

/-- A name without a meaning is added to both chains. -/
theorem bind {l : Link} (h : Agree (l :: links) ρ ρ') (hx : Scopes.lookup? ρ x = none) :
    Agree (l :: links) (Scopes.bind x a ρ) (Scopes.bind x a ρ') := by
  cases h with
  | own outer kept hidden =>
    refine .own outer (kept_cons kept x a) (fun y hy hρ => ?_)
    have e : y ≠ x := by rintro rfl; simp at hy
    rw [lookup_cons_ne e] at hy ⊢
    exact hidden y hy hρ
  | merged outer kept fresh =>
    rw [lookup?_cons, Option.or_eq_none_iff] at hx
    refine .merged (outer.changeTop hx.2 fun y e => lookup_cons_ne e a _) (kept_cons kept x a)
      (fun y hy => ?_)
    by_cases e : y = x
    · exact e ▸ hx.2
    · exact fresh y (by rwa [lookup_cons_ne e] at hy)

private theorem kept_replace (kept : ∀ x, f.lookup x ≠ none → f'.lookup x = f.lookup x)
    (hx : f.lookup x ≠ none) (a : α) :
    ∀ y, (replace x a f).lookup y ≠ none →
      (replace x a f').lookup y = (replace x a f).lookup y := by
  intro y hy
  by_cases e : y = x
  · rw [e, lookup_replace_self hx, lookup_replace_self (kept x hx ▸ hx)]
  · rw [lookup_replace_ne e] at hy
    rw [lookup_replace_ne e, lookup_replace_ne e]
    exact kept y hy

/-- A name is changed in both chains, each where it finds it. -/
theorem assign (h : Agree links ρ ρ') (hx : Scopes.lookup? ρ x ≠ none) (a : α) :
    Agree links (Scopes.assign x a ρ) (Scopes.assign x a ρ') := by
  induction h with
  | nil => exact absurd rfl hx
  | @own links ρ ρ' f f' outer kept hidden ih =>
    by_cases hf : f.lookup x = none
    · rw [lookup?_cons_none hf] at hx
      rw [assign_outer hf, assign_outer (hidden x hf hx)]
      refine .own (ih hx) kept (fun y hy hρ => hidden y hy ?_)
      rwa [Ne, lookup?_eq_none_congr (names_assign x a ρ)] at hρ
    · rw [assign_found hf, assign_found (kept x hf ▸ hf)]
      refine .own outer (kept_replace kept hf a) (fun y hy hρ => ?_)
      have e : y ≠ x := by
        rintro rfl
        rw [lookup_replace_self hf] at hy
        cases hy
      rw [lookup_replace_ne e] at hy ⊢
      exact hidden y hy hρ
  | @merged links ρ ρ' f f' outer kept fresh ih =>
    by_cases hf : f.lookup x = none
    · rw [lookup?_cons_none hf] at hx
      have ih := ih hx
      obtain ⟨g, σ, hσ, hg⟩ := exists_assign_cons x a f' ρ'
      rw [hσ] at ih ⊢
      rw [assign_outer hf]
      refine .merged ih (fun y hy => ?_) (fun y hy => ?_)
      · rw [hg y (by rintro rfl; exact hy hf)]
        exact kept y hy
      · rw [lookup?_assign_ne (by rintro rfl; exact hy hf)]
        exact fresh y hy
    · rw [assign_found hf, assign_found (kept x hf ▸ hf)]
      refine .merged (outer.changeTop (fresh x hf) fun y e => lookup_replace_ne e a f')
        (kept_replace kept hf a) (fun y hy => ?_)
      by_cases e : y = x
      · exact e ▸ fresh x hf
      · exact fresh y (by rwa [lookup_replace_ne e] at hy)

end Agree

end Scopes

end Roar
