import Roar.Proofs.Scoping.Analysis
import Roar.Proofs.Typing.Marks

/-!
# Analysis and reader side by side

While a text is read for its functions, its analysis keeps with every function the type that the
function has returned so far. `Follows log env v` says that the analysis, with the scopes `env`, has
come to the place `v` of the text after the marks `log`: the scopes have the functions of the reader,
with the types that the marks say. What the analysis does to its scopes keeps this up; to serve a
value changes one symbol, that of the function around the place (`Follows.serve`).
-/

namespace Roar

/-! ## Changing one scope of a chain -/

namespace Scopes

variable {α : Type}

/-- Change what the first entry of a name says. -/
def update (x : Bytes) (g : α → α) : List (Bytes × α) → List (Bytes × α)
  | [] => []
  | (y, a) :: s => if y == x then (y, g a) :: s else (y, a) :: update x g s

/-- Change what a name stands for in the scope with so many scopes around it. -/
def updateAt (depth : Nat) (x : Bytes) (g : α → α) : Scopes α → Scopes α
  | [] => []
  | s :: outer =>
    if outer.length = depth then update x g s :: outer else s :: updateAt depth x g outer

/-- What a name stands for in the scope with so many scopes around it. -/
def lookupAt (depth : Nat) (x : Bytes) : Scopes α → Option α
  | [] => none
  | s :: outer => if outer.length = depth then s.lookup x else lookupAt depth x outer

theorem lookupAt_cons {depth : Nat} {ρ : Scopes α} (h : depth < ρ.length) (x : Bytes)
    (s : List (Bytes × α)) : lookupAt depth x (s :: ρ) = lookupAt depth x ρ := by
  rw [lookupAt, if_neg (by omega)]

theorem lookupAt_innermost (x : Bytes) (s : List (Bytes × α)) (ρ : Scopes α) :
    lookupAt ρ.length x (s :: ρ) = s.lookup x := if_pos rfl

end Scopes

theorem chainOf_modifyAt_eq {α : Type} {f : Meaning → α} {g : α → α} {change : Meaning → Meaning}
    (hc : ∀ m, (change m).name = m.name ∧ f (change m) = g (f m)) (depth : Nat) (x : Bytes)
    (chain : List Scope) :
    chainOf f (Scope.modifyAt depth x change chain) =
      Scopes.updateAt depth x g (chainOf f chain) := by
  have hgo (ms : List Meaning) :
      (Scope.modify.go x change ms).map (fun m => (m.name, f m)) =
        Scopes.update x g (ms.map fun m => (m.name, f m)) := by
    induction ms with
    | nil => rfl
    | cons m ms ih =>
      rw [Scope.modify.go, List.map_cons, Scopes.update]
      split
      · rw [List.map_cons, (hc m).1, (hc m).2]
      · rw [List.map_cons, ih]
  induction chain with
  | nil => rfl
  | cons s outer ih =>
    have hlength : (chainOf f outer).length = outer.length := List.length_map _
    rw [Scope.modifyAt, chainOf_cons, Scopes.updateAt, hlength]
    split
    · rw [chainOf_cons, Scope.modify, hgo]
    · rw [chainOf_cons, ih]

theorem mem_of_lookupAt {Γ : FunctionScopes} {x : Bytes} {d f : Nat}
    (h : Scopes.lookupAt d x Γ = some (some f)) : f ∈ functionNumbers Γ := by
  induction Γ with
  | nil => cases h
  | cons s Γ ih =>
    rw [functionNumbers_cons, List.mem_append]
    unfold Scopes.lookupAt at h
    split at h
    · exact .inl (mem_of_lookup_some h)
    · exact .inr (ih h)

section Update

variable {φ φ' : Nat → ValueType} {g : ValueType → ValueType} {f : Nat}

theorem map_eq_of_notMem (hother : ∀ k, k ≠ f → φ' k = φ k) {s : List (Bytes × Option Nat)}
    (h : f ∉ s.filterMap (·.2)) :
    s.map (fun p => (p.1, p.2.map φ')) = s.map fun p => (p.1, p.2.map φ) := by
  refine List.map_congr_left fun p hp => ?_
  cases hk : p.2 with
  | none => rfl
  | some k =>
    have hne : k ≠ f := by
      rintro rfl
      exact h (List.mem_filterMap.mpr ⟨p, hp, hk⟩)
    simp [hother k hne]

private theorem map_eq_update (hself : φ' f = g (φ f)) (hother : ∀ k, k ≠ f → φ' k = φ k)
    {s : List (Bytes × Option Nat)} {x : Bytes} (hfound : s.lookup x = some (some f))
    (hnodup : (s.filterMap (·.2)).Nodup) :
    s.map (fun p => (p.1, p.2.map φ')) =
      Scopes.update x (·.map g) (s.map fun p => (p.1, p.2.map φ)) := by
  induction s with
  | nil => cases hfound
  | cons p s ih =>
    obtain ⟨y, a⟩ := p
    rw [List.map_cons, List.map_cons, Scopes.update]
    by_cases hy : x = y
    · subst hy
      obtain rfl : a = some f := by simpa using hfound
      have hrest : f ∉ s.filterMap (·.2) := by
        have hcons : (f :: s.filterMap (·.2)).Nodup := hnodup
        exact (List.nodup_cons.mp hcons).1
      rw [if_pos (by simp), map_eq_of_notMem hother hrest]
      simp [hself]
    · rw [Scopes.lookup_cons_ne hy] at hfound
      have hrest : (s.filterMap (·.2)).Nodup ∧ a ≠ some f := by
        cases a with
        | none => exact ⟨by simpa using hnodup, by simp⟩
        | some k =>
          have hcons : (k :: s.filterMap (·.2)).Nodup := hnodup
          rw [List.nodup_cons] at hcons
          refine ⟨hcons.2, fun hk => hcons.1 ?_⟩
          cases hk
          exact mem_of_lookup_some hfound
      have ha : a.map φ' = a.map φ := by
        cases a with
        | none => rfl
        | some k => simp [hother k fun hk => hrest.2 (congrArg some hk)]
      rw [if_neg (by simp [Ne.symm hy]), ih hfound hrest.1, ha]

/-- What the marks say of one function changes one entry only. -/
theorem mapValues_eq_updateAt (hself : φ' f = g (φ f)) (hother : ∀ k, k ≠ f → φ' k = φ k)
    {Γ : FunctionScopes} {x : Bytes} {d : Nat} (hfound : Scopes.lookupAt d x Γ = some (some f))
    (hnodup : (functionNumbers Γ).Nodup) :
    Γ.mapValues (·.map φ') = Scopes.updateAt d x (·.map g) (Γ.mapValues (·.map φ)) := by
  induction Γ with
  | nil => cases hfound
  | cons s Γ ih =>
    have hcons (φ : Nat → ValueType) : Scopes.mapValues (·.map φ) (s :: Γ) =
        (s.map fun p => (p.1, p.2.map φ)) :: Scopes.mapValues (·.map φ) Γ := rfl
    have hlength : (Scopes.mapValues (·.map φ) Γ).length = Γ.length := List.length_map _
    rw [functionNumbers_cons, List.nodup_append] at hnodup
    obtain ⟨hs, hΓ, hdisjoint⟩ := hnodup
    rw [hcons, hcons, Scopes.updateAt, hlength]
    unfold Scopes.lookupAt at hfound
    split at hfound
    · rename_i hd
      have houter : Scopes.mapValues (·.map φ') Γ = Scopes.mapValues (·.map φ) Γ := by
        refine List.map_congr_left fun s' hs' => map_eq_of_notMem hother fun hf => ?_
        have hmem : f ∈ functionNumbers Γ := by
          obtain ⟨p, hp, hk⟩ := List.mem_filterMap.mp hf
          exact List.mem_filterMap.mpr ⟨p, List.mem_flatten_of_mem hs' hp, hk⟩
        exact hdisjoint f (mem_of_lookup_some hfound) f hmem rfl
      rw [if_pos hd, map_eq_update hself hother hfound hs, houter]
    · rename_i hd
      have hnot : f ∉ s.filterMap (·.2) := fun hf =>
        hdisjoint f hf f (mem_of_lookupAt hfound) rfl
      rw [if_neg hd, map_eq_of_notMem hother hnot, ih hfound hΓ]

end Update

/-! ## The scopes of the analysis -/

/-- What a function is known to return. -/
def Meaning.returns? (m : Meaning) : Option ValueType :=
  if m.kind = .function then some m.returns else none

/-- The function whose body a place lies in, as the analysis has it and as the reader does. It is
declared in a scope around the innermost one. -/
def Owned (Γ : FunctionScopes) : Option (Nat × Bytes) → Option Nat → Prop
  | none, none => True
  | some (depth, x), some f => depth + 1 < Γ.length ∧ Scopes.lookupAt depth x Γ = some (some f)
  | _, _ => False

/-- The analysis has come to this place of the text, after these marks. -/
structure Follows (log : List Mark) (env : Env) (v : Sight) : Prop where
  chain : chainOf Meaning.returns? env.scopes = v.scopes.mapValues (·.map (returnsAfter log))
  nodup : (functionNumbers v.scopes).Nodup
  below : ∀ f ∈ functionNumbers v.scopes, f < v.count
  served : ∀ f t, .served f t ∈ log → f < v.count
  owned : Owned v.scopes env.function v.own

namespace Follows

variable {log : List Mark} {env : Env} {v : Sight} {x : Bytes} {m : Meaning}

theorem lookup?_eq (h : Follows log env v) (hx : env.lookup? x = some m) :
    (Scopes.lookup? v.scopes x).map (·.map (returnsAfter log)) = some m.returns? := by
  rw [← Scopes.lookup?_mapValues, ← h.chain, lookup?_chainOf]
  exact congrArg (Option.map Meaning.returns?) hx

/-- A function has returned by now what the marks say. -/
theorem returns_eq (h : Follows log env v) (hx : env.lookup? x = some m) {f : Nat}
    (hf : Scopes.lookup? v.scopes x = some (some f)) : m.returns = returnsAfter log f := by
  have hreturns := h.lookup?_eq hx
  rw [hf, Option.map_some, Option.some.injEq, Option.map_some, Meaning.returns?] at hreturns
  split at hreturns
  · exact (Option.some.inj hreturns).symm
  · cases hreturns

/-- Marks that are no served values change nothing. -/
theorem log_append {marks : List Mark} (h : Follows log env v)
    (hmarks : ∀ f t, .served f t ∉ marks) : Follows (log ++ marks) env v where
  chain := by
    have hsame : returnsAfter (log ++ marks) = returnsAfter log :=
      funext fun f => returnsAfter_append_of_notMem (hmarks f) log
    rw [hsame]
    exact h.chain
  nodup := h.nodup
  below := h.below
  served := by
    intro f t hmem
    rcases List.mem_append.mp hmem with hmem | hmem
    · exact h.served f t hmem
    · exact absurd hmem (hmarks f t)
  owned := h.owned

theorem owned_bind {Γ : FunctionScopes} {function : Option (Nat × Bytes)} {own : Option Nat}
    (h : Owned Γ function own) (x : Bytes) (a : Option Nat) :
    Owned (Scopes.bind x a Γ) function own := by
  cases function with
  | none =>
    cases own with
    | none => trivial
    | some f => exact h
  | some p =>
    cases own with
    | none => exact h
    | some f =>
      obtain ⟨hlength, hfound⟩ := h
      cases Γ with
      | nil => cases hfound
      | cons s Γ =>
        rw [List.length_cons] at hlength
        refine ⟨by rw [Scopes.bind, List.length_cons]; exact hlength, ?_⟩
        rw [Scopes.bind, Scopes.lookupAt_cons (by omega)]
        rwa [Scopes.lookupAt_cons (by omega)] at hfound

theorem owned_cons {Γ : FunctionScopes} {function : Option (Nat × Bytes)} {own : Option Nat}
    (h : Owned Γ function own) (s : List (Bytes × Option Nat)) : Owned (s :: Γ) function own := by
  cases function with
  | none =>
    cases own with
    | none => trivial
    | some f => exact h
  | some p =>
    cases own with
    | none => exact h
    | some f =>
      refine ⟨by have := h.1; simp; omega, ?_⟩
      rw [Scopes.lookupAt_cons (by have := h.1; omega)]
      exact h.2

/-- Something that is no function is declared. -/
theorem bind (h : Follows log env v) (hm : m.kind ≠ .function) :
    Follows log (env.define m) (v.bind m.name) where
  chain := by
    rw [Env.define, chainOf_defineIn, h.chain, Sight.bind, Scopes.mapValues_bind, Meaning.returns?,
      if_neg hm]
    rfl
  nodup := by
    rw [Sight.bind, functionNumbers_bind_none]
    exact h.nodup
  below := by
    rw [Sight.bind, functionNumbers_bind_none]
    exact h.below
  served := h.served
  owned := owned_bind h.owned _ _

/-- The next function is declared. It has served nothing. -/
theorem declare (h : Follows log env v) (x : Bytes) (paramCount : Nat) :
    Follows log (env.define ⟨.function, x, .unknown, paramCount, .unknown⟩) (v.declare x) where
  chain := by
    have hnone : returnsAfter log v.count = .unknown := by
      rw [returnsAfter, servedTypes_eq_nil fun t ht => Nat.lt_irrefl _ (h.served _ t ht)]
      rfl
    rw [Env.define, chainOf_defineIn, h.chain, Sight.declare, Scopes.mapValues_bind,
      Option.map_some, hnone]
    rfl
  nodup := by
    rw [Sight.declare, functionNumbers_bind_some]
    exact List.nodup_cons.mpr ⟨fun hmem => Nat.lt_irrefl _ (h.below _ hmem), h.nodup⟩
  below := by
    intro f hf
    rw [Sight.declare, functionNumbers_bind_some] at hf
    rcases List.mem_cons.mp hf with rfl | hf
    · exact Nat.lt_succ_self _
    · exact Nat.lt_succ_of_lt (h.below f hf)
  served := fun f t ht => Nat.lt_succ_of_lt (h.served f t ht)
  owned := owned_bind h.owned _ _

theorem enter (h : Follows log env v) (inLoop inFunction : Bool) :
    Follows log (env.push inLoop inFunction) (v.enter []) where
  chain := congrArg ([] :: ·) h.chain
  nodup := h.nodup
  below := h.below
  served := h.served
  owned := owned_cons h.owned _

/-- A change of symbols that does not change what functions return. -/
theorem modify (h : Follows log env v) {change : Meaning → Meaning}
    (hc : ∀ m, (change m).name = m.name ∧ (change m).returns? = m.returns?) (x : Bytes) :
    Follows log (env.modify x change) v where
  chain := by
    rw [← h.chain]
    unfold Env.modify
    split
    · exact chainOf_modifyAt hc _ _ _
    · rfl
  nodup := h.nodup
  below := h.below
  served := h.served
  owned := by
    have hfunction : (env.modify x change).function = env.function := by
      unfold Env.modify
      split <;> rfl
    rw [hfunction]
    exact h.owned

/-- A value is served by the function whose body this is. -/
theorem serve (h : Follows log env v) (type : ValueType) :
    Follows (log ++ (v.own.map (.served · type)).toList) (env.noteReturn type) v := by
  have howned := h.owned
  unfold Env.noteReturn
  cases hfunction : env.function with
  | none =>
    cases hown : v.own with
    | none => simpa using h
    | some f =>
      rw [hfunction, hown] at howned
      exact howned.elim
  | some p =>
    obtain ⟨depth, x⟩ := p
    cases hown : v.own with
    | none =>
      rw [hfunction, hown] at howned
      exact howned.elim
    | some f =>
      rw [hfunction, hown] at howned
      refine ⟨?_, h.nodup, h.below, ?_, by rwa [hown]⟩
      · -- the symbol of `f` changes as its entry in the log does, and no other function has its
        -- number
        refine (chainOf_modifyAt_eq (f := Meaning.returns?)
          (g := (·.map fun r => if r = .unknown then type else r)) (fun m => ?_) depth x
          env.scopes).trans ?_
        · by_cases hr : m.returns = .unknown <;> by_cases hk : m.kind = .function <;>
            simp [Meaning.returns?, hr, hk]
        rw [h.chain]
        refine (mapValues_eq_updateAt ?_ (fun k hk => ?_) howned.2 h.nodup).symm
        · have hone : returnsAfter [.served f type] f = type := by
            cases type <;> simp [returnsAfter, servedTypes, Mark.servedBy, firstKnown]
          rw [Option.map_some, Option.toList_some, returnsAfter_append, hone]
        · refine returnsAfter_append_of_notMem (fun t ht => hk ?_) log
          rw [Option.map_some, Option.toList_some, List.mem_singleton] at ht
          exact (Mark.served.inj ht).1
      · intro g t ht
        rcases List.mem_append.mp ht with ht | ht
        · exact h.served g t ht
        · rw [Option.map_some, Option.toList_some, List.mem_singleton] at ht
          rw [(Mark.served.inj ht).1]
          exact h.below f (mem_of_lookupAt howned.2)

/-- A scope is left again. -/
theorem leave {inner : Env} {w : Sight} {s : List (Bytes × Option Nat)}
    {function : Option (Nat × Bytes)} (h : Follows log inner w) (hw : w.scopes = s :: v.scopes)
    (howned : Owned v.scopes function v.own) :
    Follows log { inner.pop with function } (v.upTo w) := by
  have hnumbers := functionNumbers_cons s v.scopes
  refine ⟨?_, ?_, fun f hf => ?_, h.served, howned⟩
  · have hchain := h.chain
    rw [hw] at hchain
    cases hs : inner.scopes with
    | nil =>
      rw [hs] at hchain
      cases hchain
    | cons scope outer =>
      rw [hs, chainOf_cons] at hchain
      rw [Env.pop, hs, List.tail_cons]
      exact (List.cons.inj hchain).2
  · have hnodup := h.nodup
    rw [hw, hnumbers] at hnodup
    exact (List.nodup_append.mp hnodup).2.1
  · refine h.below f ?_
    rw [hw, hnumbers]
    exact List.mem_append_right _ hf

/-- The parameters of a function are declared one after the other. -/
theorem defineParams {params : List Grammar.Param} {env env' : Env} {v : Sight}
    {s : List (Bytes × Option Nat)} {Γ : FunctionScopes} (h : Follows log env v)
    (hs : v.scopes = s :: Γ) (hd : defineParams env params = .ok env') :
    Follows log env'
      { v with scopes := ((params.map (·.name)).reverse.map (·, none) ++ s) :: Γ } := by
  induction params generalizing env v s with
  | nil =>
    cases hd
    rw [List.map_nil, List.reverse_nil, List.map_nil, List.nil_append, ← hs]
    exact h
  | cons p ps ih =>
    unfold Roar.defineParams at hd
    split at hd
    · cases hd
    · have hp := h.bind (m := ⟨.parameter, p.name, .number, 0, .unknown⟩) (by simp)
      have hscopes : (v.bind p.name).scopes = ((p.name, none) :: s) :: Γ := by
        rw [Sight.bind, hs]
        rfl
      simpa [Sight.bind] using ih hp hscopes hd

/-- What a function has returned by now is what its symbol in the innermost scope says. -/
theorem innermost_returns {x : Bytes} {f : Nat} {s : List (Bytes × Option Nat)}
    {Γ : FunctionScopes} (h : Follows log env v) (hv : v.scopes = ((x, some f) :: s) :: Γ) :
    ((env.innermost.local? x).map (·.returns)).getD .unknown = returnsAfter log f := by
  have hchain := h.chain
  rw [hv] at hchain
  cases hs : env.scopes with
  | nil =>
    rw [hs] at hchain
    cases hchain
  | cons scope outer =>
    rw [hs, chainOf_cons] at hchain
    have hlookup := congrArg (List.lookup x) (List.cons.inj hchain).1
    simp only [lookup_chainOf, List.map_cons, List.lookup_cons_self, Option.map_some] at hlookup
    obtain ⟨m, hm, hreturns⟩ := Option.map_eq_some_iff.mp hlookup
    rw [Env.innermost, hs, List.headD_cons, hm, Option.map_some, Option.getD_some]
    unfold Meaning.returns? at hreturns
    split at hreturns
    · exact Option.some.inj hreturns
    · cases hreturns

/-- In the body of the function that was declared last. -/
theorem ofFunction {x : Bytes} {f : Nat} {s t : List (Bytes × Option Nat)} {Γ : FunctionScopes}
    (h : Follows log env v) (hv : v.scopes = t :: ((x, some f) :: s) :: Γ) :
    Follows log { env with function := some (Γ.length, x) } { v with own := some f } where
  chain := h.chain
  nodup := h.nodup
  below := h.below
  served := h.served
  owned := by
    change Owned v.scopes (some (Γ.length, x)) (some f)
    rw [hv]
    refine ⟨by simp, ?_⟩
    rw [Scopes.lookupAt_cons (by simp), Scopes.lookupAt_innermost, List.lookup_cons_self]

theorem length_eq (h : Follows log env v) : env.scopes.length = v.scopes.length := by
  have hlength := congrArg List.length h.chain
  simpa only [chainOf, Scopes.mapValues, List.length_map] using hlength

/-- At the start of the body of a function. -/
theorem functionBody {inner : Env} {name : Bytes} {params : List Grammar.Param}
    (hf : Follows log env v)
    (hi : Roar.defineParams
      ((env.define ⟨.function, name, .unknown, params.length, .unknown⟩).push false true) params =
        .ok inner) :
    Follows log
      { inner with
        function := some
          ((env.define ⟨.function, name, .unknown, params.length, .unknown⟩).scopes.length - 1,
            name) }
      { (v.declare name).enter (params.map (·.name)).reverse with own := some v.count } := by
  have hname := hf.declare name params.length
  obtain ⟨s, Γ, hΓ⟩ := v.exists_scopes_declare name
  have hdepth : (env.define ⟨.function, name, .unknown, params.length, .unknown⟩).scopes.length - 1
      = Γ.length := by
    rw [hname.length_eq, hΓ]
    rfl
  have hparams := (hname.enter false true).defineParams rfl hi
  rw [List.map_nil, List.append_nil] at hparams
  rw [hdepth]
  exact hparams.ofFunction (congrArg (_ :: ·) hΓ)

end Follows

theorem Follows.start : Follows [] Env.start .start where
  chain := by rfl
  nodup := by decide
  below := by decide
  served := by
    intro f t ht
    cases ht
  owned := trivial

end Roar
