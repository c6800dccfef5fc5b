import Mathlib.Data.List.Forall2
import Roar.Proofs.Scoping.Analysis
import Roar.Proofs.Target.Names

/-!
# The table of names follows the scopes of the analysis

The analysis of a program and the output of it each keep scopes of their own. They go in lock step:
where the one looks a name up the other mentions it, and the declarations in sight are the same, scope
by scope and entry by entry (`Lookup.Meets`). The table has more entries than the analysis, as loops
keep their bounds in it. So a name is written as the declaration that it means, unless it is spelled
like the bound of a loop that lies between them (`Mention.Explained`).

* `Grammar.Tree.lookups`: the names that an analysis looks up, each with the scopes there.
* `Lockstep`: what the two have in common before every statement, and the steps that keep it.
* `Lockstep.explained_of_user`, `Lockstep.explained_of_builtin`: a mention has its explanation.
-/

namespace Roar

/-! ## What the analysis looks up -/

/-- A name that is looked up, with the scopes there. -/
structure Lookup where
  reference : Reference
  scopes : List Scope

namespace Grammar

mutual

/-- The references of an expression, in order. -/
def Expr.references : Expr → List Reference
  | .number .. | .string .. | .boolean .. => []
  | .interpolated _ segments => Segment.referencesList segments
  | .identifier loc name => [⟨.use, loc, name⟩]
  | .binary _ _ left right | .compare _ _ left right => left.references ++ right.references
  | .unary _ _ operand => operand.references
  | .call loc callee args => ⟨.callee, loc, callee⟩ :: Expr.referencesList args

def Expr.referencesList : List Expr → List Reference
  | [] => []
  | e :: es => e.references ++ Expr.referencesList es

def Segment.referencesList : List Segment → List Reference
  | [] => []
  | .text _ :: ss => Segment.referencesList ss
  | .embedded value :: ss => value.references ++ Segment.referencesList ss

end

/-- The names that the analysis of an expression looks up. -/
def Expr.lookups (env : Env) (e : Expr) : List Lookup := e.references.map (⟨·, env.scopes⟩)

mutual

/-- The names that the analysis of a statement looks up, in the order of the text. -/
def Stmt.lookups (env : Env) : Stmt → List Lookup
  | .print _ value | .serve _ value | .expression _ value => value.lookups env
  | .assign _ (.identifier loc name) value =>
    (if env.declares name then [] else [⟨⟨.target, loc, name⟩, env.scopes⟩]) ++ value.lookups env
  | .function _ name params _ body =>
    let env := env.define ⟨.function, name, .unknown, params.length, .unknown⟩
    match defineParams (env.push false true) params with
    | .ok inner =>
      Stmt.lookupsList { inner with function := some (env.scopes.length - 1, name) } body
    | .error _ => []
  | .branch _ arms => arms.lookups env
  | .loop _ (.identifier _ name) _ bound _ body =>
    bound.lookups env ++
      Stmt.lookupsList
        ((env.push true env.inFunction).define ⟨.loopVariable, name, .number, 0, .unknown⟩) body
  | .assign .. | .loop .. | .leave _ | .comment .. => []

def Arms.lookups (env : Env) : Arms → List Lookup
  | .done => []
  | .otherwise _ body => Stmt.lookupsList env.pushBlock body
  | .arm _ condition _ body rest =>
    condition.lookups env ++ Stmt.lookupsList env.pushBlock body ++
      match analyzeStmts env.pushBlock body with
      | .ok (_, inner) => rest.lookups inner.pop
      | .error _ => []

def Stmt.lookupsList (env : Env) : List Stmt → List Lookup
  | [] => []
  | s :: ss =>
    s.lookups env ++
      match analyzeStmt env s with
      | .ok (_, env) => Stmt.lookupsList env ss
      | .error _ => []

end

/-- The names that the analysis of a source looks up. -/
def Tree.lookups (tree : Tree) : List Lookup := Stmt.lookupsList Env.start tree.statements

end Grammar

/-! ## Entries of the table -/

/-- A name that ends as the names of bounds do. -/
def IsLimitName (x : Bytes) : Prop := ascii "_limit" <:+ x

instance (x : Bytes) : Decidable (IsLimitName x) := inferInstanceAs (Decidable (_ <:+ _))

theorem isLimitName_limitName (counter : Bytes) : IsLimitName (Script.limitName counter) :=
  List.suffix_append counter _

theorem not_isLimitName_of_builtin : ∀ x ∈ builtinNames, ¬ IsLimitName x := by decide +kernel

/-- An entry of a table, with the piece of the output that introduces its name. -/
inductive Noted (G : List Piece) : Bytes × Item → Prop
  | declared {x : Bytes} {named : Named} (user : named.declaration.IsUser)
      (piece : .declared named ∈ G) : Noted G (x, .declared named)
  | bound {x output : Bytes} (limit : IsLimitName x) (piece : .bound output ∈ G) :
      Noted G (x, .bound output)

namespace Naming

variable {scope : List (Bytes × Item)} {chain : Scopes Item} {x : Bytes} {named : Named}

@[simp] theorem declaredIn_declared (x : Bytes) (named : Named) (scope : List (Bytes × Item)) :
    declaredIn ((x, .declared named) :: scope) = (x, named) :: declaredIn scope := rfl

@[simp] theorem declaredIn_bound (x output : Bytes) (scope : List (Bytes × Item)) :
    declaredIn ((x, .bound output) :: scope) = declaredIn scope := rfl

theorem lookup_declaredIn_of_declared (h : scope.lookup x = some (.declared named)) :
    (declaredIn scope).lookup x = some named := by
  induction scope with
  | nil => cases h
  | cons e scope ih =>
    obtain ⟨y, item⟩ := e
    by_cases hxy : x = y
    · subst hxy
      rw [Scopes.lookup_cons_self] at h
      cases h
      rw [declaredIn_declared, Scopes.lookup_cons_self]
    · rw [Scopes.lookup_cons_ne hxy] at h
      cases item with
      | declared _ => rw [declaredIn_declared, Scopes.lookup_cons_ne hxy, ih h]
      | bound _ => rw [declaredIn_bound, ih h]

private theorem map_fst_declaredIn_subset (scope : List (Bytes × Item)) :
    (declaredIn scope).map (·.1) ⊆ scope.map (·.1) := by
  induction scope with
  | nil => exact List.Subset.refl _
  | cons e scope ih =>
    obtain ⟨y, item⟩ := e
    cases item with
    | declared _ => exact List.cons_subset_cons y ih
    | bound _ => exact List.subset_cons_of_subset y ih

theorem lookup_declaredIn_of_none (h : scope.lookup x = none) :
    (declaredIn scope).lookup x = none := by
  rw [Scopes.lookup_eq_none_iff] at h ⊢
  exact fun hx => h (map_fst_declaredIn_subset scope hx)

/-- No bound hides a declaration of the same scope. -/
def Latest (scope : List (Bytes × Item)) : Prop :=
  ∀ x output, scope.lookup x = some (.bound output) → (declaredIn scope).lookup x = none

/-- The bounds in a scope. -/
theorem mem_bounds_iff :
    x ∈ (scope.filter (·.2.named?.isNone)).map (·.1) ↔ ∃ output, (x, Item.bound output) ∈ scope := by
  simp only [List.mem_map, List.mem_filter]
  constructor
  · rintro ⟨⟨y, item⟩, ⟨hmem, hnone⟩, rfl⟩
    cases item with
    | declared _ => cases hnone
    | bound output => exact ⟨output, hmem⟩
  · rintro ⟨output, hmem⟩
    exact ⟨_, ⟨hmem, rfl⟩, rfl⟩

private theorem mem_boundsPassed_cons {outer : Scopes Item} :
    x ∈ boundsPassed x (scope :: outer) ↔ (declaredIn scope).lookup x = none ∧
      ((∃ output, (x, Item.bound output) ∈ scope) ∨ x ∈ boundsPassed x outer) := by
  rw [boundsPassed]
  cases hx : (declaredIn scope).lookup x with
  | some named => simp
  | none => simp [mem_bounds_iff]

/-- A name is spelled like a bound that is passed if and only if the table has a bound for it. -/
theorem mem_boundsPassed_iff (h : ∀ scope ∈ chain, Latest scope) :
    x ∈ boundsPassed x chain ↔ ∃ output, Scopes.lookup? chain x = some (.bound output) := by
  induction chain with
  | nil => simp [boundsPassed]
  | cons scope outer ih =>
    have ih := ih fun s hs => h s (List.mem_cons_of_mem scope hs)
    rw [mem_boundsPassed_cons, ih]
    cases hx : scope.lookup x with
    | none =>
      have hbounds (output : Bytes) : (x, Item.bound output) ∉ scope := by
        intro hmem
        rw [Scopes.lookup_eq_none_iff] at hx
        exact hx (List.mem_map_of_mem hmem)
      simp [lookup_declaredIn_of_none hx, hbounds, Scopes.lookup?_cons_none hx]
    | some item =>
      rw [Scopes.lookup?_cons_some hx]
      cases item with
      | declared named => simp [lookup_declaredIn_of_declared hx]
      | bound output =>
        have hmem := Scopes.mem_of_lookup hx
        simp only [h scope List.mem_cons_self x output hx, true_and, Option.some.injEq,
          Item.bound.injEq, exists_eq', iff_true]
        exact .inl ⟨output, hmem⟩

/-- What the table has for a name is the declaration in sight, if it is one. -/
theorem lookup?_declaredIn_of_declared (h : Scopes.lookup? chain x = some (.declared named)) :
    Scopes.lookup? (chain.map declaredIn) x = some named := by
  induction chain with
  | nil => cases h
  | cons scope outer ih =>
    rw [List.map_cons]
    cases hx : scope.lookup x with
    | none =>
      rw [Scopes.lookup?_cons_none hx] at h
      rw [Scopes.lookup?_cons_none (lookup_declaredIn_of_none hx), ih h]
    | some item =>
      rw [Scopes.lookup?_cons_some hx] at h
      cases h
      exact Scopes.lookup?_cons_some (lookup_declaredIn_of_declared hx) _

theorem lookup?_declaredIn_of_none (h : Scopes.lookup? chain x = none) :
    Scopes.lookup? (chain.map declaredIn) x = none := by
  induction chain with
  | nil => rfl
  | cons scope outer ih =>
    rw [Scopes.lookup?_cons, Option.or_eq_none_iff] at h
    rw [List.map_cons, Scopes.lookup?_cons_none (lookup_declaredIn_of_none h.1), ih h.2]

/-- The entries of a table are noted, and no bound hides a declaration of its scope. -/
structure Orderly (G : List Piece) (st : Naming) : Prop where
  noted : ∀ scope ∈ st.scopes, ∀ e ∈ scope, Noted G e
  latest : ∀ scope ∈ st.scopes, Latest scope

/-- The declarations in sight, without their names in the output. -/
def declarations (st : Naming) : Scopes Declaration := st.inSight.mapValues Named.declaration

end Naming

/-! ## Mentions -/

/-- How a mention comes about. The name means a declaration of the program and is written as that; or
it is spelled like the bound of a loop in between and is written as that; or it means a built-in
function. -/
inductive Mention.Explained (G : List Piece) (m : Mention) : Prop
  | declared (named : Named) (user : named.declaration.IsUser) (meant : m.meant = some named)
      (found : m.found = some (.declared named)) (text : m.text = named.output)
      (piece : .declared named ∈ G) (clear : m.reference.name ∉ m.passed)
  | captured (named : Named) (user : named.declaration.IsUser) (meant : m.meant = some named)
      (output : Bytes) (found : m.found = some (.bound output)) (text : m.text = output)
      (piece : .bound output ∈ G) (limit : IsLimitName m.reference.name)
      (passed : m.reference.name ∈ m.passed)
  | builtin (known : m.reference.name ∈ builtinNames)
      (meant : m.meant =
        some ⟨⟨.builtin, m.reference.name, {}⟩, builtinScript m.reference.name⟩)
      (found : m.found = none) (text : m.text = builtinScript m.reference.name)
      (clear : m.reference.name ∉ m.passed)

/-- The analysis looks a name up where the output mentions it, with the same declarations in sight. -/
structure Lookup.Meets (l : Lookup) (m : Mention) : Prop where
  reference : m.reference = l.reference
  scopes : chainKinds l.scopes = m.naming.declarations.kinds

/-- What the analysis and the output have in common. -/
structure Lockstep (G : List Piece) (env : Env) (st : Naming) : Prop where
  same : Matches env st.declarations
  orderly : st.Orderly G

theorem Naming.lookup?_inSight (st : Naming) (x : Bytes) :
    Scopes.lookup? st.inSight x =
      (Scopes.lookup? (st.scopes.map declaredIn) x).or (builtins.lookup x) := by
  rw [inSight, Scopes.lookup?_append, Scopes.lookup?_cons]
  simp

theorem Naming.eq_of_lookup_builtins {x : Bytes} {named : Named}
    (h : builtins.lookup x = some named) :
    x ∈ builtinNames ∧ named = ⟨⟨.builtin, x, {}⟩, builtinScript x⟩ := by
  obtain ⟨y, hy, heq⟩ := List.mem_map.mp (Scopes.mem_of_lookup h)
  cases heq
  exact ⟨hy, rfl⟩

theorem Naming.resolve?_names (st : Naming) (x : Bytes) :
    st.names.resolve? x = (Scopes.lookup? st.scopes x).map Item.output :=
  Scopes.lookup?_mapValues Item.output st.scopes x

namespace Lockstep

variable {G : List Piece} {env : Env} {st : Naming} {x : Bytes} {m : Meaning}

/-! ### What is found -/

theorem exists_inSight (h : Lockstep G env st) (hx : env.lookup? x = some m) :
    ∃ named, Scopes.lookup? st.inSight x = some named ∧ named.declaration.kind = m.kind := by
  have hkind := h.same.kind_eq x
  rw [hx, Naming.declarations, Scopes.lookup?_mapValues, Option.map_map] at hkind
  obtain ⟨named, hnamed, hk⟩ := Option.map_eq_some_iff.mp hkind.symm
  exact ⟨named, hnamed, hk⟩

private theorem isUser_of_declaredIn (h : Lockstep G env st) {named : Named}
    (hx : Scopes.lookup? (st.scopes.map Naming.declaredIn) x = some named) :
    named.declaration.IsUser := by
  obtain ⟨_, hscope, hmem⟩ := Scopes.exists_mem_of_lookup? hx
  obtain ⟨scope, hs, rfl⟩ := List.mem_map.mp hscope
  obtain ⟨⟨y, item⟩, he, heq⟩ := List.mem_filterMap.mp hmem
  cases item with
  | declared named' =>
    cases heq
    cases h.orderly.noted scope hs _ he with
    | declared user _ => exact user
  | bound _ => cases heq

theorem noted_of_found (h : Lockstep G env st) {item : Item}
    (hx : Scopes.lookup? st.scopes x = some item) : Noted G (x, item) := by
  obtain ⟨scope, hs, he⟩ := Scopes.exists_mem_of_lookup? hx
  exact h.orderly.noted scope hs _ he

/-- A name that means a built-in function has no entry. -/
theorem of_builtin (h : Lockstep G env st) (hx : env.lookup? x = some m) (hk : m.kind = .builtin) :
    x ∈ builtinNames ∧ Scopes.lookup? st.scopes x = none ∧
      Scopes.lookup? st.inSight x = some ⟨⟨.builtin, x, {}⟩, builtinScript x⟩ := by
  obtain ⟨named, hnamed, hkind⟩ := h.exists_inSight hx
  rw [hk] at hkind
  have hsight := hnamed
  rw [Naming.lookup?_inSight] at hnamed
  cases hd : Scopes.lookup? (st.scopes.map Naming.declaredIn) x with
  | some named' =>
    rw [hd] at hnamed
    cases hnamed
    exact absurd hkind (h.isUser_of_declaredIn hd)
  | none =>
    rw [hd] at hnamed
    obtain ⟨hmem, rfl⟩ := Naming.eq_of_lookup_builtins hnamed
    refine ⟨hmem, ?_, hsight⟩
    cases hfound : Scopes.lookup? st.scopes x with
    | none => rfl
    | some item =>
      cases item with
      | declared named' =>
        rw [Naming.lookup?_declaredIn_of_declared hfound] at hd
        cases hd
      | bound output =>
        cases h.noted_of_found hfound with
        | bound limit _ => exact absurd limit (not_isLimitName_of_builtin x hmem)

/-- A name that means something else has one. -/
theorem exists_found (h : Lockstep G env st) (hx : env.lookup? x = some m) (hk : m.kind ≠ .builtin) :
    ∃ item, Scopes.lookup? st.scopes x = some item := by
  obtain ⟨named, hnamed, hkind⟩ := h.exists_inSight hx
  cases hfound : Scopes.lookup? st.scopes x with
  | some item => exact ⟨item, rfl⟩
  | none =>
    rw [Naming.lookup?_inSight, Naming.lookup?_declaredIn_of_none hfound] at hnamed
    obtain ⟨-, rfl⟩ := Naming.eq_of_lookup_builtins hnamed
    exact absurd hkind.symm hk

theorem notMem_passed_of_notBound (h : Lockstep G env st)
    (hx : ∀ output, Scopes.lookup? st.scopes x ≠ some (.bound output)) :
    x ∉ Naming.boundsPassed x st.scopes := by
  rw [Naming.mem_boundsPassed_iff h.orderly.latest]
  rintro ⟨output, hbound⟩
  exact hx output hbound

theorem explained_of_builtin {r : Reference} (h : Lockstep G env st)
    (hx : env.lookup? r.name = some m) (hk : m.kind = .builtin) :
    Mention.Explained G ⟨r, st, builtinScript r.name⟩ := by
  obtain ⟨hmem, hfound, hsight⟩ := h.of_builtin hx hk
  exact .builtin hmem hsight hfound rfl (h.notMem_passed_of_notBound (by simp [hfound]))

theorem explained_of_user {r : Reference} {text : Bytes} (h : Lockstep G env st)
    (hx : env.lookup? r.name = some m) (hk : m.kind ≠ .builtin)
    (htext : ∀ item, Scopes.lookup? st.scopes r.name = some item → text = item.output) :
    Mention.Explained G ⟨r, st, text⟩ := by
  obtain ⟨item, hfound⟩ := h.exists_found hx hk
  have hout := htext item hfound
  cases item with
  | declared named =>
    have hsight : Scopes.lookup? st.inSight r.name = some named := by
      rw [Naming.lookup?_inSight, Naming.lookup?_declaredIn_of_declared hfound]
      rfl
    cases h.noted_of_found hfound with
    | declared user piece =>
      exact .declared named user hsight hfound hout piece
        (h.notMem_passed_of_notBound (by simp [hfound]))
  | bound output =>
    obtain ⟨named, hnamed, hkind⟩ := h.exists_inSight hx
    have huser : named.declaration.IsUser := fun hb => hk (hkind.symm.trans hb)
    cases h.noted_of_found hfound with
    | bound limit piece =>
      exact .captured named huser hnamed output hfound hout piece limit
        ((Naming.mem_boundsPassed_iff h.orderly.latest).mpr ⟨output, hfound⟩)

/-! ### Steps -/

theorem push (h : Lockstep G env st) (inLoop inFunction : Bool) :
    Lockstep G (env.push inLoop inFunction) st.push where
  same := h.same.push inLoop inFunction
  orderly :=
    { noted := by
        intro scope hs e he
        rcases List.mem_cons.mp hs with rfl | hs
        · cases he
        · exact h.orderly.noted scope hs e he
      latest := by
        intro scope hs
        rcases List.mem_cons.mp hs with rfl | hs
        · intro x output hx
          cases hx
        · exact h.orderly.latest scope hs }

theorem pushBlock (h : Lockstep G env st) : Lockstep G env.pushBlock st.push := h.push _ _

theorem pop (h : Lockstep G env st) (houter : st.outer ≠ []) : Lockstep G env.pop st.pop := by
  obtain ⟨innermost, outer, used⟩ := st
  cases outer with
  | nil => exact absurd rfl houter
  | cons scope outer =>
    exact
      { same := h.same.pop
        orderly :=
          { noted := fun s hs => h.orderly.noted s (List.mem_cons_of_mem _ hs)
            latest := fun s hs => h.orderly.latest s (List.mem_cons_of_mem _ hs) } }

/-- The function whose body it is does not matter. -/
theorem ofFunction (h : Lockstep G env st) (function : Option (Nat × Bytes)) :
    Lockstep G { env with function } st := ⟨h.same, h.orderly⟩

/-- An entry is added to the innermost scope. -/
theorem orderly_cons {e : Bytes × Item} {used : List Bytes} (h : st.Orderly G) (he : Noted G e)
    (hl : Naming.Latest (e :: st.innermost)) :
    Naming.Orderly G { st with innermost := e :: st.innermost, used } where
  noted := by
    intro scope hs e' he'
    rcases List.mem_cons.mp hs with rfl | hs
    · rcases List.mem_cons.mp he' with rfl | he'
      · exact he
      · exact h.noted st.innermost List.mem_cons_self e' he'
    · exact h.noted scope (List.mem_cons_of_mem _ hs) e' he'
  latest := by
    intro scope hs
    rcases List.mem_cons.mp hs with rfl | hs
    · exact hl
    · exact h.latest scope (List.mem_cons_of_mem _ hs)

theorem declare (h : Lockstep G env st) {d : Declaration} (hkind : d.kind = m.kind)
    (hname : d.name = m.name) (huser : d.IsUser) (hpiece : .declared (st.declare d).1 ∈ G) :
    Lockstep G (env.define m) (st.declare d).2 where
  same := by
    have hdefine := h.same.define hkind
    rw [← hname] at hdefine
    exact hdefine
  orderly := by
    refine orderly_cons h.orderly (.declared huser hpiece) ?_
    intro x output hx
    by_cases hxd : x = d.name
    · rw [hxd, Scopes.lookup_cons_self] at hx
      cases hx
    · rw [Scopes.lookup_cons_ne hxd] at hx
      rw [Naming.declaredIn_declared, Scopes.lookup_cons_ne hxd]
      exact h.orderly.latest st.innermost List.mem_cons_self x output hx

theorem keepBound (h : Lockstep G env st) {counter : Bytes}
    (hclear : (Naming.declaredIn st.innermost).lookup (Script.limitName counter) = none)
    (hpiece : .bound (st.keepBound counter).1 ∈ G) :
    Lockstep G env (st.keepBound counter).2 where
  same := h.same
  orderly := by
    refine orderly_cons h.orderly (.bound (isLimitName_limitName counter) hpiece) ?_
    intro x output hx
    rw [Naming.declaredIn_bound]
    by_cases hxc : x = Script.limitName counter
    · rw [hxc, hclear]
    · rw [Scopes.lookup_cons_ne hxc] at hx
      exact h.orderly.latest st.innermost List.mem_cons_self x output hx

theorem defineParams {params : List Grammar.Param} {env env' : Env} {st : Naming}
    (h : Lockstep G env st) (hd : defineParams env params = .ok env') (loc : Location)
    (hpieces : (st.declareAll (params.map fun p => ⟨.parameter, p.name, loc⟩)).1.map .declared ⊆ G) :
    Lockstep G env' (st.declareAll (params.map fun p => ⟨.parameter, p.name, loc⟩)).2 := by
  induction params generalizing env st with
  | nil =>
    cases hd
    exact h
  | cons p ps ih =>
    unfold Roar.defineParams at hd
    split at hd
    · cases hd
    · simp only [List.map_cons, Naming.declareAll, List.cons_subset] at hpieces ⊢
      have hp := h.declare (m := ⟨.parameter, p.name, .number, 0, .unknown⟩)
        (d := ⟨.parameter, p.name, loc⟩) rfl rfl (fun hb => by cases hb) hpieces.1
      exact ih hp hd hpieces.2

end Lockstep

end Roar
