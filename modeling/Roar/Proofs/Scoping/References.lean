import Roar.Analysis.Scope
import Roar.Program.Basic
import Roar.Proofs.Scoping.Scopes

/-!
# References and the declarations that they mean

A name means the latest declaration of it in the innermost scope that has one. `Stmt.resolved` gives
the references of a statement, in order, each with the declaration that it means there; declarations
and references are known by their places. A block of a conditional, the body of a function and the
body of a loop are scopes of their own, and the value of an assignment does not see a name that is
declared with it.

* `Stmt.references`: all references, whatever they mean.
* `Stmt.free`: the names that a statement takes from the scopes around it.
* `Stmt.exists_mem_resolved`: a free name means what the scopes around say.
-/

namespace Roar

/-- What gives a name a meaning. -/
structure Declaration where
  kind : SymbolKind
  name : Bytes
  loc : Location
deriving DecidableEq, Repr

/-- The declaration stands in the program. -/
def Declaration.IsUser (d : Declaration) : Prop := d.kind ≠ .builtin

instance (d : Declaration) : Decidable d.IsUser := inferInstanceAs (Decidable (_ ≠ _))

inductive ReferenceKind where
  | use
  | target
  | callee
deriving DecidableEq, Repr

/-- A place where a name is used, assigned to or called. -/
structure Reference where
  kind : ReferenceKind
  loc : Location
  name : Bytes
deriving DecidableEq, Repr

/-! ## References -/

mutual

/-- The references of an expression. The callee of a built-in function is none. -/
def Expr.references : Expr → List Reference
  | .number .. | .string .. | .boolean .. => []
  | .interpolated _ segments => Segment.referencesList segments
  | .identifier id => [⟨.use, id.loc, id.name⟩]
  | .binary _ _ left right _ => left.references ++ right.references
  | .compare _ _ left right => left.references ++ right.references
  | .unary _ _ operand _ => operand.references
  | .call loc callee args _ builtin =>
    (if builtin then [] else [⟨.callee, loc, callee⟩]) ++ Expr.referencesList args
  | .range _ bound => bound.references

def Expr.referencesList : List Expr → List Reference
  | [] => []
  | e :: es => e.references ++ Expr.referencesList es

def Segment.references : Segment → List Reference
  | .text _ => []
  | .embedded value => value.references

def Segment.referencesList : List Segment → List Reference
  | [] => []
  | s :: ss => s.references ++ Segment.referencesList ss

end

theorem Segment.referencesList_merge (segments : List Segment) :
    Segment.referencesList (Segment.merge segments) = Segment.referencesList segments := by
  induction segments with
  | nil => rfl
  | cons s rest ih =>
    cases s with
    | embedded e => rw [Segment.merge, Segment.referencesList, Segment.referencesList, ih]
    | text t =>
      change _ = Segment.referencesList rest
      rw [Segment.merge, ← ih]
      split
      · rfl
      · split
        · rename_i h
          rw [h]
          rfl
        · rfl

/-- Joining the pieces of a string changes no references. -/
theorem Expr.references_interpolate (loc : Location) (segments : List Segment) :
    (Expr.interpolate loc segments).references = Segment.referencesList segments := by
  rw [← Segment.referencesList_merge]
  unfold Expr.interpolate
  split <;> rename_i h
  · rw [h]
    rfl
  · rw [h]
    rfl
  · rfl

/-- The reference of an assignment to its target. -/
def Identifier.targetReference (id : Identifier) : Reference := ⟨.target, id.loc, id.name⟩

mutual

/-- The references of a statement, in order. -/
def Stmt.references : Stmt → List Reference
  | .block _ body => Stmt.referencesList body
  | .assign _ target value _ => value.references ++ [target.targetReference]
  | .print _ value | .serve _ value | .expression _ value => value.references
  | .function _ _ _ _ body _ => Stmt.referencesList body
  | .branch _ condition _ thenBody alternate =>
    condition.references ++ Stmt.referencesList thenBody ++ alternate.references
  | .loop _ _ _ bound _ body => bound.references ++ Stmt.referencesList body
  | .leave _ | .comment .. => []

def Alternate.references : Alternate → List Reference
  | .none => []
  | .block _ body => Stmt.referencesList body
  | .branch _ condition _ thenBody alternate =>
    condition.references ++ Stmt.referencesList thenBody ++ alternate.references

def Stmt.referencesList : List Stmt → List Reference
  | [] => []
  | s :: ss => s.references ++ Stmt.referencesList ss

end

/-! ## Declarations -/

/-- The declaration that a statement adds to the scope that it stands in. -/
def Stmt.declared? : Stmt → Option Declaration
  | .assign _ target _ true => some ⟨.assigned, target.name, target.loc⟩
  | .function loc name _ _ _ _ => some ⟨.function, name, loc⟩
  | _ => none

/-- The scopes after a statement. -/
def Stmt.extend (Γ : Scopes Declaration) (s : Stmt) : Scopes Declaration :=
  match s.declared? with
  | some d => Scopes.bind d.name d Γ
  | none => Γ

/-- The scopes after some statements. -/
def Stmt.extendList (Γ : Scopes Declaration) (ss : List Stmt) : Scopes Declaration :=
  ss.foldl Stmt.extend Γ

/-- The names that some statements add to the scope that they stand in. -/
def declaredNames (ss : List Stmt) : List Bytes := ss.filterMap (·.declared?.map (·.name))

/-- The scope of the parameters of a function, the last first. -/
def paramScope (loc : Location) (params : List Bytes) : List (Bytes × Declaration) :=
  (params.map fun x => (x, ⟨.parameter, x, loc⟩)).reverse

/-- The scope of the counter of a loop. -/
def counterScope (counter : Identifier) : List (Bytes × Declaration) :=
  [(counter.name, ⟨.loopVariable, counter.name, counter.loc⟩)]

/-- The scopes of a whole program, before its statements. -/
def startScopes : Scopes Declaration :=
  [[], builtinNames.map fun x => (x, ⟨.builtin, x, {}⟩)]

mutual

/-- All declarations in a statement. -/
def Stmt.declarations : Stmt → List Declaration
  | .block _ body => Stmt.declarationsList body
  | .function loc name params _ body _ =>
    ⟨.function, name, loc⟩ :: (params.map (⟨.parameter, ·, loc⟩) ++ Stmt.declarationsList body)
  | .branch _ _ _ thenBody alternate => Stmt.declarationsList thenBody ++ alternate.declarations
  | .loop _ counter _ _ _ body =>
    ⟨.loopVariable, counter.name, counter.loc⟩ :: Stmt.declarationsList body
  | .assign _ target _ declares => if declares then [⟨.assigned, target.name, target.loc⟩] else []
  | .print .. | .serve .. | .leave _ | .comment .. | .expression .. => []

def Alternate.declarations : Alternate → List Declaration
  | .none => []
  | .block _ body => Stmt.declarationsList body
  | .branch _ _ _ thenBody alternate => Stmt.declarationsList thenBody ++ alternate.declarations

def Stmt.declarationsList : List Stmt → List Declaration
  | [] => []
  | s :: ss => s.declarations ++ Stmt.declarationsList ss

end

/-- The program has no functions of its own. -/
def Program.FunctionFree (p : Program) : Prop :=
  ∀ d ∈ Stmt.declarationsList p.statements, d.kind ≠ .function

instance (p : Program) : Decidable p.FunctionFree := inferInstanceAs (Decidable (∀ _ ∈ _, _))

/-! ## Resolution -/

/-- References with the declarations that they mean. -/
def resolveAll (Γ : Scopes Declaration) (refs : List Reference) :
    List (Reference × Option Declaration) :=
  refs.map fun r => (r, Scopes.lookup? Γ r.name)

mutual

/-- The references of a statement, with the declarations that they mean. -/
def Stmt.resolved (Γ : Scopes Declaration) : Stmt → List (Reference × Option Declaration)
  | .block _ body => Stmt.resolvedList ([] :: Γ) body
  | .assign loc target value declares =>
    resolveAll Γ value.references ++
      resolveAll ((Stmt.assign loc target value declares).extend Γ) [target.targetReference]
  | .print _ value | .serve _ value | .expression _ value => resolveAll Γ value.references
  | .function loc name params _ body _ =>
    Stmt.resolvedList (paramScope loc params :: Scopes.bind name ⟨.function, name, loc⟩ Γ) body
  | .branch _ condition _ thenBody alternate =>
    resolveAll Γ condition.references ++ Stmt.resolvedList ([] :: Γ) thenBody ++
      alternate.resolved Γ
  | .loop _ counter _ bound _ body =>
    resolveAll Γ bound.references ++ Stmt.resolvedList (counterScope counter :: Γ) body
  | .leave _ | .comment .. => []

def Alternate.resolved (Γ : Scopes Declaration) : Alternate → List (Reference × Option Declaration)
  | .none => []
  | .block _ body => Stmt.resolvedList ([] :: Γ) body
  | .branch _ condition _ thenBody alternate =>
    resolveAll Γ condition.references ++ Stmt.resolvedList ([] :: Γ) thenBody ++
      alternate.resolved Γ

/-- The references of statements, each in the scopes that the ones before leave. -/
def Stmt.resolvedList (Γ : Scopes Declaration) :
    List Stmt → List (Reference × Option Declaration)
  | [] => []
  | s :: ss => s.resolved Γ ++ Stmt.resolvedList (s.extend Γ) ss

end

/-- The references of a program, with the declarations that they mean. -/
def Program.resolved (p : Program) : List (Reference × Option Declaration) :=
  Stmt.resolvedList startScopes p.statements

/-! ## Free names -/

/-- The names of references. -/
def Expr.names (e : Expr) : List Bytes := e.references.map (·.name)

mutual

/-- The names that a statement takes from the scopes around it. -/
def Stmt.free : Stmt → List Bytes
  | .block _ body => Stmt.freeList body
  | .assign _ target value declares => value.names ++ if declares then [] else [target.name]
  | .print _ value | .serve _ value | .expression _ value => value.names
  | .function _ name params _ body _ =>
    (Stmt.freeList body).filter fun x => !(name :: params).contains x
  | .branch _ condition _ thenBody alternate =>
    condition.names ++ Stmt.freeList thenBody ++ alternate.free
  | .loop _ counter _ bound _ body =>
    bound.names ++ (Stmt.freeList body).filter (· != counter.name)
  | .leave _ | .comment .. => []

def Alternate.free : Alternate → List Bytes
  | .none => []
  | .block _ body => Stmt.freeList body
  | .branch _ condition _ thenBody alternate =>
    condition.names ++ Stmt.freeList thenBody ++ alternate.free

/-- The names that statements take from the scopes around them. A declaration serves the statements
after it. -/
def Stmt.freeList : List Stmt → List Bytes
  | [] => []
  | s :: ss => s.free ++ (Stmt.freeList ss).filter fun x => !(declaredNames [s]).contains x

end

/-! ## Scopes that find the same -/

section Lemmas

variable {Γ Δ : Scopes Declaration} {x : Bytes} {d : Declaration}

theorem Stmt.isUser_of_declared? {s : Stmt} {d : Declaration} (h : s.declared? = some d) :
    d.IsUser := by
  unfold Stmt.declared? at h
  split at h
  · cases h
    exact fun h => by cases h
  · cases h
    exact fun h => by cases h
  · cases h

mutual

/-- What stands in a program is no built-in function. -/
theorem Stmt.isUser_of_mem_declarations {d : Declaration} :
    (s : Stmt) → d ∈ s.declarations → d.IsUser
  | .block _ body, h => Stmt.isUser_of_mem_declarationsList body h
  | .function loc name params _ body _, h => by
    simp only [Stmt.declarations, List.mem_cons, List.mem_append, List.mem_map] at h
    rcases h with rfl | ⟨_, _, rfl⟩ | h
    · exact fun h => by cases h
    · exact fun h => by cases h
    · exact Stmt.isUser_of_mem_declarationsList body h
  | .branch _ _ _ thenBody alternate, h =>
    (List.mem_append.mp h).elim (Stmt.isUser_of_mem_declarationsList thenBody)
      alternate.isUser_of_mem_declarations
  | .loop _ counter _ _ _ body, h => by
    rcases List.mem_cons.mp h with rfl | h
    · exact fun h => by cases h
    · exact Stmt.isUser_of_mem_declarationsList body h
  | .assign _ target _ declares, h => by
    cases declares with
    | true =>
      rw [List.mem_singleton.mp h]
      exact fun h => by cases h
    | false => cases h
  | .print .., h | .serve .., h | .leave _, h | .comment .., h | .expression .., h => by cases h

theorem Alternate.isUser_of_mem_declarations {d : Declaration} :
    (a : Alternate) → d ∈ a.declarations → d.IsUser
  | .none, h => by cases h
  | .block _ body, h => Stmt.isUser_of_mem_declarationsList body h
  | .branch _ _ _ thenBody alternate, h =>
    (List.mem_append.mp h).elim (Stmt.isUser_of_mem_declarationsList thenBody)
      alternate.isUser_of_mem_declarations

theorem Stmt.isUser_of_mem_declarationsList {d : Declaration} :
    (ss : List Stmt) → d ∈ Stmt.declarationsList ss → d.IsUser
  | [], h => by cases h
  | s :: ss, h =>
    (List.mem_append.mp h).elim s.isUser_of_mem_declarations
      (Stmt.isUser_of_mem_declarationsList ss)

end

/-- Both chains give every name the same meaning. -/
def SameLookup (Γ Δ : Scopes Declaration) : Prop := ∀ x, Scopes.lookup? Γ x = Scopes.lookup? Δ x

namespace SameLookup

theorem cons (h : SameLookup Γ Δ) (f : List (Bytes × Declaration)) :
    SameLookup (f :: Γ) (f :: Δ) := fun x => by
  rw [Scopes.lookup?_cons, Scopes.lookup?_cons, h x]

theorem bind (h : SameLookup Γ Δ) (x : Bytes) (d : Declaration) :
    SameLookup (Scopes.bind x d Γ) (Scopes.bind x d Δ) := fun y => by
  rw [Scopes.lookup?_bind, Scopes.lookup?_bind, h y]

theorem extend (h : SameLookup Γ Δ) (s : Stmt) : SameLookup (s.extend Γ) (s.extend Δ) := by
  unfold Stmt.extend
  split
  · exact h.bind _ _
  · exact h

/-- A scope without names changes nothing. -/
theorem push (Γ : Scopes Declaration) : SameLookup ([] :: Γ) Γ := fun x => Scopes.lookup?_push Γ x

theorem resolveAll (h : SameLookup Γ Δ) (refs : List Reference) :
    resolveAll Γ refs = resolveAll Δ refs := by
  unfold Roar.resolveAll
  exact List.map_congr_left fun r _ => by rw [h r.name]

end SameLookup

mutual

theorem Stmt.resolved_congr {Γ Δ : Scopes Declaration} (h : SameLookup Γ Δ) :
    (s : Stmt) → s.resolved Γ = s.resolved Δ
  | .block _ body => Stmt.resolvedList_congr (h.cons []) body
  | .assign loc target value declares => by
    rw [Stmt.resolved, Stmt.resolved, h.resolveAll, (h.extend _).resolveAll]
  | .print .. | .serve .. | .expression .. => h.resolveAll _
  | .function loc name params _ body _ => Stmt.resolvedList_congr ((h.bind _ _).cons _) body
  | .branch _ condition _ thenBody alternate => by
    rw [Stmt.resolved, Stmt.resolved, h.resolveAll, Stmt.resolvedList_congr (h.cons []) thenBody,
      Alternate.resolved_congr h alternate]
  | .loop _ counter _ bound _ body => by
    rw [Stmt.resolved, Stmt.resolved, h.resolveAll, Stmt.resolvedList_congr (h.cons _) body]
  | .leave _ | .comment .. => rfl

theorem Alternate.resolved_congr {Γ Δ : Scopes Declaration} (h : SameLookup Γ Δ) :
    (a : Alternate) → a.resolved Γ = a.resolved Δ
  | .none => rfl
  | .block _ body => Stmt.resolvedList_congr (h.cons []) body
  | .branch _ condition _ thenBody alternate => by
    rw [Alternate.resolved, Alternate.resolved, h.resolveAll,
      Stmt.resolvedList_congr (h.cons []) thenBody, Alternate.resolved_congr h alternate]

theorem Stmt.resolvedList_congr {Γ Δ : Scopes Declaration} (h : SameLookup Γ Δ) :
    (ss : List Stmt) → Stmt.resolvedList Γ ss = Stmt.resolvedList Δ ss
  | [] => rfl
  | s :: ss => by
    rw [Stmt.resolvedList, Stmt.resolvedList, Stmt.resolved_congr h s,
      Stmt.resolvedList_congr (h.extend s) ss]

end

theorem Stmt.resolvedList_push (ss : List Stmt) :
    Stmt.resolvedList ([] :: Γ) ss = Stmt.resolvedList Γ ss := Stmt.resolvedList_congr (.push Γ) ss

/-! ## Statements one after the other -/

theorem Stmt.extendList_cons (s : Stmt) (ss : List Stmt) :
    Stmt.extendList Γ (s :: ss) = Stmt.extendList (s.extend Γ) ss := rfl

theorem Stmt.resolvedList_append (ss ts : List Stmt) :
    Stmt.resolvedList Γ (ss ++ ts) =
      Stmt.resolvedList Γ ss ++ Stmt.resolvedList (Stmt.extendList Γ ss) ts := by
  induction ss generalizing Γ with
  | nil => rfl
  | cons s ss ih =>
    rw [List.cons_append, Stmt.resolvedList, Stmt.resolvedList, ih, List.append_assoc,
      Stmt.extendList_cons]

theorem declaredNames_cons (s : Stmt) (ss : List Stmt) :
    declaredNames (s :: ss) = declaredNames [s] ++ declaredNames ss :=
  List.filterMap_append (l := [s])

theorem mem_declaredNames_singleton {s : Stmt} :
    x ∈ declaredNames [s] ↔ ∃ d, s.declared? = some d ∧ d.name = x := by
  simp [declaredNames]

theorem Stmt.mem_freeList_append {ss ts : List Stmt} :
    x ∈ Stmt.freeList (ss ++ ts) ↔
      x ∈ Stmt.freeList ss ∨ x ∈ Stmt.freeList ts ∧ x ∉ declaredNames ss := by
  induction ss with
  | nil => simp [Stmt.freeList, declaredNames]
  | cons s ss ih =>
    rw [declaredNames_cons, List.cons_append, Stmt.freeList, Stmt.freeList]
    simp only [List.mem_append, List.mem_filter, ih, Bool.not_eq_true', List.contains_eq_mem,
      decide_eq_false_iff_not]
    grind

theorem lookup?_extend (s : Stmt) :
    Scopes.lookup? (s.extend Γ) x =
      match s.declared? with
      | some d => if x = d.name then some d else Scopes.lookup? Γ x
      | none => Scopes.lookup? Γ x := by
  unfold Stmt.extend
  split
  · rw [Scopes.lookup?_bind]
  · rfl

theorem lookup?_extend_of_not_mem {s : Stmt} (h : x ∉ declaredNames [s]) :
    Scopes.lookup? (s.extend Γ) x = Scopes.lookup? Γ x := by
  rw [lookup?_extend]
  split
  · rename_i d hd
    rw [if_neg fun e => h (mem_declaredNames_singleton.mpr ⟨d, hd, e.symm⟩)]
  · rfl

theorem lookup?_extendList_of_not_mem {ss : List Stmt} (h : x ∉ declaredNames ss) :
    Scopes.lookup? (Stmt.extendList Γ ss) x = Scopes.lookup? Γ x := by
  induction ss generalizing Γ with
  | nil => rfl
  | cons s ss ih =>
    rw [declaredNames_cons, List.mem_append, not_or] at h
    rw [Stmt.extendList_cons, ih h.2, lookup?_extend_of_not_mem h.1]

/-- A name that is declared by some statements means the latest of these declarations after them. -/
theorem exists_lookup?_extendList {ss : List Stmt} (h : x ∈ declaredNames ss) :
    ∃ s ∈ ss, ∃ d, s.declared? = some d ∧ Scopes.lookup? (Stmt.extendList Γ ss) x = some d := by
  induction ss generalizing Γ with
  | nil => cases h
  | cons s ss ih =>
    rw [Stmt.extendList_cons]
    by_cases hx : x ∈ declaredNames ss
    · obtain ⟨t, ht, d, hd, hl⟩ := ih hx
      exact ⟨t, .tail _ ht, d, hd, hl⟩
    · rw [declaredNames_cons, List.mem_append] at h
      obtain ⟨d, hd, rfl⟩ := mem_declaredNames_singleton.mp (h.resolve_right hx)
      refine ⟨s, .head _, d, hd, ?_⟩
      rw [lookup?_extendList_of_not_mem hx, lookup?_extend, hd]
      simp

/-! ## Scopes of functions and loops -/

theorem mem_resolveAll {refs : List Reference} {r : Reference} {o : Option Declaration} :
    (r, o) ∈ resolveAll Γ refs ↔ r ∈ refs ∧ Scopes.lookup? Γ r.name = o := by
  simp only [resolveAll, List.mem_map, Prod.mk.injEq]
  constructor
  · rintro ⟨_, hr, rfl, h⟩
    exact ⟨hr, h⟩
  · rintro ⟨hr, h⟩
    exact ⟨r, hr, rfl, h⟩

theorem lookup?_paramScope {params : List Bytes} (h : x ∉ params) (loc : Location) :
    Scopes.lookup? (paramScope loc params :: Γ) x = Scopes.lookup? Γ x := by
  refine Scopes.lookup?_cons_none (Scopes.lookup_eq_none_iff.mpr ?_) Γ
  simpa [paramScope] using h

theorem lookup?_counterScope {counter : Identifier} (h : x ≠ counter.name) :
    Scopes.lookup? (counterScope counter :: Γ) x = Scopes.lookup? Γ x :=
  Scopes.lookup?_cons_none (Scopes.lookup_cons_ne h _ _) Γ

/-- Some name means the declaration. -/
def Scopes.Has (Γ : Scopes Declaration) (d : Declaration) : Prop := ∃ x, Scopes.lookup? Γ x = some d

theorem Scopes.Has.of_cons {f : List (Bytes × Declaration)} (h : Scopes.Has (f :: Γ) d) :
    (∃ x, (x, d) ∈ f) ∨ Scopes.Has Γ d := by
  obtain ⟨x, hx⟩ := h
  rw [lookup?_cons] at hx
  cases hf : f.lookup x with
  | some e =>
    rw [hf] at hx
    cases hx
    obtain ⟨_, _, hl, _⟩ := List.lookup_eq_some_iff.mp hf
    exact .inl ⟨x, by simp [hl]⟩
  | none =>
    rw [hf] at hx
    exact .inr ⟨x, hx⟩

theorem Scopes.Has.of_push (h : Scopes.Has ([] :: Γ) d) : Scopes.Has Γ d := by
  obtain ⟨x, hx⟩ := h
  exact ⟨x, by rwa [lookup?_push] at hx⟩

theorem Scopes.Has.of_bind {y : Bytes} {e : Declaration} (h : Scopes.Has (Scopes.bind y e Γ) d) :
    d = e ∨ Scopes.Has Γ d := by
  obtain ⟨x, hx⟩ := h
  rw [lookup?_bind] at hx
  split at hx
  · exact .inl (Option.some.inj hx).symm
  · exact .inr ⟨x, hx⟩

theorem Stmt.mem_declarations_of_declared? {s : Stmt} (h : s.declared? = some d) :
    d ∈ s.declarations := by
  unfold Stmt.declared? at h
  split at h
  · cases h
    simp [Stmt.declarations]
  · cases h
    simp [Stmt.declarations]
  · cases h

theorem Scopes.Has.of_extend {s : Stmt} (h : Scopes.Has (s.extend Γ) d) :
    d ∈ s.declarations ∨ Scopes.Has Γ d := by
  unfold Stmt.extend at h
  split at h
  · rename_i e he
    rcases h.of_bind with rfl | h
    · exact .inl (s.mem_declarations_of_declared? he)
    · exact .inr h
  · exact .inr h

theorem Scopes.Has.of_paramScope {loc : Location} {params : List Bytes}
    (h : Scopes.Has (paramScope loc params :: Γ) d) :
    d ∈ params.map (⟨.parameter, ·, loc⟩) ∨ Scopes.Has Γ d := by
  refine h.of_cons.imp_left fun ⟨x, hx⟩ => ?_
  simp only [paramScope, List.mem_reverse, List.mem_map, Prod.mk.injEq] at hx
  obtain ⟨y, hy, -, rfl⟩ := hx
  exact List.mem_map_of_mem hy

theorem Scopes.Has.of_counterScope {counter : Identifier}
    (h : Scopes.Has (counterScope counter :: Γ) d) :
    d = ⟨.loopVariable, counter.name, counter.loc⟩ ∨ Scopes.Has Γ d := by
  refine h.of_cons.imp_left fun ⟨x, hx⟩ => ?_
  exact (Prod.mk.inj (List.mem_singleton.mp hx)).2

end Lemmas

/-! ## Free names mean what the scopes around say -/

theorem exists_mem_resolveAll {Γ : Scopes Declaration} {e : Expr} {x : Bytes}
    {o : Option Declaration} (h : x ∈ e.names) (hx : Scopes.lookup? Γ x = o) :
    ∃ r, r.name = x ∧ (r, o) ∈ resolveAll Γ e.references := by
  obtain ⟨r, hr, rfl⟩ := List.mem_map.mp h
  exact ⟨r, rfl, mem_resolveAll.mpr ⟨hr, hx⟩⟩

mutual

/-- A free name of a statement is a reference to what the scopes around say that it means. -/
theorem Stmt.exists_mem_resolved {Γ : Scopes Declaration} {x : Bytes}
    {o : Option Declaration} (hx : Scopes.lookup? Γ x = o) :
    (s : Stmt) → x ∈ s.free → ∃ r, r.name = x ∧ (r, o) ∈ s.resolved Γ
  | .block _ body, h =>
    Stmt.exists_mem_resolvedList ((Scopes.lookup?_push Γ x).trans hx) body h
  | .assign loc target value declares, h => by
    rw [Stmt.free, List.mem_append] at h
    rcases h with h | h
    · obtain ⟨r, hname, hr⟩ := exists_mem_resolveAll h hx
      exact ⟨r, hname, List.mem_append_left _ hr⟩
    · cases declares with
      | true => simp at h
      | false =>
        obtain rfl : x = target.name := by simpa using h
        exact ⟨_, rfl, List.mem_append_right _ (mem_resolveAll.mpr ⟨.head _, hx⟩)⟩
  | .print _ value, h | .serve _ value, h | .expression _ value, h => exists_mem_resolveAll h hx
  | .function loc name params _ body _, h => by
    simp only [Stmt.free, List.mem_filter, Bool.not_eq_true', List.contains_eq_mem,
      decide_eq_false_iff_not, List.mem_cons, not_or] at h
    refine Stmt.exists_mem_resolvedList ?_ body h.1
    rw [lookup?_paramScope h.2.2, Scopes.lookup?_bind_ne h.2.1, hx]
  | .branch _ condition _ thenBody alternate, h => by
    simp only [Stmt.free, List.mem_append] at h
    rw [Stmt.resolved]
    rcases h with (h | h) | h
    · obtain ⟨r, hname, hr⟩ := exists_mem_resolveAll h hx
      exact ⟨r, hname, by simp [hr]⟩
    · obtain ⟨r, hname, hr⟩ :=
        Stmt.exists_mem_resolvedList ((Scopes.lookup?_push Γ x).trans hx) thenBody h
      exact ⟨r, hname, by simp [hr]⟩
    · obtain ⟨r, hname, hr⟩ := Alternate.exists_mem_resolved hx alternate h
      exact ⟨r, hname, by simp [hr]⟩
  | .loop _ counter _ bound _ body, h => by
    simp only [Stmt.free, List.mem_append, List.mem_filter, bne_iff_ne] at h
    rw [Stmt.resolved]
    rcases h with h | ⟨h, hc⟩
    · obtain ⟨r, hname, hr⟩ := exists_mem_resolveAll h hx
      exact ⟨r, hname, by simp [hr]⟩
    · obtain ⟨r, hname, hr⟩ :=
        Stmt.exists_mem_resolvedList ((lookup?_counterScope hc).trans hx) body h
      exact ⟨r, hname, by simp [hr]⟩
  | .leave _, h | .comment .., h => by cases h

theorem Alternate.exists_mem_resolved {Γ : Scopes Declaration} {x : Bytes}
    {o : Option Declaration} (hx : Scopes.lookup? Γ x = o) :
    (a : Alternate) → x ∈ a.free → ∃ r, r.name = x ∧ (r, o) ∈ a.resolved Γ
  | .none, h => by cases h
  | .block _ body, h =>
    Stmt.exists_mem_resolvedList ((Scopes.lookup?_push Γ x).trans hx) body h
  | .branch _ condition _ thenBody alternate, h => by
    simp only [Alternate.free, List.mem_append] at h
    rw [Alternate.resolved]
    rcases h with (h | h) | h
    · obtain ⟨r, hname, hr⟩ := exists_mem_resolveAll h hx
      exact ⟨r, hname, by simp [hr]⟩
    · obtain ⟨r, hname, hr⟩ :=
        Stmt.exists_mem_resolvedList ((Scopes.lookup?_push Γ x).trans hx) thenBody h
      exact ⟨r, hname, by simp [hr]⟩
    · obtain ⟨r, hname, hr⟩ := Alternate.exists_mem_resolved hx alternate h
      exact ⟨r, hname, by simp [hr]⟩

theorem Stmt.exists_mem_resolvedList {Γ : Scopes Declaration} {x : Bytes}
    {o : Option Declaration} (hx : Scopes.lookup? Γ x = o) :
    (ss : List Stmt) → x ∈ Stmt.freeList ss → ∃ r, r.name = x ∧ (r, o) ∈ Stmt.resolvedList Γ ss
  | [], h => by cases h
  | s :: ss, h => by
    simp only [Stmt.freeList, List.mem_append, List.mem_filter, Bool.not_eq_true',
      List.contains_eq_mem, decide_eq_false_iff_not] at h
    rw [Stmt.resolvedList]
    rcases h with h | ⟨h, hs⟩
    · obtain ⟨r, hname, hr⟩ := Stmt.exists_mem_resolved hx s h
      exact ⟨r, hname, List.mem_append_left _ hr⟩
    · obtain ⟨r, hname, hr⟩ :=
        Stmt.exists_mem_resolvedList ((lookup?_extend_of_not_mem hs).trans hx) ss h
      exact ⟨r, hname, List.mem_append_right _ hr⟩

end

/-! ## Every reference is resolved -/

theorem map_fst_resolveAll (Γ : Scopes Declaration) (refs : List Reference) :
    (resolveAll Γ refs).map (·.1) = refs := by
  rw [resolveAll, List.map_map]
  exact List.map_id' refs

mutual

theorem Stmt.map_fst_resolved (Γ : Scopes Declaration) :
    (s : Stmt) → (s.resolved Γ).map (·.1) = s.references
  | .block _ body => Stmt.map_fst_resolvedList _ body
  | .assign .. => by
    rw [Stmt.resolved, List.map_append, map_fst_resolveAll, map_fst_resolveAll, Stmt.references]
  | .print .. | .serve .. | .expression .. => map_fst_resolveAll Γ _
  | .function _ _ _ _ body _ => Stmt.map_fst_resolvedList _ body
  | .branch _ _ _ thenBody alternate => by
    rw [Stmt.resolved, List.map_append, List.map_append, map_fst_resolveAll,
      Stmt.map_fst_resolvedList _ thenBody, alternate.map_fst_resolved Γ, Stmt.references]
  | .loop _ _ _ _ _ body => by
    rw [Stmt.resolved, List.map_append, map_fst_resolveAll, Stmt.map_fst_resolvedList _ body,
      Stmt.references]
  | .leave _ | .comment .. => rfl

theorem Alternate.map_fst_resolved (Γ : Scopes Declaration) :
    (a : Alternate) → (a.resolved Γ).map (·.1) = a.references
  | .none => rfl
  | .block _ body => Stmt.map_fst_resolvedList _ body
  | .branch _ _ _ thenBody alternate => by
    rw [Alternate.resolved, List.map_append, List.map_append, map_fst_resolveAll,
      Stmt.map_fst_resolvedList _ thenBody, alternate.map_fst_resolved Γ, Alternate.references]

theorem Stmt.map_fst_resolvedList (Γ : Scopes Declaration) :
    (ss : List Stmt) → (Stmt.resolvedList Γ ss).map (·.1) = Stmt.referencesList ss
  | [] => rfl
  | s :: ss => by
    rw [Stmt.resolvedList, List.map_append, s.map_fst_resolved Γ,
      Stmt.map_fst_resolvedList (s.extend Γ) ss, Stmt.referencesList]

end

/-! ## Where meanings come from -/

mutual

/-- A reference means a declaration of the scopes around, or one in the statement. -/
theorem Stmt.has_or_mem_declarations {Γ : Scopes Declaration} {r : Reference} {d : Declaration} :
    (s : Stmt) → (r, some d) ∈ s.resolved Γ → Scopes.Has Γ d ∨ d ∈ s.declarations
  | .block _ body, h =>
    (Stmt.has_or_mem_declarationsList body h).imp_left Scopes.Has.of_push
  | .assign loc target value declares, h => by
    rw [Stmt.resolved, List.mem_append, mem_resolveAll, mem_resolveAll] at h
    rcases h with h | h
    · exact .inl ⟨_, h.2⟩
    · exact (Scopes.Has.of_extend ⟨_, h.2⟩).symm
  | .print .., h | .serve .., h | .expression .., h => .inl ⟨_, (mem_resolveAll.mp h).2⟩
  | .function loc name params _ body _, h => by
    rw [Stmt.declarations, List.mem_cons, List.mem_append]
    rcases Stmt.has_or_mem_declarationsList body h with h | h
    · rcases h.of_paramScope with h | h
      · exact .inr (.inr (.inl h))
      · exact h.of_bind.symm.imp_right .inl
    · exact .inr (.inr (.inr h))
  | .branch _ _ _ thenBody alternate, h => by
    rw [Stmt.resolved, List.mem_append, List.mem_append, mem_resolveAll] at h
    rw [Stmt.declarations, List.mem_append]
    rcases h with (h | h) | h
    · exact .inl ⟨_, h.2⟩
    · exact (Stmt.has_or_mem_declarationsList thenBody h).imp Scopes.Has.of_push .inl
    · exact (alternate.has_or_mem_declarations h).imp_right .inr
  | .loop _ counter _ _ _ body, h => by
    rw [Stmt.resolved, List.mem_append, mem_resolveAll] at h
    rw [Stmt.declarations, List.mem_cons]
    rcases h with h | h
    · exact .inl ⟨_, h.2⟩
    · rcases Stmt.has_or_mem_declarationsList body h with h | h
      · exact h.of_counterScope.symm.imp_right .inl
      · exact .inr (.inr h)
  | .leave _, h | .comment .., h => by cases h

theorem Alternate.has_or_mem_declarations {Γ : Scopes Declaration} {r : Reference}
    {d : Declaration} :
    (a : Alternate) → (r, some d) ∈ a.resolved Γ → Scopes.Has Γ d ∨ d ∈ a.declarations
  | .none, h => by cases h
  | .block _ body, h =>
    (Stmt.has_or_mem_declarationsList body h).imp_left Scopes.Has.of_push
  | .branch _ _ _ thenBody alternate, h => by
    rw [Alternate.resolved, List.mem_append, List.mem_append, mem_resolveAll] at h
    rw [Alternate.declarations, List.mem_append]
    rcases h with (h | h) | h
    · exact .inl ⟨_, h.2⟩
    · exact (Stmt.has_or_mem_declarationsList thenBody h).imp Scopes.Has.of_push .inl
    · exact (alternate.has_or_mem_declarations h).imp_right .inr

theorem Stmt.has_or_mem_declarationsList {Γ : Scopes Declaration} {r : Reference}
    {d : Declaration} :
    (ss : List Stmt) → (r, some d) ∈ Stmt.resolvedList Γ ss →
      Scopes.Has Γ d ∨ d ∈ Stmt.declarationsList ss
  | [], h => by cases h
  | s :: ss, h => by
    rw [Stmt.resolvedList, List.mem_append] at h
    rw [Stmt.declarationsList, List.mem_append]
    rcases h with h | h
    · exact (s.has_or_mem_declarations h).imp_right .inl
    · rcases Stmt.has_or_mem_declarationsList ss h with h | h
      · exact h.of_extend.symm.imp_right .inl
      · exact .inr (.inr h)

end

end Roar
