import Roar.Proofs.Program.Nodes
import Roar.Proofs.Scoping.Analysis

/-!
# Well typed programs

A judgement on programs without functions, said with the types of the variables in scope alone: the
operands of every operator have types that the operator table takes, a variable is only given values
of the type that it was declared with, and all types are known (`Expr.Typed`, `Stmt.Typed`).

An analysed program that declares no functions, and in which the names of the built-in functions are
only called, is well typed (`analyze_typed`). The scopes of the analysis have the types of the
judgement all along (`Types`).
-/

namespace Roar

/-! ## The judgement -/

mutual

/-- The operands of all operators have types that are taken, and all types are known. The name of a
built-in function is in scope without a type. -/
def Expr.Typed (Γ : Scopes ValueType) : Expr → Prop
  | .number .. | .string .. | .boolean .. => True
  | .interpolated _ segments => Segment.TypedList Γ segments
  | .identifier id => Scopes.lookup? Γ id.name = some id.type ∧ id.type ≠ .unknown
  | .binary _ op left right type =>
    left.Typed Γ ∧ right.Typed Γ ∧ op.resultType left.type right.type = .ok type
  | .compare _ op left right => left.Typed Γ ∧ right.Typed Γ ∧ op.accepts left.type right.type
  | .unary _ op operand type => operand.Typed Γ ∧ op.resultType operand.type = .ok type
  | .call _ callee args type builtin =>
    builtin ∧ type = .number ∧ Scopes.lookup? Γ callee = some .unknown ∧
      Expr.TypedList Γ args ∧ args.map (·.type) = [.number]
  | .range _ bound => bound.Typed Γ ∧ bound.type = .number

def Expr.TypedList (Γ : Scopes ValueType) : List Expr → Prop
  | [] => True
  | e :: es => e.Typed Γ ∧ Expr.TypedList Γ es

def Segment.TypedList (Γ : Scopes ValueType) : List Segment → Prop
  | [] => True
  | .text _ :: ss => Segment.TypedList Γ ss
  | .embedded e :: ss => e.Typed Γ ∧ Segment.TypedList Γ ss

end

/-- The types of the variables after a statement. -/
def Stmt.typesAfter (Γ : Scopes ValueType) : Stmt → Scopes ValueType
  | .assign _ target _ true => Scopes.bind target.name target.type Γ
  | _ => Γ

mutual

/-- All expressions are well typed, and variables are given values of their types. -/
def Stmt.Typed (Γ : Scopes ValueType) : Stmt → Prop
  | .block _ body => Stmt.TypedList ([] :: Γ) body
  | .assign _ target value declares =>
    value.Typed Γ ∧ target.type = value.type ∧
      (declares = false → Scopes.lookup? Γ target.name = some target.type)
  | .print _ value | .expression _ value => value.Typed Γ
  | .branch _ condition _ thenBody alternate =>
    condition.Typed Γ ∧ Stmt.TypedList ([] :: Γ) thenBody ∧ alternate.Typed Γ
  | .loop _ counter rangeLoc bound _ body =>
    counter.type = .number ∧ (Expr.range rangeLoc bound).Typed Γ ∧
      Stmt.TypedList ([(counter.name, .number)] :: Γ) body
  | .leave _ | .comment .. => True
  | .function .. | .serve .. => False

def Alternate.Typed (Γ : Scopes ValueType) : Alternate → Prop
  | .none => True
  | .block _ body => Stmt.TypedList ([] :: Γ) body
  | .branch _ condition _ thenBody alternate =>
    condition.Typed Γ ∧ Stmt.TypedList ([] :: Γ) thenBody ∧ alternate.Typed Γ

def Stmt.TypedList (Γ : Scopes ValueType) : List Stmt → Prop
  | [] => True
  | s :: ss => s.Typed Γ ∧ Stmt.TypedList (s.typesAfter Γ) ss

end

/-! ## Known types -/

section Table

variable {l r t : ValueType}

theorem BinaryOp.resultType_ne_unknown {op : BinaryOp} (h : op.resultType l r = .ok t)
    (hl : l ≠ .unknown) (hr : r ≠ .unknown) : t ≠ .unknown := by
  rintro rfl
  cases op <;> cases l <;> cases r <;> simp_all [BinaryOp.resultType, ValueType.arithmetic,
    ValueType.excludes]

theorem UnaryOp.resultType_ne_unknown {op : UnaryOp} (h : op.resultType t = .ok r)
    (ht : t ≠ .unknown) : r ≠ .unknown := by
  rintro rfl
  cases op <;> cases t <;> simp_all [UnaryOp.resultType, ValueType.excludes]

end Table

/-- A well typed expression has a known type. -/
theorem Expr.Typed.type_ne_unknown {Γ : Scopes ValueType} :
    {e : Expr} → e.Typed Γ → e.type ≠ .unknown
  | .number .., _ | .string .., _ | .interpolated .., _ | .boolean .., _ | .compare .., _
  | .range .., _ => by simp [Expr.type]
  | .identifier _, h => h.2
  | .binary .., h =>
    BinaryOp.resultType_ne_unknown h.2.2 h.1.type_ne_unknown h.2.1.type_ne_unknown
  | .unary .., h => UnaryOp.resultType_ne_unknown h.2 h.1.type_ne_unknown
  | .call .., h => by
    rw [Expr.type, h.2.1]
    simp

/-- A known type that is not excluded is the wanted one. -/
theorem ValueType.eq_of_not_excludes {actual wanted : ValueType} (hknown : actual ≠ .unknown)
    (h : actual.excludes wanted = false) : actual = wanted := by
  simpa [ValueType.excludes, hknown] using h

/-! ## Joining the pieces of a string -/

theorem Segment.TypedList.merge {Γ : Scopes ValueType} {ss : List Segment}
    (h : Segment.TypedList Γ ss) : Segment.TypedList Γ (Segment.merge ss) := by
  induction ss with
  | nil => exact h
  | cons s rest ih =>
    cases s with
    | embedded e => exact ⟨h.1, ih h.2⟩
    | text t =>
      have hrest : Segment.TypedList Γ (Segment.merge rest) := ih h
      unfold Segment.merge
      split
      · exact hrest
      · split
        · rename_i hmerge
          rw [hmerge] at hrest
          exact hrest
        · exact hrest

theorem Segment.TypedList.interpolate {Γ : Scopes ValueType} {ss : List Segment}
    (h : Segment.TypedList Γ ss) (loc : Location) : (Expr.interpolate loc ss).Typed Γ := by
  unfold Expr.interpolate
  split
  · trivial
  · trivial
  · exact h.merge

/-! ## The scopes of the analysis -/

/-- A built-in function, or a variable of a known type. -/
def Meaning.Plain (m : Meaning) : Prop :=
  (m.name ∈ builtinNames ∧ m = ⟨.builtin, m.name, .unknown, 1, .number⟩) ∨
    (m.isCallable = false ∧ m.type ≠ .unknown)

/-- The scopes of the analysis have these types. They lie outside all functions, and have no
functions but the built-in ones. -/
structure Types (env : Env) (Γ : Scopes ValueType) : Prop where
  chain : chainOf Meaning.type env.scopes = Γ
  outside : ∀ s ∈ env.scopes, s.inFunction = false
  plain : ∀ s ∈ env.scopes, ∀ m ∈ s.meanings, m.Plain

/-- A symbol is found under its name, in one of the scopes. -/
theorem Scope.exists_mem_of_lookup? {x : Bytes} {m : Meaning} {chain : List Scope}
    (h : Scope.lookup? x chain = some m) : m.name = x ∧ ∃ s ∈ chain, m ∈ s.meanings := by
  induction chain with
  | nil => cases h
  | cons s outer ih =>
    rw [Scope.lookup?_cons] at h
    cases hs : s.local? x with
    | none =>
      rw [hs] at h
      obtain ⟨hname, s', hs', hm⟩ := ih h
      exact ⟨hname, s', .tail _ hs', hm⟩
    | some m' =>
      rw [hs] at h
      cases h
      have hname := List.find?_some hs
      exact ⟨by simpa using hname, s, .head _, List.mem_of_find?_eq_some hs⟩

namespace Types

variable {env : Env} {Γ : Scopes ValueType} {x : Bytes} {m : Meaning}

theorem start : Types Env.start [[], builtinNames.map (·, .unknown)] where
  chain := by rfl
  outside := by decide
  plain := by
    intro s hs m hm
    simp only [Env.start, List.mem_cons, List.not_mem_nil, or_false] at hs
    rcases hs with rfl | rfl
    · cases hm
    · obtain ⟨x, hx, rfl⟩ := List.mem_map.mp hm
      exact .inl ⟨hx, rfl⟩

theorem of_lookup? (h : Types env Γ) (hx : env.lookup? x = some m) :
    m.Plain ∧ m.name = x ∧ Scopes.lookup? Γ x = some m.type := by
  obtain ⟨hname, s, hs, hm⟩ := Scope.exists_mem_of_lookup? hx
  refine ⟨h.plain s hs m hm, hname, ?_⟩
  rw [← h.chain, lookup?_chainOf]
  exact congrArg (Option.map Meaning.type) hx

/-- A name that is not one of a built-in function is that of a variable. -/
theorem variable_of_lookup? (h : Types env Γ) (hx : env.lookup? x = some m)
    (hname : x ∉ builtinNames) :
    m.isCallable = false ∧ m.type ≠ .unknown ∧ Scopes.lookup? Γ x = some m.type := by
  obtain ⟨hbuiltin | ⟨hcallable, htype⟩, rfl, hlookup⟩ := h.of_lookup? hx
  · exact absurd hbuiltin.1 hname
  · exact ⟨hcallable, htype, hlookup⟩

/-- What can be called is a built-in function. -/
theorem builtin_of_lookup? (h : Types env Γ) (hx : env.lookup? x = some m)
    (hcallable : m.isCallable) :
    m = ⟨.builtin, x, .unknown, 1, .number⟩ ∧ Scopes.lookup? Γ x = some .unknown := by
  obtain ⟨⟨-, hm⟩ | hplain, rfl, hlookup⟩ := h.of_lookup? hx
  · rw [hm] at hlookup
    exact ⟨hm, hlookup⟩
  · rw [hplain.1] at hcallable
    cases hcallable

theorem inFunction_eq (h : Types env Γ) : env.inFunction = false := by
  unfold Env.inFunction Env.innermost
  cases hs : env.scopes with
  | nil => rfl
  | cons s outer => exact h.outside s (by simp [hs])

theorem push (h : Types env Γ) (inLoop : Bool) :
    Types (env.push inLoop env.inFunction) ([] :: Γ) where
  chain := congrArg ([] :: ·) h.chain
  outside := by
    rw [h.inFunction_eq]
    exact List.forall_mem_cons.mpr ⟨rfl, h.outside⟩
  plain := List.forall_mem_cons.mpr ⟨by simp, h.plain⟩

theorem pop {s : List (Bytes × ValueType)} (h : Types env (s :: Γ)) : Types env.pop Γ := by
  have hchain := h.chain
  have hsub : env.pop.scopes ⊆ env.scopes := fun _ => List.mem_of_mem_tail
  refine ⟨?_, fun s hs => h.outside s (hsub hs), fun s hs => h.plain s (hsub hs)⟩
  unfold Env.pop
  cases hs : env.scopes with
  | nil =>
    rw [hs] at hchain
    cases hchain
  | cons scope outer =>
    rw [hs] at hchain
    exact (List.cons.inj hchain).2

theorem define (h : Types env Γ) (hm : m.Plain) :
    Types (env.define m) (Scopes.bind m.name m.type Γ) where
  chain := by rw [Env.define, chainOf_defineIn, h.chain]
  outside := by
    have houtside := h.outside
    unfold Env.define
    cases hs : env.scopes with
    | nil => simp [Scope.defineIn, Scope.define]
    | cons s outer =>
      rw [hs] at houtside
      exact List.forall_mem_cons.mpr (List.forall_mem_cons.mp houtside)
  plain := by
    have hplain := h.plain
    unfold Env.define
    cases hs : env.scopes with
    | nil => simp [Scope.defineIn, Scope.define, hm]
    | cons s outer =>
      rw [hs] at hplain
      obtain ⟨hfirst, houter⟩ := List.forall_mem_cons.mp hplain
      exact List.forall_mem_cons.mpr ⟨List.forall_mem_cons.mpr ⟨hm, hfirst⟩, houter⟩

end Types

/-! ## Analysis -/

/-- No functions are declared, and the names of the built-in functions are only called. -/
structure Simple (declarations : List Declaration) (references : List Reference) : Prop where
  functions : ∀ d ∈ declarations, d.kind ≠ .function
  declared : ∀ d ∈ declarations, d.name ∉ builtinNames
  referred : ∀ r ∈ references, r.name ∉ builtinNames

theorem Simple.part {ds ds' : List Declaration} {rs rs' : List Reference} (h : Simple ds rs)
    (hd : ds' ⊆ ds) (hr : rs' ⊆ rs) : Simple ds' rs' :=
  ⟨fun d m => h.functions d (hd m), fun d m => h.declared d (hd m), fun r m => h.referred r (hr m)⟩

section Expressions

variable {env : Env} {Γ : Scopes ValueType}

theorem resolveName_typed {loc : Location} {name : Bytes} {e : Expr} (ht : Types env Γ)
    (h : resolveName env loc name = .ok e) (hname : name ∉ builtinNames) : e.Typed Γ := by
  unfold resolveName at h
  split at h
  · cases h
  · rename_i m hx
    obtain ⟨hcallable, htype, hlookup⟩ := ht.variable_of_lookup? hx hname
    rw [if_neg (by simp [hcallable])] at h
    cases h
    exact ⟨hlookup, htype⟩

/-- An argument of a known type is a number. -/
theorem checkArgument_type {recursive : Bool} {arg : Expr} {u : Unit}
    (h : checkArgument recursive arg = .ok u) (hknown : arg.type ≠ .unknown) :
    arg.type = .number := by
  unfold checkArgument at h
  split at h
  · split at h <;> cases h
  · rename_i hexcludes
    exact ValueType.eq_of_not_excludes hknown (by simpa using hexcludes)

mutual

theorem analyzeExpr_typed (ht : Types env Γ) :
    (g : Grammar.Expr) → {e : Expr} → analyzeExpr env g = .ok e →
      (∀ r ∈ e.references, r.name ∉ builtinNames) → e.Typed Γ
  | .number .., _, h, _ | .string .., _, h, _ | .boolean .., _, h, _ => by
    cases h
    trivial
  | .identifier loc name, _, h, hr => by
    obtain ⟨m, type, hx, rfl⟩ := resolveName_eq_ok h
    exact resolveName_typed ht h (hr _ (List.mem_singleton_self _))
  | .interpolated loc segments, _, h, hr => by
    obtain ⟨ss, hs, h⟩ := Analysed.exists_of_bind h
    cases h
    rw [Expr.references_interpolate] at hr
    exact (analyzeSegments_typed ht segments hs hr).interpolate loc
  | .binary loc op left right, _, h, hr => by
    obtain ⟨l, hl, h⟩ := Analysed.exists_of_bind h
    obtain ⟨r, hright, h⟩ := Analysed.exists_of_bind h
    obtain ⟨type, rfl, htype⟩ := checkedBinary_eq_ok h
    exact ⟨analyzeExpr_typed ht left hl fun r hm => hr r (List.mem_append_left _ hm),
      analyzeExpr_typed ht right hright fun r hm => hr r (List.mem_append_right _ hm), htype⟩
  | .compare loc op left right, _, h, hr => by
    obtain ⟨l, hl, h⟩ := Analysed.exists_of_bind h
    obtain ⟨r, hright, h⟩ := Analysed.exists_of_bind h
    obtain ⟨rfl, haccepts⟩ := resolveCompare_eq_ok h
    exact ⟨analyzeExpr_typed ht left hl fun r hm => hr r (List.mem_append_left _ hm),
      analyzeExpr_typed ht right hright fun r hm => hr r (List.mem_append_right _ hm), haccepts⟩
  | .unary loc op operand, _, h, hr => by
    obtain ⟨l, hl, h⟩ := Analysed.exists_of_bind h
    obtain ⟨type, rfl, htype⟩ := checkedUnary_eq_ok h
    exact ⟨analyzeExpr_typed ht operand hl hr, htype⟩
  | .call loc callee args, _, h, hr => by
    obtain ⟨m, hcallee, h⟩ := Analysed.exists_of_bind h
    obtain ⟨as, has, h⟩ := Analysed.exists_of_bind h
    cases h
    obtain ⟨hx, hcallable, hcount⟩ := resolveCallee_eq_ok hcallee
    obtain ⟨rfl, hlookup⟩ := ht.builtin_of_lookup? hx hcallable
    obtain ⟨htyped, hnumbers⟩ := analyzeArgs_typed ht _ args has hr
    refine ⟨rfl, rfl, hlookup, htyped, ?_⟩
    rw [hnumbers, hcount]
    rfl

theorem analyzeArgs_typed (ht : Types env Γ) (recursive : Bool) :
    (gs : List Grammar.Expr) → {es : List Expr} → analyzeArgs env recursive gs = .ok es →
      (∀ r ∈ Expr.referencesList es, r.name ∉ builtinNames) →
      Expr.TypedList Γ es ∧ es.map (·.type) = List.replicate gs.length .number
  | [], _, h, _ => by
    cases h
    exact ⟨trivial, rfl⟩
  | g :: gs, _, h, hr => by
    obtain ⟨e, he, h⟩ := Analysed.exists_of_bind h
    obtain ⟨_, hcheck, h⟩ := Analysed.exists_of_bind h
    obtain ⟨es, hes, h⟩ := Analysed.exists_of_bind h
    cases h
    have hfirst := analyzeExpr_typed ht g he fun r hm => hr r (List.mem_append_left _ hm)
    obtain ⟨hrest, hnumbers⟩ :=
      analyzeArgs_typed ht recursive gs hes fun r hm => hr r (List.mem_append_right _ hm)
    refine ⟨⟨hfirst, hrest⟩, ?_⟩
    rw [List.map_cons, hnumbers, checkArgument_type hcheck hfirst.type_ne_unknown]
    rfl

theorem analyzeSegments_typed (ht : Types env Γ) :
    (gs : List Grammar.Segment) → {ss : List Segment} → analyzeSegments env gs = .ok ss →
      (∀ r ∈ Segment.referencesList ss, r.name ∉ builtinNames) → Segment.TypedList Γ ss
  | [], _, h, _ => by
    cases h
    trivial
  | .text t :: gs, _, h, hr => by
    obtain ⟨s, hs, h⟩ := Analysed.exists_of_bind h
    obtain ⟨ss, hss, h⟩ := Analysed.exists_of_bind h
    cases h
    cases hs
    change Segment.TypedList Γ ss
    exact analyzeSegments_typed ht gs hss hr
  | .embedded g :: gs, _, h, hr => by
    obtain ⟨s, hs, h⟩ := Analysed.exists_of_bind h
    obtain ⟨ss, hss, h⟩ := Analysed.exists_of_bind h
    obtain ⟨e, he, hs⟩ := Analysed.exists_of_bind hs
    cases h
    cases hs
    exact ⟨analyzeExpr_typed ht g he fun r hm => hr r (List.mem_append_left _ hm),
      analyzeSegments_typed ht gs hss fun r hm => hr r (List.mem_append_right _ hm)⟩

end

end Expressions

/-! ## Assignments -/

section Unchanged

variable {x : Bytes} {m : Meaning} {change : Meaning → Meaning}

theorem Scope.modify_eq_self {s : Scope} (h : s.local? x = some m) (hc : change m = m) :
    s.modify x change = s := by
  have hgo (ms : List Meaning) (h : ms.find? (·.name == x) = some m) :
      Scope.modify.go x change ms = ms := by
    induction ms with
    | nil => rfl
    | cons m' ms ih =>
      unfold Scope.modify.go
      split
      · rename_i hx
        rw [List.find?_cons_of_pos (by simpa using hx)] at h
        cases h
        rw [hc]
      · rename_i hx
        rw [List.find?_cons_of_neg (by simpa using hx)] at h
        rw [ih h]
  unfold Scope.modify
  rw [hgo s.meanings h]

theorem Scope.lt_of_find? {chain : List Scope} {depth : Nat}
    (h : Scope.find? x chain = some (depth, m)) : depth < chain.length := by
  induction chain with
  | nil => cases h
  | cons s outer ih =>
    unfold Scope.find? at h
    split at h
    · cases h
      exact Nat.lt_succ_self _
    · exact Nat.lt_succ_of_lt (ih h)

/-- A change that does not change the symbol of a name leaves the scopes as they are. -/
theorem Env.modify_eq_self {env : Env} (h : env.lookup? x = some m) (hc : change m = m) :
    env.modify x change = env := by
  have hmodifyAt (chain : List Scope) (depth : Nat)
      (hfind : Scope.find? x chain = some (depth, m)) :
      Scope.modifyAt depth x change chain = chain := by
    induction chain with
    | nil => rfl
    | cons s outer ih =>
      unfold Scope.find? at hfind
      unfold Scope.modifyAt
      split at hfind
      · rename_i hs
        cases hfind
        rw [if_pos rfl, Scope.modify_eq_self hs hc]
      · have hlt := Scope.lt_of_find? hfind
        rw [if_neg (by omega), ih hfind]
  obtain ⟨⟨depth, m'⟩, hfind, rfl⟩ := Option.map_eq_some_iff.mp h
  unfold Env.modify
  rw [hfind]
  simp only [hmodifyAt env.scopes depth hfind]

end Unchanged

section Statements

theorem resolveAssign_typed {env env' : Env} {Γ : Scopes ValueType} {loc target : Location}
    {name : Bytes} {value : Expr} {s : Stmt} (ht : Types env Γ) (hv : value.Typed Γ)
    (h : resolveAssign env loc target name value = .ok (s, env')) (hname : name ∉ builtinNames) :
    s.Typed Γ ∧ Types env' (s.typesAfter Γ) := by
  have hknown := hv.type_ne_unknown
  have hdeclaration : (Stmt.assign loc ⟨target, name, value.type, false⟩ value true).Typed Γ ∧
      Types (env.define ⟨.assigned, name, value.type, 0, .unknown⟩)
        (Scopes.bind name value.type Γ) :=
    ⟨⟨hv, rfl, by simp⟩, ht.define (.inr ⟨rfl, hknown⟩)⟩
  unfold resolveAssign at h
  split at h
  · cases h
    exact hdeclaration
  · rename_i m hx
    obtain ⟨-, htype, hlookup⟩ := ht.variable_of_lookup? hx hname
    split at h
    · cases h
      exact hdeclaration
    · cases h
    · cases h
    all_goals
      split at h
      · cases h
      · rename_i hagree
        -- both types are known, so the variable keeps its symbol as it is
        have hsame : value.type = m.type :=
          ValueType.eq_of_not_excludes hknown (by simpa [htype] using hagree)
        have hkept : (if (m.type == .unknown) = true then value.type else m.type) = m.type := by
          simp [htype]
        rw [hkept] at h
        cases h
        rw [Env.modify_eq_self hx rfl]
        exact ⟨⟨hv, hsame.symm, fun _ => hlookup⟩, ht⟩

/-- The names in an assignment are those in its value and its target. -/
theorem resolveAssign_referred {env env' : Env} {loc target : Location} {name : Bytes} {value : Expr}
    {s : Stmt} (h : resolveAssign env loc target name value = .ok (s, env')) {P : Bytes → Prop}
    (hs : ∀ r ∈ s.references, P r.name) : (∀ r ∈ value.references, P r.name) ∧ P name := by
  have hreferences : s.references = value.references ++ [⟨.target, target, name⟩] := by
    rcases resolveAssign_eq_ok h with ⟨-, rfl, -⟩ | ⟨m, type, -, -, rfl, -⟩ <;> rfl
  rw [hreferences] at hs
  exact ⟨fun r hm => hs r (List.mem_append_left _ hm), hs ⟨.target, target, name⟩ (by simp)⟩

/-- The bound of a loop is a number, if its type is known. -/
theorem checkBound_type {loc : Location} {bound : Expr} {u : Unit}
    (h : checkBound loc bound = .ok u) (hknown : bound.type ≠ .unknown) : bound.type = .number := by
  unfold checkBound at h
  split at h
  · cases h
  · rename_i hexcludes
    exact ValueType.eq_of_not_excludes hknown (by simpa using hexcludes)

theorem Alternate.Typed.toStmt {Γ : Scopes ValueType} {chain : Alternate} (h : chain.Typed Γ)
    (loc : Location) :
    (chain.toStmt loc).Typed Γ ∧ (chain.toStmt loc).typesAfter Γ = Γ := by
  cases chain with
  | none => exact ⟨trivial, rfl⟩
  | block => exact ⟨h, rfl⟩
  | branch => exact ⟨h, rfl⟩

/-- The types of the variables after some statements. -/
def Stmt.typesAfterList (Γ : Scopes ValueType) (ss : List Stmt) : Scopes ValueType :=
  ss.foldl Stmt.typesAfter Γ

/-- Statements change the innermost scope only. -/
theorem Stmt.exists_typesAfter_cons (f : List (Bytes × ValueType)) (Γ : Scopes ValueType)
    (s : Stmt) : ∃ f', s.typesAfter (f :: Γ) = f' :: Γ := by
  unfold Stmt.typesAfter
  split
  · exact ⟨_, rfl⟩
  · exact ⟨f, rfl⟩

theorem Stmt.exists_typesAfterList_cons (f : List (Bytes × ValueType)) (Γ : Scopes ValueType)
    (ss : List Stmt) : ∃ f', Stmt.typesAfterList (f :: Γ) ss = f' :: Γ := by
  induction ss generalizing f with
  | nil => exact ⟨f, rfl⟩
  | cons s ss ih =>
    obtain ⟨f', hf'⟩ := s.exists_typesAfter_cons f Γ
    rw [Stmt.typesAfterList, List.foldl_cons, hf']
    exact ih f'

/-- The scopes after a block, once it is left. -/
theorem Types.leave {env : Env} {f : List (Bytes × ValueType)} {Γ : Scopes ValueType}
    {ss : List Stmt} (h : Types env (Stmt.typesAfterList (f :: Γ) ss)) : Types env.pop Γ := by
  obtain ⟨f', hf⟩ := Stmt.exists_typesAfterList_cons f Γ ss
  rw [hf] at h
  exact h.pop

mutual

theorem analyzeStmt_typed {env env' : Env} {Γ : Scopes ValueType} (ht : Types env Γ) :
    (g : Grammar.Stmt) → {s : Stmt} → analyzeStmt env g = .ok (s, env') →
      Simple s.declarations s.references → s.Typed Γ ∧ Types env' (s.typesAfter Γ)
  | .print loc value, _, h, hs => by
    obtain ⟨e, he, h⟩ := Analysed.exists_of_bind h
    cases h
    exact ⟨analyzeExpr_typed ht value he hs.referred, ht⟩
  | .assign loc target value, _, h, hs => by
    unfold analyzeStmt at h
    split at h
    · rename_i targetLoc name
      obtain ⟨e, he, h⟩ := Analysed.exists_of_bind h
      obtain ⟨hvalue, hname⟩ := resolveAssign_referred (P := (· ∉ builtinNames)) h hs.referred
      exact resolveAssign_typed ht (analyzeExpr_typed ht value he hvalue) h hname
    · cases h
  | .function loc name params bodyLoc body, _, h, hs => by
    unfold analyzeStmt at h
    split at h
    · cases h
    · obtain ⟨inner, hi, h⟩ := Analysed.exists_of_bind h
      obtain ⟨⟨ss, last⟩, hss, h⟩ := Analysed.exists_of_bind h
      cases h
      exact absurd rfl (hs.functions _ (.head _))
  | .serve loc value, _, h, hs => by
    -- refused outside of functions
    unfold analyzeStmt at h
    rw [ht.inFunction_eq, if_neg (by simp)] at h
    cases h
  | .branch loc arms, _, h, hs => by
    obtain ⟨⟨chain, last⟩, hc, h⟩ := Analysed.exists_of_bind h
    obtain ⟨_, _, h⟩ := Analysed.exists_of_bind h
    cases h
    have hchain : Simple chain.declarations chain.references := by
      cases chain with
      | none => exact hs
      | block => exact hs
      | branch => exact hs
    obtain ⟨htyped, ht'⟩ := analyzeArms_typed ht arms hc hchain
    obtain ⟨hstmt, hafter⟩ := htyped.toStmt loc
    exact ⟨hstmt, hafter.symm ▸ ht'⟩
  | .loop loc counter rangeLoc bound bodyLoc body, _, h, hs => by
    unfold analyzeStmt at h
    split at h
    · rename_i counterLoc name
      obtain ⟨e, he, h⟩ := Analysed.exists_of_bind h
      obtain ⟨_, hcheck, h⟩ := Analysed.exists_of_bind h
      obtain ⟨⟨ss, last⟩, hss, h⟩ := Analysed.exists_of_bind h
      cases h
      have hbound := analyzeExpr_typed ht bound he fun r hm =>
        hs.referred r (List.mem_append_left _ hm)
      have hnumber := checkBound_type hcheck hbound.type_ne_unknown
      obtain ⟨htyped, ht'⟩ := analyzeStmts_typed
        ((ht.push true).define (m := ⟨.loopVariable, name, .number, 0, .unknown⟩)
          (.inr ⟨rfl, by simp⟩)) body hss
        (hs.part (List.subset_cons_self _ _) (List.subset_append_right _ _))
      exact ⟨⟨rfl, ⟨hbound, hnumber⟩, htyped⟩, ht'.leave⟩
    · cases h
  | .leave loc, _, h, _ => by
    unfold analyzeStmt at h
    split at h
    · cases h
      exact ⟨trivial, ht⟩
    · cases h
  | .comment .., _, h, _ => by
    cases h
    exact ⟨trivial, ht⟩
  | .expression loc value, _, h, hs => by
    obtain ⟨e, he, h⟩ := Analysed.exists_of_bind h
    cases h
    exact ⟨analyzeExpr_typed ht value he hs.referred, ht⟩

theorem analyzeArms_typed {env env' : Env} {Γ : Scopes ValueType} (ht : Types env Γ) :
    (arms : Grammar.Arms) → {a : Alternate} → analyzeArms env arms = .ok (a, env') →
      Simple a.declarations a.references → a.Typed Γ ∧ Types env' Γ
  | .done, _, h, _ => by
    cases h
    exact ⟨trivial, ht⟩
  | .otherwise bodyLoc body, _, h, hs => by
    obtain ⟨⟨ss, last⟩, hss, h⟩ := Analysed.exists_of_bind h
    cases h
    obtain ⟨htyped, ht'⟩ := analyzeStmts_typed (ht.push _) body hss hs
    exact ⟨htyped, ht'.leave⟩
  | .arm loc condition bodyLoc body rest, _, h, hs => by
    obtain ⟨e, he, h⟩ := Analysed.exists_of_bind h
    obtain ⟨⟨ss, mid⟩, hss, h⟩ := Analysed.exists_of_bind h
    obtain ⟨⟨a, last⟩, ha, h⟩ := Analysed.exists_of_bind h
    cases h
    have hcondition := analyzeExpr_typed ht condition he fun r hm =>
      hs.referred r (List.mem_append_left _ (List.mem_append_left _ hm))
    obtain ⟨htyped, ht'⟩ := analyzeStmts_typed (ht.push _) body hss
      (hs.part (List.subset_append_left _ _) fun r hm =>
        List.mem_append_left _ (List.mem_append_right _ hm))
    obtain ⟨hrest, hlast⟩ := analyzeArms_typed ht'.leave rest ha
      (hs.part (List.subset_append_right _ _) (List.subset_append_right _ _))
    exact ⟨⟨hcondition, htyped, hrest⟩, hlast⟩

theorem analyzeStmts_typed {env env' : Env} {Γ : Scopes ValueType} (ht : Types env Γ) :
    (gs : List Grammar.Stmt) → {ss : List Stmt} → analyzeStmts env gs = .ok (ss, env') →
      Simple (Stmt.declarationsList ss) (Stmt.referencesList ss) →
      Stmt.TypedList Γ ss ∧ Types env' (Stmt.typesAfterList Γ ss)
  | [], _, h, _ => by
    cases h
    exact ⟨trivial, ht⟩
  | g :: gs, _, h, hs => by
    obtain ⟨⟨s, mid⟩, hstmt, h⟩ := Analysed.exists_of_bind h
    obtain ⟨⟨ss, last⟩, hss, h⟩ := Analysed.exists_of_bind h
    cases h
    obtain ⟨hfirst, ht'⟩ := analyzeStmt_typed ht g hstmt
      (hs.part (List.subset_append_left _ _) (List.subset_append_left _ _))
    obtain ⟨hrest, hlast⟩ := analyzeStmts_typed ht' gs hss
      (hs.part (List.subset_append_right _ _) (List.subset_append_right _ _))
    exact ⟨⟨hfirst, hrest⟩, hlast⟩

end

end Statements

/-! ## Programs -/

/-- The names of the built-in functions are only called. -/
def Program.CallsBuiltinsOnly (p : Program) : Prop :=
  (∀ r ∈ Stmt.referencesList p.statements, r.name ∉ builtinNames) ∧
    ∀ d ∈ Stmt.declarationsList p.statements, d.name ∉ builtinNames

instance (p : Program) : Decidable p.CallsBuiltinsOnly := inferInstanceAs (Decidable (_ ∧ _))

/-- The types of the names before a program: those of the built-in functions have none. -/
def startTypes : Scopes ValueType := [[], builtinNames.map (·, .unknown)]

/-- An analysed program without functions, in which the names of the built-in functions are only
called, is well typed. -/
theorem analyze_typed {tree : Grammar.Tree} {p : Program} (h : analyze tree = .ok p)
    (hfunctions : p.FunctionFree) (hbuiltins : p.CallsBuiltinsOnly) :
    Stmt.TypedList startTypes p.statements := by
  obtain ⟨env, hss⟩ := analyze_eq_ok h
  exact (analyzeStmts_typed .start _ hss ⟨hfunctions, hbuiltins.2, hbuiltins.1⟩).1

/-! ## All expressions -/

section Nodes

variable {Γ : Scopes ValueType} {e : Expr}

mutual

/-- The parts of a well typed expression are well typed. -/
theorem Expr.Typed.of_mem_nodes : {e' : Expr} → e'.Typed Γ → e ∈ e'.nodes → e.Typed Γ
  | .number .., h, he | .string .., h, he | .boolean .., h, he | .identifier _, h, he => by
    rw [List.mem_singleton.mp he]
    exact h
  | .interpolated .., h, he => by
    rcases List.mem_cons.mp he with rfl | he
    · exact h
    · exact Segment.TypedList.of_mem_nodesList h he
  | .binary .., h, he | .compare .., h, he => by
    rcases List.mem_cons.mp he with rfl | he
    · exact h
    · exact (List.mem_append.mp he).elim h.1.of_mem_nodes h.2.1.of_mem_nodes
  | .unary .., h, he | .range .., h, he => by
    rcases List.mem_cons.mp he with rfl | he
    · exact h
    · exact h.1.of_mem_nodes he
  | .call .., h, he => by
    rcases List.mem_cons.mp he with rfl | he
    · exact h
    · exact Expr.TypedList.of_mem_nodesList h.2.2.2.1 he

theorem Expr.TypedList.of_mem_nodesList :
    {es : List Expr} → Expr.TypedList Γ es → e ∈ Expr.nodesList es → e.Typed Γ
  | [], _, he => nomatch he
  | _ :: _, h, he =>
    (List.mem_append.mp he).elim h.1.of_mem_nodes (Expr.TypedList.of_mem_nodesList h.2)

theorem Segment.TypedList.of_mem_nodesList :
    {ss : List Segment} → Segment.TypedList Γ ss → e ∈ Segment.nodesList ss → e.Typed Γ
  | [], _, he => nomatch he
  | .text _ :: rest, h, he => by
    change Segment.TypedList Γ rest at h
    exact h.of_mem_nodesList he
  | .embedded _ :: _, h, he =>
    (List.mem_append.mp he).elim h.1.of_mem_nodes (Segment.TypedList.of_mem_nodesList h.2)

end

theorem Expr.Typed.known_of_mem_nodes {e' : Expr} (h : e'.Typed Γ) (he : e ∈ e'.nodes) :
    e.type ≠ .unknown := (h.of_mem_nodes he).type_ne_unknown

end Nodes

mutual

/-- All expressions in a well typed statement have known types. -/
theorem Stmt.Typed.known {Γ : Scopes ValueType} {e : Expr} :
    {s : Stmt} → s.Typed Γ → e ∈ s.nodes → e.type ≠ .unknown
  | .block .., h, he => Stmt.TypedList.known (Γ := [] :: Γ) h he
  | .assign _ target value _, h, he => by
    rcases List.mem_cons.mp he with rfl | he
    · change target.type ≠ .unknown
      rw [h.2.1]
      exact h.1.type_ne_unknown
    · exact h.1.known_of_mem_nodes he
  | .print .., h, he | .expression .., h, he => Expr.Typed.known_of_mem_nodes (Γ := Γ) h he
  | .branch .., h, he => by
    rcases List.mem_append.mp he with he | he
    · rcases List.mem_append.mp he with he | he
      · exact h.1.known_of_mem_nodes he
      · exact Stmt.TypedList.known h.2.1 he
    · exact Alternate.Typed.known h.2.2 he
  | .loop _ counter .., h, he => by
    rcases List.mem_cons.mp he with rfl | he
    · change counter.type ≠ .unknown
      rw [h.1]
      simp
    · rcases List.mem_append.mp he with he | he
      · exact h.2.1.known_of_mem_nodes he
      · exact Stmt.TypedList.known h.2.2 he

theorem Alternate.Typed.known {Γ : Scopes ValueType} {e : Expr} :
    {a : Alternate} → a.Typed Γ → e ∈ a.nodes → e.type ≠ .unknown
  | .none, _, he => nomatch he
  | .block .., h, he => Stmt.TypedList.known (Γ := [] :: Γ) h he
  | .branch .., h, he => by
    rcases List.mem_append.mp he with he | he
    · rcases List.mem_append.mp he with he | he
      · exact h.1.known_of_mem_nodes he
      · exact Stmt.TypedList.known h.2.1 he
    · exact Alternate.Typed.known h.2.2 he

theorem Stmt.TypedList.known {Γ : Scopes ValueType} {e : Expr} :
    {ss : List Stmt} → Stmt.TypedList Γ ss → e ∈ Stmt.nodesList ss → e.type ≠ .unknown
  | [], _, he => nomatch he
  | _ :: _, h, he => (List.mem_append.mp he).elim h.1.known (Stmt.TypedList.known h.2)

end

end Roar
