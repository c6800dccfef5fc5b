import Roar.Number.Arithmetic
import Roar.Proofs.Scoping.Analysis
import Roar.Proofs.Scoping.Checker

/-!
# Analysed programs pass the checker

The scopes of an analysis have the declarations of the place in the program that the analysis has
come to (`Tracks`), and the flags of the scopes around it stay as they are (`Env.flags`). Both are
kept by every rule, and give the checker what it asks for (`analyze_checks`).
-/

namespace Roar

/-- What a checker knows of a symbol. -/
def Meaning.signature (m : Meaning) : Signature := ⟨m.kind, m.paramCount⟩

/-- Whether the scopes lie in a loop and in a function, the innermost first. -/
def Env.flags (env : Env) : List (Bool × Bool) := env.scopes.map fun s => (s.inLoop, s.inFunction)

/-- The scopes of the analysis are those around a place in the program. -/
structure Tracks (env : Env) (pl : Place) : Prop where
  chain : chainOf Meaning.signature env.scopes = pl.scopes ++ [Place.builtins]
  user : ∀ scope ∈ pl.scopes, ∀ b ∈ scope, b.2.kind ≠ .builtin
  flags : env.flags.head? = some (pl.inLoop, pl.inFunction)

/-! ## Flags -/

theorem flags_modifyAt (depth : Nat) (x : Bytes) (change : Meaning → Meaning)
    (chain : List Scope) :
    (Scope.modifyAt depth x change chain).map (fun s => (s.inLoop, s.inFunction)) =
      chain.map fun s => (s.inLoop, s.inFunction) := by
  induction chain with
  | nil => rfl
  | cons s outer ih =>
    unfold Scope.modifyAt
    split
    · rfl
    · simp [ih]

namespace Env

variable {env : Env}

theorem flags_define (h : env.scopes ≠ []) (m : Meaning) : (env.define m).flags = env.flags := by
  unfold flags define
  cases hs : env.scopes with
  | nil => exact absurd hs h
  | cons s outer => rfl

@[simp] theorem flags_push (inLoop inFunction : Bool) :
    (env.push inLoop inFunction).flags = (inLoop, inFunction) :: env.flags := rfl

@[simp] theorem flags_pop : env.pop.flags = env.flags.tail := by
  simp [flags, pop]

@[simp] theorem flags_modify (x : Bytes) (change : Meaning → Meaning) :
    (env.modify x change).flags = env.flags := by
  unfold flags modify
  split
  · exact flags_modifyAt _ _ _ _
  · rfl

@[simp] theorem flags_noteReturn (type : ValueType) : (env.noteReturn type).flags = env.flags := by
  unfold flags noteReturn
  split
  · exact flags_modifyAt _ _ _ _
  · rfl

end Env

/-! ## Scopes and places -/

namespace Tracks

variable {env : Env} {pl : Place} {x : Bytes} {m : Meaning}

theorem scopes_ne_nil (h : Tracks env pl) : env.scopes ≠ [] := by
  intro hs
  have hchain := h.chain
  simp [hs, chainOf, Place.scopes] at hchain

theorem inLoop (h : Tracks env pl) : env.inLoop = pl.inLoop := by
  have hflags := h.flags
  unfold Env.inLoop Env.innermost
  cases hs : env.scopes with
  | nil => exact absurd hs h.scopes_ne_nil
  | cons s outer =>
    simp only [Env.flags, hs, List.map_cons, List.head?_cons, Option.some.injEq] at hflags
    exact (Prod.mk.inj hflags).1

theorem inFunction (h : Tracks env pl) : env.inFunction = pl.inFunction := by
  have hflags := h.flags
  unfold Env.inFunction Env.innermost
  cases hs : env.scopes with
  | nil => exact absurd hs h.scopes_ne_nil
  | cons s outer =>
    simp only [Env.flags, hs, List.map_cons, List.head?_cons, Option.some.injEq] at hflags
    exact (Prod.mk.inj hflags).2

theorem lookup?_eq (h : Tracks env pl) (x : Bytes) :
    pl.lookup? x = (env.lookup? x).map (·.signature) := by
  unfold Place.lookup?
  rw [← h.chain, lookup?_chainOf, Env.lookup?]

theorem lookup?_of_some (h : Tracks env pl) (hx : env.lookup? x = some m) :
    pl.lookup? x = some m.signature := by
  rw [h.lookup?_eq, hx]
  rfl

/-- The innermost scope has a symbol if and only if the scope of the place has a declaration. -/
theorem isNew_eq (h : Tracks env pl) (x : Bytes) :
    pl.isNew x = (env.innermost.local? x).isNone := by
  have hchain := h.chain
  unfold Place.isNew Env.innermost
  cases hs : env.scopes with
  | nil => exact absurd hs h.scopes_ne_nil
  | cons s outer =>
    rw [hs, chainOf_cons, Place.scopes, List.cons_append] at hchain
    rw [← (List.cons.inj hchain).1, lookup_chainOf, List.headD_cons, Option.isNone_map]

/-- A name that is bound to a built-in function is not declared around the place. -/
theorem lookup?_scopes_of_builtin (h : Tracks env pl)
    (hx : ∀ s, pl.lookup? x = some s → s.kind = .builtin) :
    Scopes.lookup? pl.scopes x = none := by
  cases hl : Scopes.lookup? pl.scopes x with
  | none => rfl
  | some s =>
    have hfound : pl.lookup? x = some s := by
      rw [Place.lookup?, Scopes.lookup?, List.findSome?_append]
      rw [Scopes.lookup?] at hl
      rw [hl]
      rfl
    obtain ⟨scope, hmem, hscope⟩ := List.exists_of_findSome?_eq_some hl
    obtain ⟨_, _, hsplit, _⟩ := List.lookup_eq_some_iff.mp hscope
    exact absurd (hx s hfound) (h.user scope hmem (x, s) (by simp [hsplit]))

/-- A name that may be declared anew is not declared in the scope of the place. -/
theorem isNew_of_isOpen (h : Tracks env pl) (hx : pl.isOpen x) : pl.isNew x := by
  have hnone : Scopes.lookup? pl.scopes x = none := by
    refine h.lookup?_scopes_of_builtin fun s hs => ?_
    simpa [Place.isOpen, hs] using hx
  rw [Place.scopes, Scopes.lookup?_cons, Option.or_eq_none_iff] at hnone
  simp [Place.isNew, hnone.1]

/-! ### Steps of an analysis -/

theorem define (h : Tracks env pl) (hk : m.kind ≠ .builtin) :
    Tracks (env.define m) (pl.declare m.name m.signature) where
  chain := by
    rw [Env.define, chainOf_defineIn, h.chain]
    rfl
  user := by
    intro scope hscope b hb
    rcases List.mem_cons.mp hscope with rfl | hscope
    · rcases List.mem_cons.mp hb with rfl | hb
      · exact hk
      · exact h.user _ (.head _) b hb
    · exact h.user scope (.tail _ hscope) b hb
  flags := by
    rw [Env.flags_define h.scopes_ne_nil]
    exact h.flags

theorem push (h : Tracks env pl) (inLoop inFunction : Bool) :
    Tracks (env.push inLoop inFunction) ⟨[], pl.scopes, inLoop, inFunction⟩ where
  chain := congrArg ([] :: ·) h.chain
  user := by
    intro scope hscope b hb
    rcases List.mem_cons.mp hscope with rfl | hscope
    · cases hb
    · exact h.user scope hscope b hb
  flags := rfl

theorem pushBlock (h : Tracks env pl) : Tracks env.pushBlock pl.enter := by
  unfold Env.pushBlock
  rw [h.inLoop, h.inFunction]
  exact h.push _ _

theorem ofFunction (h : Tracks env pl) (function : Option (Nat × Bytes)) :
    Tracks { env with function } pl := ⟨h.chain, h.user, h.flags⟩

theorem modify (h : Tracks env pl) {change : Meaning → Meaning}
    (hc : ∀ m, (change m).name = m.name ∧ (change m).signature = m.signature) (x : Bytes) :
    Tracks (env.modify x change) pl where
  chain := by
    rw [← h.chain]
    unfold Env.modify
    split
    · exact chainOf_modifyAt hc _ _ _
    · rfl
  user := h.user
  flags := by rw [Env.flags_modify, h.flags]

theorem noteReturn (h : Tracks env pl) (type : ValueType) : Tracks (env.noteReturn type) pl where
  chain := by
    rw [← h.chain]
    unfold Env.noteReturn
    split
    · refine chainOf_modifyAt (fun m => ?_) _ _ _
      split <;> exact ⟨rfl, rfl⟩
    · rfl
  user := h.user
  flags := by rw [Env.flags_noteReturn, h.flags]

/-- A scope that was opened at a place is left again, after some statements in it. -/
theorem leave {inner : Env} {pl' : Place} {flag : Bool × Bool} {ss : List Stmt}
    (h : Tracks env pl) (hi : Tracks inner (Stmt.afterList pl' ss))
    (ho : pl'.outer = pl.scopes) (hf : inner.flags = flag :: env.flags) :
    Tracks inner.pop pl ∧ inner.pop.flags = env.flags := by
  have hflags : inner.pop.flags = env.flags := by rw [Env.flags_pop, hf, List.tail_cons]
  refine ⟨⟨?_, h.user, by rw [hflags, h.flags]⟩, hflags⟩
  have hchain := hi.chain
  rw [Place.scopes, Stmt.outer_afterList, ho] at hchain
  cases hs : inner.scopes with
  | nil => exact absurd hs hi.scopes_ne_nil
  | cons s outer =>
    rw [hs, chainOf_cons, List.cons_append] at hchain
    rw [Env.pop, hs, List.tail_cons]
    exact (List.cons.inj hchain).2

/-- The parameters of a function are declared one after the other. -/
theorem defineParams {params : List Grammar.Param} {env env' : Env} {pl : Place}
    (h : Tracks env pl) (hd : defineParams env params = .ok env') :
    Tracks env' { pl with
        innermost := (params.map fun p => (p.name, ⟨.parameter, 0⟩)).reverse ++ pl.innermost } ∧
      env'.flags = env.flags ∧
      (params.map (·.name)).Nodup ∧ ∀ p ∈ params, pl.isNew p.name := by
  induction params generalizing env pl with
  | nil =>
    cases hd
    exact ⟨h, rfl, List.nodup_nil, by simp⟩
  | cons p ps ih =>
    unfold Roar.defineParams at hd
    split at hd
    · cases hd
    · rename_i hnew
      have hp := h.define (m := ⟨.parameter, p.name, .number, 0, .unknown⟩) (by simp)
      obtain ⟨htracks, hflags, hnodup, hrest⟩ := ih hp hd
      have hfree : ∀ q ∈ ps, q.name ≠ p.name ∧ pl.isNew q.name := by
        intro q hq
        have hq := hrest q hq
        simp only [Place.isNew, Place.declare, Option.isNone_iff_eq_none] at hq ⊢
        by_cases he : q.name = p.name
        · rw [he, Scopes.lookup_cons_self] at hq
          cases hq
        · rw [Scopes.lookup_cons_ne he] at hq
          exact ⟨he, hq⟩
      refine ⟨?_, hflags.trans (Env.flags_define h.scopes_ne_nil _), ?_, ?_⟩
      · simpa [Place.declare, Meaning.signature] using htracks
      · rw [List.map_cons, List.nodup_cons]
        refine ⟨fun hmem => ?_, hnodup⟩
        obtain ⟨q, hq, he⟩ := List.mem_map.mp hmem
        exact (hfree q hq).1 he
      · intro q hq
        rcases List.mem_cons.mp hq with rfl | hq
        · rw [h.isNew_eq]
          simpa using hnew
        · exact (hfree q hq).2

end Tracks

/-! ## Expressions -/

section Expressions

variable {env : Env} {pl : Place} {loc : Location} {e : Expr}

theorem resolveName_checks {name : Bytes} (ht : Tracks env pl)
    (h : resolveName env loc name = .ok e) : e.checks pl := by
  obtain ⟨m, type, hx, rfl⟩ := resolveName_eq_ok h
  have hs : m.signature.isCallable = m.isCallable := rfl
  simp [Expr.checks, ht.lookup?_of_some hx, hs]

theorem checkArgument_eq_ok {recursive : Bool} {u : Unit}
    (h : checkArgument recursive e = .ok u) : e.type.isPassable := by
  unfold checkArgument at h
  split at h
  · split at h <;> cases h
  · rename_i hexcludes
    simp only [ValueType.excludes, Bool.and_eq_true, bne_iff_ne, not_and, Decidable.not_not]
      at hexcludes
    by_cases hu : e.type = .unknown
    · simp [ValueType.isPassable, hu]
    · simp [ValueType.isPassable, hexcludes hu]

theorem Segment.checksList_merge (pl : Place) (segments : List Segment) :
    Segment.checksList pl (Segment.merge segments) = Segment.checksList pl segments := by
  induction segments with
  | nil => rfl
  | cons s rest ih =>
    cases s with
    | embedded e => rw [Segment.merge, Segment.checksList, Segment.checksList, ih]
    | text t =>
      have htext : Segment.checksList pl (.text t :: rest) = Segment.checksList pl rest := by
        simp [Segment.checksList, Segment.checks]
      rw [htext, Segment.merge, ← ih]
      split
      · rfl
      · split
        · rename_i h
          rw [h]
          rfl
        · simp [Segment.checksList, Segment.checks]

/-- Joining the pieces of a string leaves the checker the same embedded expressions. -/
theorem Expr.checks_interpolate (pl : Place) (loc : Location) (segments : List Segment) :
    (Expr.interpolate loc segments).checks pl = Segment.checksList pl segments := by
  rw [← Segment.checksList_merge]
  unfold Expr.interpolate
  split
  · rename_i h
    rw [h]
    rfl
  · rename_i h
    rw [h]
    rfl
  · rfl

mutual

theorem analyzeExpr_checks (ht : Tracks env pl) :
    (g : Grammar.Expr) → {e : Expr} → analyzeExpr env g = .ok e → e.checks pl
  | .number .., _, h | .string .., _, h | .boolean .., _, h => by
    cases h
    rfl
  | .identifier loc name, _, h => resolveName_checks ht h
  | .interpolated loc segments, _, h => by
    obtain ⟨ss, hs, h⟩ := Analysed.exists_of_bind h
    cases h
    rw [Expr.checks_interpolate]
    exact analyzeSegments_checks ht segments hs
  | .binary loc op left right, _, h => by
    obtain ⟨l, hl, h⟩ := Analysed.exists_of_bind h
    obtain ⟨r, hr, h⟩ := Analysed.exists_of_bind h
    obtain ⟨type, rfl, htype⟩ := checkedBinary_eq_ok h
    have htable : op.rule.result? l.type r.type = some type := by
      rw [← BinaryOp.toOption_resultType, htype]
      rfl
    simp [Expr.checks, analyzeExpr_checks ht left hl, analyzeExpr_checks ht right hr, htable]
  | .compare loc op left right, _, h => by
    obtain ⟨l, hl, h⟩ := Analysed.exists_of_bind h
    obtain ⟨r, hr, h⟩ := Analysed.exists_of_bind h
    obtain ⟨rfl, haccepts⟩ := resolveCompare_eq_ok h
    rw [CompareOp.accepts_eq_takes] at haccepts
    simp [Expr.checks, analyzeExpr_checks ht left hl, analyzeExpr_checks ht right hr, haccepts]
  | .unary loc op operand, _, h => by
    obtain ⟨l, hl, h⟩ := Analysed.exists_of_bind h
    obtain ⟨type, rfl, htype⟩ := checkedUnary_eq_ok h
    have htable : op.result? l.type = some type := by
      rw [← UnaryOp.toOption_resultType, htype]
      rfl
    simp [Expr.checks, analyzeExpr_checks ht operand hl, htable]
  | .call loc callee args, _, h => by
    obtain ⟨m, hcallee, h⟩ := Analysed.exists_of_bind h
    obtain ⟨as, has, h⟩ := Analysed.exists_of_bind h
    cases h
    obtain ⟨hx, hcallable, hcount⟩ := resolveCallee_eq_ok hcallee
    obtain ⟨hargs, htypes, hlength⟩ := analyzeArgs_checks ht _ args has
    have hsuits : m.signature.suits as.length (m.kind == .builtin) := by
      rw [Signature.suits, Signature.isCallable, Bool.and_eq_true, Bool.and_eq_true]
      refine ⟨⟨hcallable, by simp [Meaning.signature]⟩, ?_⟩
      rw [hlength, hcount]
      simp [Meaning.signature]
    simp [Expr.checks, ht.lookup?_of_some hx, hsuits, hargs, htypes]

theorem analyzeArgs_checks (ht : Tracks env pl) (recursive : Bool) :
    (gs : List Grammar.Expr) → {es : List Expr} → analyzeArgs env recursive gs = .ok es →
      Expr.checksList pl es ∧ es.all (·.type.isPassable) ∧ es.length = gs.length
  | [], _, h => by
    cases h
    exact ⟨rfl, rfl, rfl⟩
  | g :: gs, _, h => by
    obtain ⟨e, he, h⟩ := Analysed.exists_of_bind h
    obtain ⟨_, hcheck, h⟩ := Analysed.exists_of_bind h
    obtain ⟨es, hes, h⟩ := Analysed.exists_of_bind h
    cases h
    obtain ⟨hlist, htypes, hlength⟩ := analyzeArgs_checks ht recursive gs hes
    refine ⟨?_, ?_, by simp [hlength]⟩
    · simp [Expr.checksList, analyzeExpr_checks ht g he, hlist]
    · rw [List.all_cons, checkArgument_eq_ok hcheck, htypes]
      rfl

theorem analyzeSegments_checks (ht : Tracks env pl) :
    (gs : List Grammar.Segment) → {ss : List Segment} → analyzeSegments env gs = .ok ss →
      Segment.checksList pl ss
  | [], _, h => by
    cases h
    rfl
  | .text t :: gs, _, h => by
    obtain ⟨s, hs, h⟩ := Analysed.exists_of_bind h
    obtain ⟨ss, hss, h⟩ := Analysed.exists_of_bind h
    cases h
    cases hs
    simp [Segment.checksList, Segment.checks, analyzeSegments_checks ht gs hss]
  | .embedded g :: gs, _, h => by
    obtain ⟨s, hs, h⟩ := Analysed.exists_of_bind h
    obtain ⟨ss, hss, h⟩ := Analysed.exists_of_bind h
    obtain ⟨e, he, hs⟩ := Analysed.exists_of_bind hs
    cases h
    cases hs
    simp [Segment.checksList, Segment.checks, analyzeExpr_checks ht g he,
      analyzeSegments_checks ht gs hss]

end

end Expressions

/-! ## Statements -/

section Statements

theorem resolveAssign_checks {env env' : Env} {pl : Place} {loc target : Location} {name : Bytes}
    {value : Expr} {s : Stmt} (ht : Tracks env pl) (hv : value.checks pl)
    (h : resolveAssign env loc target name value = .ok (s, env')) :
    s.checks pl ∧ Tracks env' (s.after pl) ∧ env'.flags = env.flags := by
  rcases resolveAssign_eq_ok h with ⟨hdeclares, rfl, rfl⟩ | ⟨m, type, hx, hkind, rfl, rfl⟩
  · have hopen : pl.isOpen name := by
      rw [Place.isOpen, ht.lookup?_eq]
      unfold Env.declares at hdeclares
      cases hx : env.lookup? name with
      | none => rfl
      | some m => simpa [hx, Meaning.signature] using hdeclares
    refine ⟨?_, ht.define (by simp), Env.flags_define ht.scopes_ne_nil _⟩
    simp [Stmt.checks, hv, hopen, ht.isNew_of_isOpen hopen]
  · refine ⟨?_, ht.modify ?_ name, Env.flags_modify _ _⟩
    case refine_2 => exact fun _ => ⟨rfl, rfl⟩
    have hl := ht.lookup?_of_some hx
    rcases hkind with hkind | hkind <;>
      simp [Stmt.checks, hv, Place.isOpen, hl, Meaning.signature, Signature.isAssignable, hkind]

/-- A chain of conditions as a statement. -/
theorem Alternate.checks_toStmt (pl : Place) (loc : Location) (chain : Alternate) :
    (chain.toStmt loc).checks pl = chain.checks pl ∧ (chain.toStmt loc).after pl = pl := by
  cases chain <;> exact ⟨rfl, rfl⟩

mutual

theorem analyzeStmt_checks {env env' : Env} {pl : Place} (ht : Tracks env pl) :
    (g : Grammar.Stmt) → {s : Stmt} → analyzeStmt env g = .ok (s, env') →
      s.checks pl ∧ Tracks env' (s.after pl) ∧ env'.flags = env.flags
  | .print loc value, _, h | .expression loc value, _, h => by
    obtain ⟨e, he, h⟩ := Analysed.exists_of_bind h
    cases h
    exact ⟨analyzeExpr_checks ht value he, ht, rfl⟩
  | .assign loc target value, _, h => by
    unfold analyzeStmt at h
    split at h
    · obtain ⟨e, he, h⟩ := Analysed.exists_of_bind h
      exact resolveAssign_checks ht (analyzeExpr_checks ht value he) h
    · cases h
  | .function loc name params bodyLoc body, _, h => by
    unfold analyzeStmt at h
    split at h
    · cases h
    · rename_i hlocal
      obtain ⟨inner, hi, h⟩ := Analysed.exists_of_bind h
      obtain ⟨⟨ss, last⟩, hss, h⟩ := Analysed.exists_of_bind h
      cases h
      have hname := ht.define (m := ⟨.function, name, .unknown, params.length, .unknown⟩) (by simp)
      obtain ⟨hparams, hflags, hnodup, -⟩ := (hname.push false true).defineParams hi
      obtain ⟨hbody, hlast, hlastFlags⟩ := analyzeStmts_checks (hparams.ofFunction _) body hss
      obtain ⟨hleave, hleaveFlags⟩ := hname.leave hlast rfl (hlastFlags.trans hflags)
      refine ⟨?_, ?_, ?_⟩
      · have hnew : pl.isNew name := by
          rw [ht.isNew_eq]
          simpa using hlocal
        have hscope : (params.map fun p => (p.name, (⟨.parameter, 0⟩ : Signature))).reverse ++ [] =
            ((params.map (·.name)).map fun x => (x, (⟨.parameter, 0⟩ : Signature))).reverse := by
          simp [Function.comp_def]
        rw [hscope] at hbody
        simp only [Stmt.checks, hnew, hnodup, decide_true, Bool.and_self, Bool.true_and,
          List.length_map]
        exact hbody
      · simpa [Stmt.after, Meaning.signature] using hleave.ofFunction _
      · exact hleaveFlags.trans (Env.flags_define ht.scopes_ne_nil _)
  | .serve loc value, _, h => by
    unfold analyzeStmt at h
    split at h
    · rename_i hin
      obtain ⟨e, he, h⟩ := Analysed.exists_of_bind h
      cases h
      refine ⟨?_, ht.noteReturn _, Env.flags_noteReturn _⟩
      simp [Stmt.checks, ← ht.inFunction, hin, analyzeExpr_checks ht value he]
    · cases h
  | .branch loc arms, _, h => by
    obtain ⟨⟨chain, last⟩, hc, h⟩ := Analysed.exists_of_bind h
    obtain ⟨_, _, h⟩ := Analysed.exists_of_bind h
    cases h
    obtain ⟨hchecks, hlast, hflags⟩ := analyzeArms_checks ht arms hc
    obtain ⟨hs, hafter⟩ := Alternate.checks_toStmt pl loc chain
    exact ⟨hs.trans hchecks, hafter.symm ▸ hlast, hflags⟩
  | .loop loc counter rangeLoc bound bodyLoc body, _, h => by
    unfold analyzeStmt at h
    split at h
    · rename_i counterLoc name
      obtain ⟨e, he, h⟩ := Analysed.exists_of_bind h
      obtain ⟨_, _, h⟩ := Analysed.exists_of_bind h
      obtain ⟨⟨ss, last⟩, hss, h⟩ := Analysed.exists_of_bind h
      cases h
      have hpush : Tracks (env.push true env.inFunction) ⟨[], pl.scopes, true, pl.inFunction⟩ := by
        rw [ht.inFunction]
        exact ht.push _ _
      have hcounter :=
        hpush.define (m := ⟨.loopVariable, name, .number, 0, .unknown⟩) (by simp)
      obtain ⟨hbody, hlast, hflags⟩ := analyzeStmts_checks hcounter body hss
      obtain ⟨hleave, hleaveFlags⟩ := ht.leave hlast rfl
        (hflags.trans (Env.flags_define hpush.scopes_ne_nil _))
      refine ⟨?_, hleave, hleaveFlags⟩
      simp only [Stmt.checks, analyzeExpr_checks ht bound he, Bool.true_and]
      exact hbody
    · cases h
  | .leave loc, _, h => by
    unfold analyzeStmt at h
    split at h
    · rename_i hin
      cases h
      refine ⟨?_, ht, rfl⟩
      rw [Stmt.checks, ← ht.inLoop, hin]
    · cases h
  | .comment .., _, h => by
    cases h
    exact ⟨rfl, ht, rfl⟩

theorem analyzeArms_checks {env env' : Env} {pl : Place} (ht : Tracks env pl) :
    (arms : Grammar.Arms) → {a : Alternate} → analyzeArms env arms = .ok (a, env') →
      a.checks pl ∧ Tracks env' pl ∧ env'.flags = env.flags
  | .done, _, h => by
    cases h
    exact ⟨rfl, ht, rfl⟩
  | .otherwise bodyLoc body, _, h => by
    obtain ⟨⟨ss, last⟩, hss, h⟩ := Analysed.exists_of_bind h
    cases h
    obtain ⟨hbody, hlast, hflags⟩ := analyzeStmts_checks ht.pushBlock body hss
    exact ⟨hbody, ht.leave hlast rfl hflags⟩
  | .arm loc condition bodyLoc body rest, _, h => by
    obtain ⟨e, he, h⟩ := Analysed.exists_of_bind h
    obtain ⟨⟨ss, mid⟩, hss, h⟩ := Analysed.exists_of_bind h
    obtain ⟨⟨a, last⟩, ha, h⟩ := Analysed.exists_of_bind h
    cases h
    obtain ⟨hbody, hmid, hflags⟩ := analyzeStmts_checks ht.pushBlock body hss
    obtain ⟨hleave, hleaveFlags⟩ := ht.leave hmid rfl hflags
    obtain ⟨hrest, hlast, hlastFlags⟩ := analyzeArms_checks hleave rest ha
    refine ⟨?_, hlast, hlastFlags.trans hleaveFlags⟩
    simp [Alternate.checks, analyzeExpr_checks ht condition he, hbody, hrest]

theorem analyzeStmts_checks {env env' : Env} {pl : Place} (ht : Tracks env pl) :
    (gs : List Grammar.Stmt) → {ss : List Stmt} → analyzeStmts env gs = .ok (ss, env') →
      Stmt.checksList pl ss ∧ Tracks env' (Stmt.afterList pl ss) ∧ env'.flags = env.flags
  | [], _, h => by
    cases h
    exact ⟨rfl, ht, rfl⟩
  | g :: gs, _, h => by
    obtain ⟨⟨s, mid⟩, hs, h⟩ := Analysed.exists_of_bind h
    obtain ⟨⟨ss, last⟩, hss, h⟩ := Analysed.exists_of_bind h
    cases h
    obtain ⟨hcheck, hmid, hflags⟩ := analyzeStmt_checks ht g hs
    obtain ⟨hchecks, hlast, hlastFlags⟩ := analyzeStmts_checks hmid gs hss
    refine ⟨?_, hlast, hlastFlags.trans hflags⟩
    simp [Stmt.checksList, hcheck, hchecks]

end

theorem Tracks.start : Tracks Env.start {} where
  chain := rfl
  user := by simp [Place.scopes]
  flags := rfl

/-- The checker accepts every analysed program. -/
theorem analyze_checks (tree : Grammar.Tree) {p : Program} (h : analyze tree = .ok p) :
    p.checks := by
  obtain ⟨env, hss⟩ := analyze_eq_ok h
  exact (analyzeStmts_checks Tracks.start _ hss).1

/-- A function that calls itself, a variable with the name of a built-in function, and a loop that is
left from a conditional. -/
def factorialTree : Grammar.Tree :=
  ⟨0, [
    .function {} (ascii "fact") [⟨ascii "n", {}⟩] {} [
      .branch {} (.arm {} (.compare {} .lt (.identifier {} (ascii "n")) two) {} [.serve {} one] .done),
      .serve {} (.binary {} .mul (.identifier {} (ascii "n"))
        (.call {} (ascii "fact") [.binary {} .sub (.identifier {} (ascii "n")) one]))],
    .assign {} (.identifier {} (ascii "sqrt")) (.call {} (ascii "sqrt") [two]),
    .loop {} (.identifier {} (ascii "i")) {} (.identifier {} (ascii "sqrt")) {} [
      .branch {} (.arm {} (.compare {} .isEqualTo (.identifier {} (ascii "i")) two) {} [.leave {}] .done),
      .print {} (.interpolated {}
        [.text (ascii "= "), .embedded (.call {} (ascii "fact") [.identifier {} (ascii "i")])])]]⟩
where
  one : Grammar.Expr := .number {} (.ofNat 1) (ascii "1")
  two : Grammar.Expr := .number {} (.ofNat 2) (ascii "2")

theorem factorial_checks : ∃ p, analyze factorialTree = .ok p ∧ p.checks :=
  ⟨_, rfl, analyze_checks factorialTree rfl⟩

/-- A `break` does not leave a loop from a function inside it. -/
example : Program.checks ⟨[.loop {} ⟨{}, ascii "i", .number, false⟩ {} (.number {} (.ofNat 2)) {}
    [.function {} (ascii "f") [] {} [.leave {}] .unknown]]⟩ = false := by decide

/-- A name of an outer scope is not declared a second time by an assignment. -/
example : Program.checks ⟨[.assign {} ⟨{}, ascii "x", .boolean, false⟩ (.boolean {} true) true,
    .branch {} (.boolean {} true) {}
      [.assign {} ⟨{}, ascii "x", .boolean, false⟩ (.boolean {} true) true] .none]⟩ = false := by
  decide

end Statements

end Roar
