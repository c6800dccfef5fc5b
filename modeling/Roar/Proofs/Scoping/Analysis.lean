import Roar.Proofs.Scoping.Chains
import Roar.Proofs.Scoping.FirstFault
import Roar.Proofs.Scoping.References

/-!
# What analysis says about scopes

An analysed program is well scoped (`analyze_wellScoped`): all names in it have a meaning where they
are used, an assignment declares its target only if the name has no meaning yet or that of a
built-in function, and any other assignment is to a variable or a parameter. The scopes of the
analysis have the names and the kinds of the scopes of the program all along (`Matches`).
-/

namespace Roar

/-! ## Well scoped programs -/

/-- All names in the expression have a meaning. -/
def Expr.Visible (Γ : Scopes Declaration) (e : Expr) : Prop :=
  ∀ r ∈ e.references, Scopes.lookup? Γ r.name ≠ none

theorem Expr.Visible.of_mem_names {Γ : Scopes Declaration} {e : Expr} (h : e.Visible Γ) {x : Bytes}
    (hx : x ∈ e.names) : Scopes.lookup? Γ x ≠ none := by
  obtain ⟨r, hr, rfl⟩ := List.mem_map.mp hx
  exact h r hr

/-- The name has no meaning, or that of a built-in function. -/
def Unclaimed (Γ : Scopes Declaration) (x : Bytes) : Prop :=
  ∀ d, Scopes.lookup? Γ x = some d → d.kind = .builtin

/-- The name is that of a variable or of a parameter. -/
def Assignable (Γ : Scopes Declaration) (x : Bytes) : Prop :=
  ∃ d, Scopes.lookup? Γ x = some d ∧ (d.kind = .assigned ∨ d.kind = .parameter)

mutual

/-- All names of a statement have a meaning that suits their use. -/
def Stmt.WellScoped (Γ : Scopes Declaration) : Stmt → Prop
  | .block _ body => Stmt.WellScopedList ([] :: Γ) body
  | .assign _ target value declares =>
    value.Visible Γ ∧ if declares then Unclaimed Γ target.name else Assignable Γ target.name
  | .print _ value | .serve _ value | .expression _ value => value.Visible Γ
  | .function loc name params _ body _ =>
    Stmt.WellScopedList (paramScope loc params :: Scopes.bind name ⟨.function, name, loc⟩ Γ) body
  | .branch _ condition _ thenBody alternate =>
    condition.Visible Γ ∧ Stmt.WellScopedList ([] :: Γ) thenBody ∧ alternate.WellScoped Γ
  | .loop _ counter _ bound _ body =>
    bound.Visible Γ ∧ Stmt.WellScopedList (counterScope counter :: Γ) body
  | .leave _ | .comment .. => True

def Alternate.WellScoped (Γ : Scopes Declaration) : Alternate → Prop
  | .none => True
  | .block _ body => Stmt.WellScopedList ([] :: Γ) body
  | .branch _ condition _ thenBody alternate =>
    condition.Visible Γ ∧ Stmt.WellScopedList ([] :: Γ) thenBody ∧ alternate.WellScoped Γ

def Stmt.WellScopedList (Γ : Scopes Declaration) : List Stmt → Prop
  | [] => True
  | s :: ss => s.WellScoped Γ ∧ Stmt.WellScopedList (s.extend Γ) ss

end

/-! ## The scopes of the analysis -/

/-- The kinds of the symbols of a chain of scopes. -/
def chainKinds (chain : List Scope) : Scopes SymbolKind :=
  chain.map fun s => s.meanings.map fun m => (m.name, m.kind)

/-- The kinds of the declarations in sight. -/
def Scopes.kinds (Γ : Scopes Declaration) : Scopes SymbolKind :=
  Γ.map fun f => f.map fun p => (p.1, p.2.kind)

/-- The scopes of the analysis have the names and the kinds of the program. -/
def Matches (env : Env) (Γ : Scopes Declaration) : Prop := chainKinds env.scopes = Γ.kinds

section Chains

variable {chain : List Scope} {x : Bytes}

theorem lookup?_chainKinds (chain : List Scope) (x : Bytes) :
    Scopes.lookup? (chainKinds chain) x = (Scope.lookup? x chain).map (·.kind) :=
  lookup?_chainOf Meaning.kind chain x

theorem Scopes.lookup?_kinds (Γ : Scopes Declaration) (x : Bytes) :
    Scopes.lookup? Γ.kinds x = (Scopes.lookup? Γ x).map (·.kind) :=
  Scopes.lookup?_mapValues Declaration.kind Γ x

theorem chainKinds_defineIn (m : Meaning) (chain : List Scope) :
    chainKinds (Scope.defineIn m chain) = Scopes.bind m.name m.kind (chainKinds chain) :=
  chainOf_defineIn Meaning.kind m chain

theorem Scopes.kinds_bind (x : Bytes) (d : Declaration) (Γ : Scopes Declaration) :
    (Scopes.bind x d Γ).kinds = Scopes.bind x d.kind Γ.kinds :=
  Scopes.mapValues_bind Declaration.kind x d Γ

/-- Changing what is not the name or the kind of a symbol changes no kinds. -/
theorem chainKinds_modifyAt {change : Meaning → Meaning}
    (hc : ∀ m, (change m).name = m.name ∧ (change m).kind = m.kind) (depth : Nat) (x : Bytes)
    (chain : List Scope) : chainKinds (Scope.modifyAt depth x change chain) = chainKinds chain :=
  chainOf_modifyAt (f := Meaning.kind) hc depth x chain

end Chains

namespace Matches

variable {env : Env} {Γ : Scopes Declaration} {x : Bytes} {m : Meaning}

theorem kind_eq (h : Matches env Γ) (x : Bytes) :
    (env.lookup? x).map (·.kind) = (Scopes.lookup? Γ x).map (·.kind) := by
  rw [Env.lookup?, ← lookup?_chainKinds, h, Scopes.lookup?_kinds]

theorem exists_of_some (h : Matches env Γ) (hx : env.lookup? x = some m) :
    ∃ d, Scopes.lookup? Γ x = some d ∧ d.kind = m.kind := by
  have hk := h.kind_eq x
  rw [hx, Option.map_some, eq_comm, Option.map_eq_some_iff] at hk
  exact hk

theorem push (h : Matches env Γ) (inLoop inFunction : Bool) :
    Matches (env.push inLoop inFunction) ([] :: Γ) := congrArg ([] :: ·) h

theorem pop {f : List (Bytes × Declaration)} (h : Matches env (f :: Γ)) : Matches env.pop Γ := by
  unfold Matches Env.pop at *
  cases hs : env.scopes with
  | nil =>
    rw [hs] at h
    cases h
  | cons s outer =>
    rw [hs] at h
    exact (List.cons.inj h).2

theorem ofFunction (h : Matches env Γ) (function : Option (Nat × Bytes)) :
    Matches { env with function } Γ := h

theorem define (h : Matches env Γ) {d : Declaration} (hd : d.kind = m.kind) :
    Matches (env.define m) (Scopes.bind m.name d Γ) := by
  unfold Matches Env.define at *
  rw [chainKinds_defineIn, Scopes.kinds_bind, h, hd]

theorem modify (h : Matches env Γ) {change : Meaning → Meaning}
    (hc : ∀ m, (change m).name = m.name ∧ (change m).kind = m.kind) (x : Bytes) :
    Matches (env.modify x change) Γ := by
  unfold Matches Env.modify at *
  split
  · rw [← h]
    exact chainKinds_modifyAt hc _ _ _
  · exact h

theorem noteReturn (h : Matches env Γ) (type : ValueType) : Matches (env.noteReturn type) Γ := by
  unfold Matches Env.noteReturn at *
  split
  · rw [← h]
    refine chainKinds_modifyAt (fun m => ?_) _ _ _
    split <;> exact ⟨rfl, rfl⟩
  · exact h

/-- The parameters of a function are declared one after the other. -/
theorem defineParams {params : List Grammar.Param} {env env' : Env}
    {f : List (Bytes × Declaration)} (h : Matches env (f :: Γ))
    (hd : defineParams env params = .ok env') (loc : Location) :
    Matches env' ((paramScope loc (params.map (·.name)) ++ f) :: Γ) := by
  induction params generalizing env f with
  | nil =>
    cases hd
    exact h
  | cons p ps ih =>
    unfold Roar.defineParams at hd
    split at hd
    · cases hd
    · have hp : Matches (env.define ⟨.parameter, p.name, .number, 0, .unknown⟩)
          (((p.name, ⟨.parameter, p.name, loc⟩) :: f) :: Γ) := h.define rfl
      have hscope : paramScope loc ((p :: ps).map (·.name)) ++ f =
          paramScope loc (ps.map (·.name)) ++ ((p.name, ⟨.parameter, p.name, loc⟩) :: f) := by
        simp [paramScope]
      rw [hscope]
      exact ih hp hd

end Matches

/-- Statements change the innermost scope only. -/
theorem exists_extendList_cons (f : List (Bytes × Declaration)) (Γ : Scopes Declaration)
    (ss : List Stmt) : ∃ f', Stmt.extendList (f :: Γ) ss = f' :: Γ := by
  induction ss generalizing f with
  | nil => exact ⟨f, rfl⟩
  | cons s ss ih =>
    rw [Stmt.extendList_cons, Stmt.extend]
    split
    · exact ih _
    · exact ih _

/-! ## Expressions -/

section Expressions

variable {env : Env} {Γ : Scopes Declaration} {loc : Location} {left right e : Expr}

theorem Expr.Visible.append {refs : List Reference} (hl : left.Visible Γ)
    (hr : ∀ r ∈ refs, Scopes.lookup? Γ r.name ≠ none) :
    ∀ r ∈ left.references ++ refs, Scopes.lookup? Γ r.name ≠ none := by
  intro r h
  rcases List.mem_append.mp h with h | h
  · exact hl r h
  · exact hr r h

theorem checkedBinary_eq_ok {op : BinaryOp} (h : Expr.checkedBinary loc op left right = .ok e) :
    ∃ type, e = .binary loc op left right type ∧ op.resultType left.type right.type = .ok type := by
  unfold Expr.checkedBinary at h
  split at h
  · cases h
  · rename_i type htype
    split at h
    · cases h
    · cases h
      exact ⟨type, rfl, htype⟩

theorem resolveCompare_eq_ok {op : CompareOp} (h : resolveCompare loc op left right = .ok e) :
    e = .compare loc op left right ∧ op.accepts left.type right.type := by
  unfold resolveCompare Expr.checkedCompare at h
  split at h
  · cases h
  · split at h
    · rename_i haccepts
      cases h
      exact ⟨rfl, haccepts⟩
    · cases h

theorem checkedUnary_eq_ok {op : UnaryOp} (h : Expr.checkedUnary loc op left = .ok e) :
    ∃ type, e = .unary loc op left type ∧ op.resultType left.type = .ok type := by
  unfold Expr.checkedUnary at h
  split at h
  · cases h
  · rename_i type htype
    cases h
    exact ⟨type, rfl, htype⟩

theorem resolveName_eq_ok {name : Bytes} (h : resolveName env loc name = .ok e) :
    ∃ m type, env.lookup? name = some m ∧ e = .identifier ⟨loc, name, type, m.isCallable⟩ := by
  unfold resolveName at h
  split at h
  · cases h
  · rename_i m hx
    split at h <;> rename_i hcallable <;> cases h
    · exact ⟨m, _, hx, by rw [hcallable]⟩
    · exact ⟨m, _, hx, by rw [Bool.eq_false_iff.mpr hcallable]⟩

theorem resolveName_visible {name : Bytes} (hm : Matches env Γ)
    (h : resolveName env loc name = .ok e) : e.Visible Γ := by
  obtain ⟨m, type, hx, rfl⟩ := resolveName_eq_ok h
  obtain ⟨d, hd, -⟩ := hm.exists_of_some hx
  intro r hr
  rw [List.mem_singleton.mp hr, hd]
  simp

theorem resolveCallee_eq_ok {name : Bytes} {passed : Nat} {m : Meaning}
    (h : resolveCallee env loc name passed = .ok m) :
    env.lookup? name = some m ∧ m.isCallable ∧ passed = m.paramCount := by
  unfold resolveCallee at h
  split at h
  · cases h
  · rename_i hx
    split at h
    · cases h
    · rename_i hcallable
      split at h
      · cases h
      · rename_i hcount
        cases h
        exact ⟨hx, by simpa using hcallable, Decidable.not_not.mp hcount⟩

mutual

theorem analyzeExpr_visible (hm : Matches env Γ) :
    (g : Grammar.Expr) → {e : Expr} → analyzeExpr env g = .ok e → e.Visible Γ
  | .number .., _, h | .string .., _, h | .boolean .., _, h => by
    cases h
    intro r hr
    cases hr
  | .identifier loc name, _, h => resolveName_visible hm h
  | .interpolated loc segments, _, h => by
    obtain ⟨ss, hs, h⟩ := Analysed.exists_of_bind h
    cases h
    rw [Expr.Visible, Expr.references_interpolate]
    exact analyzeSegments_visible hm segments hs
  | .binary loc op left right, _, h => by
    obtain ⟨l, hl, h⟩ := Analysed.exists_of_bind h
    obtain ⟨r, hr, h⟩ := Analysed.exists_of_bind h
    obtain ⟨type, rfl, -⟩ := checkedBinary_eq_ok h
    exact (analyzeExpr_visible hm left hl).append (analyzeExpr_visible hm right hr)
  | .compare loc op left right, _, h => by
    obtain ⟨l, hl, h⟩ := Analysed.exists_of_bind h
    obtain ⟨r, hr, h⟩ := Analysed.exists_of_bind h
    obtain ⟨rfl, -⟩ := resolveCompare_eq_ok h
    exact (analyzeExpr_visible hm left hl).append (analyzeExpr_visible hm right hr)
  | .unary loc op operand, _, h => by
    obtain ⟨l, hl, h⟩ := Analysed.exists_of_bind h
    obtain ⟨type, rfl, -⟩ := checkedUnary_eq_ok h
    change l.Visible Γ
    exact analyzeExpr_visible hm operand hl
  | .call loc callee args, _, h => by
    obtain ⟨m, hcallee, h⟩ := Analysed.exists_of_bind h
    obtain ⟨as, has, h⟩ := Analysed.exists_of_bind h
    cases h
    obtain ⟨d, hd, -⟩ := hm.exists_of_some (resolveCallee_eq_ok hcallee).1
    intro r hr
    rcases List.mem_append.mp hr with hr | hr
    · split at hr
      · cases hr
      · rw [List.mem_singleton.mp hr, hd]
        simp
    · exact analyzeArgs_visible hm _ args has r hr

theorem analyzeArgs_visible (hm : Matches env Γ) (recursive : Bool) :
    (gs : List Grammar.Expr) → {es : List Expr} → analyzeArgs env recursive gs = .ok es →
      ∀ r ∈ Expr.referencesList es, Scopes.lookup? Γ r.name ≠ none
  | [], _, h => by
    cases h
    intro r hr
    cases hr
  | g :: gs, _, h => by
    obtain ⟨e, he, h⟩ := Analysed.exists_of_bind h
    obtain ⟨_, _, h⟩ := Analysed.exists_of_bind h
    obtain ⟨es, hes, h⟩ := Analysed.exists_of_bind h
    cases h
    exact (analyzeExpr_visible hm g he).append (analyzeArgs_visible hm recursive gs hes)

theorem analyzeSegments_visible (hm : Matches env Γ) :
    (gs : List Grammar.Segment) → {ss : List Segment} → analyzeSegments env gs = .ok ss →
      ∀ r ∈ Segment.referencesList ss, Scopes.lookup? Γ r.name ≠ none
  | [], _, h => by
    cases h
    intro r hr
    cases hr
  | .text t :: gs, _, h => by
    obtain ⟨s, hs, h⟩ := Analysed.exists_of_bind h
    obtain ⟨ss, hss, h⟩ := Analysed.exists_of_bind h
    cases h
    cases hs
    change ∀ r ∈ Segment.referencesList ss, _
    exact analyzeSegments_visible hm gs hss
  | .embedded g :: gs, _, h => by
    obtain ⟨s, hs, h⟩ := Analysed.exists_of_bind h
    obtain ⟨ss, hss, h⟩ := Analysed.exists_of_bind h
    obtain ⟨e, he, hs⟩ := Analysed.exists_of_bind hs
    cases h
    cases hs
    exact (analyzeExpr_visible hm g he).append (analyzeSegments_visible hm gs hss)

end

end Expressions

/-! ## Statements -/

section Statements

/-- An assignment to this name declares it. -/
def Env.declares (env : Env) (name : Bytes) : Bool := (env.lookup? name).all (·.kind == .builtin)

/-- An assignment declares its name, or the name is that of a variable or of a parameter. -/
theorem resolveAssign_eq_ok {env env' : Env} {loc target : Location} {name : Bytes} {value : Expr}
    {s : Stmt} (h : resolveAssign env loc target name value = .ok (s, env')) :
    (env.declares name ∧ s = .assign loc ⟨target, name, value.type, false⟩ value true ∧
      env' = env.define ⟨.assigned, name, value.type, 0, .unknown⟩) ∨
    ∃ m type, env.lookup? name = some m ∧ (m.kind = .assigned ∨ m.kind = .parameter) ∧
      s = .assign loc ⟨target, name, type, false⟩ value false ∧
      env' = env.modify name fun m => { m with type } := by
  unfold resolveAssign at h
  split at h
  · rename_i hx
    cases h
    exact .inl ⟨by simp [Env.declares, hx], rfl, rfl⟩
  · rename_i m hx
    split at h
    · rename_i hkind
      cases h
      exact .inl ⟨by simp [Env.declares, hx, hkind], rfl, rfl⟩
    · cases h
    · cases h
    all_goals
      rename_i hkind
      split at h
      · cases h
      · cases h
        exact .inr ⟨m, _, hx, by simp [hkind], rfl, rfl⟩

theorem resolveAssign_wellScoped {env env' : Env} {Γ : Scopes Declaration} {loc target : Location}
    {name : Bytes} {value : Expr} {s : Stmt} (hm : Matches env Γ) (hv : value.Visible Γ)
    (h : resolveAssign env loc target name value = .ok (s, env')) :
    s.WellScoped Γ ∧ Matches env' (s.extend Γ) := by
  rcases resolveAssign_eq_ok h with ⟨hdeclares, rfl, rfl⟩ | ⟨m, type, hx, hkind, rfl, rfl⟩
  · refine ⟨⟨hv, fun d hd => ?_⟩, hm.define rfl⟩
    have hk := hm.kind_eq name
    rw [hd] at hk
    obtain ⟨m, hx, hmk⟩ := Option.map_eq_some_iff.mp hk
    have hbuiltin : m.kind = .builtin := by simpa [Env.declares, hx] using hdeclares
    exact hmk.symm.trans hbuiltin
  · obtain ⟨d, hd, hk⟩ := hm.exists_of_some hx
    refine ⟨⟨hv, d, hd, by rwa [hk]⟩, hm.modify ?_ name⟩
    exact fun _ => ⟨rfl, rfl⟩

/-- A chain of conditions as a statement. -/
theorem Alternate.WellScoped.toStmt {Γ : Scopes Declaration} {chain : Alternate}
    (h : chain.WellScoped Γ) (loc : Location) :
    (chain.toStmt loc).WellScoped Γ ∧ (chain.toStmt loc).extend Γ = Γ := by
  cases chain with
  | none => exact ⟨trivial, rfl⟩
  | block => exact ⟨h, rfl⟩
  | branch => exact ⟨h, rfl⟩

/-- The scopes after a block, once it is left. -/
theorem Matches.leave {env : Env} {f : List (Bytes × Declaration)} {Γ : Scopes Declaration}
    {ss : List Stmt} (h : Matches env (Stmt.extendList (f :: Γ) ss)) : Matches env.pop Γ := by
  obtain ⟨f', hf⟩ := exists_extendList_cons f Γ ss
  rw [hf] at h
  exact h.pop

mutual

theorem analyzeStmt_wellScoped {env env' : Env} {Γ : Scopes Declaration} (hm : Matches env Γ) :
    (g : Grammar.Stmt) → {s : Stmt} → analyzeStmt env g = .ok (s, env') →
      s.WellScoped Γ ∧ Matches env' (s.extend Γ)
  | .print loc value, _, h => by
    obtain ⟨e, he, h⟩ := Analysed.exists_of_bind h
    cases h
    exact ⟨analyzeExpr_visible hm value he, hm⟩
  | .assign loc target value, _, h => by
    unfold analyzeStmt at h
    split at h
    · obtain ⟨e, he, h⟩ := Analysed.exists_of_bind h
      exact resolveAssign_wellScoped hm (analyzeExpr_visible hm value he) h
    · cases h
  | .function loc name params bodyLoc body, _, h => by
    unfold analyzeStmt at h
    split at h
    · cases h
    · obtain ⟨inner, hi, h⟩ := Analysed.exists_of_bind h
      obtain ⟨⟨ss, last⟩, hss, h⟩ := Analysed.exists_of_bind h
      cases h
      have hname : Matches (env.define ⟨.function, name, .unknown, params.length, .unknown⟩)
          (Scopes.bind name ⟨.function, name, loc⟩ Γ) := hm.define rfl
      have hparams := (hname.push false true).defineParams hi loc
      rw [List.append_nil] at hparams
      obtain ⟨hws, hm'⟩ := analyzeStmts_wellScoped (hparams.ofFunction _) body hss
      exact ⟨hws, hm'.leave⟩
  | .serve loc value, _, h => by
    unfold analyzeStmt at h
    split at h
    · obtain ⟨e, he, h⟩ := Analysed.exists_of_bind h
      cases h
      exact ⟨analyzeExpr_visible hm value he, hm.noteReturn _⟩
    · cases h
  | .branch loc arms, _, h => by
    obtain ⟨⟨chain, last⟩, hc, h⟩ := Analysed.exists_of_bind h
    obtain ⟨_, _, h⟩ := Analysed.exists_of_bind h
    cases h
    obtain ⟨hws, hm'⟩ := analyzeArms_wellScoped hm arms hc
    obtain ⟨hs, he⟩ := hws.toStmt loc
    exact ⟨hs, he.symm ▸ hm'⟩
  | .loop loc counter rangeLoc bound bodyLoc body, _, h => by
    unfold analyzeStmt at h
    split at h
    · rename_i counterLoc name
      obtain ⟨e, he, h⟩ := Analysed.exists_of_bind h
      obtain ⟨_, _, h⟩ := Analysed.exists_of_bind h
      obtain ⟨⟨ss, last⟩, hss, h⟩ := Analysed.exists_of_bind h
      cases h
      have hbody : Matches ((env.push true env.inFunction).define _)
          (counterScope ⟨counterLoc, name, .number, false⟩ :: Γ) :=
        (hm.push true env.inFunction).define (m := ⟨.loopVariable, name, .number, 0, .unknown⟩) rfl
      obtain ⟨hws, hm'⟩ := analyzeStmts_wellScoped hbody body hss
      exact ⟨⟨analyzeExpr_visible hm bound he, hws⟩, hm'.leave⟩
    · cases h
  | .leave loc, _, h => by
    unfold analyzeStmt at h
    split at h
    · cases h
      exact ⟨trivial, hm⟩
    · cases h
  | .comment .., _, h => by
    cases h
    exact ⟨trivial, hm⟩
  | .expression loc value, _, h => by
    obtain ⟨e, he, h⟩ := Analysed.exists_of_bind h
    cases h
    exact ⟨analyzeExpr_visible hm value he, hm⟩

theorem analyzeArms_wellScoped {env env' : Env} {Γ : Scopes Declaration} (hm : Matches env Γ) :
    (arms : Grammar.Arms) → {a : Alternate} → analyzeArms env arms = .ok (a, env') →
      a.WellScoped Γ ∧ Matches env' Γ
  | .done, _, h => by
    cases h
    exact ⟨trivial, hm⟩
  | .otherwise bodyLoc body, _, h => by
    obtain ⟨⟨ss, last⟩, hss, h⟩ := Analysed.exists_of_bind h
    cases h
    obtain ⟨hws, hm'⟩ := analyzeStmts_wellScoped (hm.push _ _) body hss
    exact ⟨hws, hm'.leave⟩
  | .arm loc condition bodyLoc body rest, _, h => by
    obtain ⟨e, he, h⟩ := Analysed.exists_of_bind h
    obtain ⟨⟨ss, mid⟩, hss, h⟩ := Analysed.exists_of_bind h
    obtain ⟨⟨a, last⟩, ha, h⟩ := Analysed.exists_of_bind h
    cases h
    obtain ⟨hws, hm'⟩ := analyzeStmts_wellScoped (hm.push _ _) body hss
    obtain ⟨hrest, hlast⟩ := analyzeArms_wellScoped hm'.leave rest ha
    exact ⟨⟨analyzeExpr_visible hm condition he, hws, hrest⟩, hlast⟩

theorem analyzeStmts_wellScoped {env env' : Env} {Γ : Scopes Declaration} (hm : Matches env Γ) :
    (gs : List Grammar.Stmt) → {ss : List Stmt} → analyzeStmts env gs = .ok (ss, env') →
      Stmt.WellScopedList Γ ss ∧ Matches env' (Stmt.extendList Γ ss)
  | [], _, h => by
    cases h
    exact ⟨trivial, hm⟩
  | g :: gs, _, h => by
    obtain ⟨⟨s, mid⟩, hs, h⟩ := Analysed.exists_of_bind h
    obtain ⟨⟨ss, last⟩, hss, h⟩ := Analysed.exists_of_bind h
    cases h
    obtain ⟨hws, hm'⟩ := analyzeStmt_wellScoped hm g hs
    obtain ⟨hwss, hlast⟩ := analyzeStmts_wellScoped hm' gs hss
    exact ⟨⟨hws, hwss⟩, hlast⟩

end

/-- An analysed program is well scoped. -/
theorem analyze_wellScoped {tree : Grammar.Tree} {p : Program} (h : analyze tree = .ok p) :
    Stmt.WellScopedList startScopes p.statements := by
  have hm : Matches Env.start startScopes := by
    simp [Matches, Env.start, startScopes, chainKinds, Scopes.kinds, builtinScope]
  obtain ⟨env, hss⟩ := analyze_eq_ok h
  exact (analyzeStmts_wellScoped hm _ hss).1

end Statements

end Roar
