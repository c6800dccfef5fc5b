import Roar.Analysis.Resolve
import Roar.Proofs.Grammar.Derivation

/-!
# The first fault

What analysis gives can be said without an analyzer: the result with the scopes behind it, or the first
fault (`analyzeStmts`). An analyzer signals a fault by a result that is missing, and reports it on the
way. That the two agree is said once: an expression is what its rules give (`Analysis.expr_eq_take`),
and a statement ends in one of three ways (`Analysis.Outcome`, `Analysis.stmt_outcome`). It has a
result, and nothing is reported; it has none, and the first fault is reported; or it has none and
nothing is reported, which happens only if a conditional has no arm.

So an accepted tree has the program of its first-fault analysis (`analyze_eq_ok`), and one whose
conditionals all have arms is refused with its first fault (`analyze_eq_error`); both are cases of
`analyze_cases`.
-/

namespace Roar

/-! ## Analysis up to the first fault -/

mutual

/-- The typed expression of a parsed one. -/
def analyzeExpr (env : Env) : Grammar.Expr → Analysed Expr
  | .number loc value _ => .ok (.number loc value)
  | .string loc value => .ok (.string loc value)
  | .interpolated loc segments => do
    let segments ← analyzeSegments env segments
    return .interpolate loc segments
  | .boolean loc value => .ok (.boolean loc value)
  | .identifier loc name => resolveName env loc name
  | .binary loc op left right => do
    let left ← analyzeExpr env left
    let right ← analyzeExpr env right
    Expr.checkedBinary loc op left right
  | .compare loc op left right => do
    let left ← analyzeExpr env left
    let right ← analyzeExpr env right
    resolveCompare loc op left right
  | .unary loc op operand => do
    let operand ← analyzeExpr env operand
    Expr.checkedUnary loc op operand
  | .call loc callee args => do
    let m ← resolveCallee env loc callee args.length
    let args ← analyzeArgs env (env.isCurrentFunction callee) args
    let type := if m.returns == .unknown then .number else m.returns
    return .call loc callee args type (m.kind == .builtin)

/-- The arguments of a call, each checked before the next is looked at. -/
def analyzeArgs (env : Env) (recursive : Bool) : List Grammar.Expr → Analysed (List Expr)
  | [] => .ok []
  | arg :: args => do
    let arg ← analyzeExpr env arg
    checkArgument recursive arg
    let args ← analyzeArgs env recursive args
    return arg :: args

/-- A piece of a string. -/
def analyzeSegment (env : Env) : Grammar.Segment → Analysed Segment
  | .text value => .ok (.text value)
  | .embedded value => do
    let value ← analyzeExpr env value
    return .embedded value

/-- The pieces of a string. -/
def analyzeSegments (env : Env) : List Grammar.Segment → Analysed (List Segment)
  | [] => .ok []
  | s :: ss => do
    let s ← analyzeSegment env s
    let ss ← analyzeSegments env ss
    return s :: ss

end

/-- The statement of a chain of conditions. A chain without a condition is its last block, and an empty
block if it has none. -/
def Alternate.toStmt (loc : Location) : Alternate → Stmt
  | .none => .block loc []
  | .block loc body => .block loc body
  | .branch loc condition thenLoc thenBody alternate =>
    .branch loc condition thenLoc thenBody alternate

mutual

/-- The typed statement of a parsed one, and the scopes after it. -/
def analyzeStmt (env : Env) : Grammar.Stmt → Analysed (Stmt × Env)
  | .print loc value => do
    let value ← analyzeExpr env value
    return (.print loc value, env)
  | .assign loc target value =>
    match target with
    | .identifier targetLoc name => do
      let value ← analyzeExpr env value
      resolveAssign env loc targetLoc name value
    | target => SemanticError.assignedExpression.raise target.loc
  | .function loc name params bodyLoc body =>
    if (env.innermost.local? name).isSome then (SemanticError.redeclared name).raise loc
    else do
      let env := env.define ⟨.function, name, .unknown, params.length, .unknown⟩
      let depth := env.scopes.length - 1
      let inner ← defineParams (env.push false true) params
      let (body, inner) ← analyzeStmts { inner with function := some (depth, name) } body
      let env := { inner.pop with function := env.function }
      let returns := ((env.innermost.local? name).map (·.returns)).getD .unknown
      return (.function loc name (params.map (·.name)) bodyLoc body returns, env)
  | .serve loc value =>
    if env.inFunction then do
      let value ← analyzeExpr env value
      return (.serve loc value, env.noteReturn value.type)
    else SemanticError.returnOutside.raise loc
  | .branch loc arms => do
    let (chain, env) ← analyzeArms env arms
    checkBranches loc chain
    return (chain.toStmt loc, env)
  | .loop loc counter rangeLoc bound bodyLoc body =>
    match counter with
    | .identifier counterLoc name => do
      let limit ← analyzeExpr env bound
      checkBound bound.loc limit
      let inner := (env.push true env.inFunction).define ⟨.loopVariable, name, .number, 0, .unknown⟩
      let (body, inner) ← analyzeStmts inner body
      return (.loop loc ⟨counterLoc, name, .number, false⟩ rangeLoc limit bodyLoc body, inner.pop)
    | counter => SemanticError.loopTarget.raise counter.loc
  | .leave loc => if env.inLoop then .ok (.leave loc, env) else SemanticError.breakOutside.raise loc
  | .comment loc text => .ok (.comment loc text, env)
  | .expression loc value => do
    let value ← analyzeExpr env value
    return (.expression loc value, env)

/-- The chain of conditions of some arms, every block in a scope of its own. -/
def analyzeArms (env : Env) : Grammar.Arms → Analysed (Alternate × Env)
  | .done => .ok (.none, env)
  | .otherwise bodyLoc body => do
    let (body, env) ← analyzeStmts env.pushBlock body
    return (.block bodyLoc body, env.pop)
  | .arm loc condition bodyLoc body rest => do
    let condition ← analyzeExpr env condition
    let (body, env) ← analyzeStmts env.pushBlock body
    let (rest, env) ← analyzeArms env.pop rest
    return (.branch loc condition bodyLoc body rest, env)

/-- The statements of a list, each with the scopes that the one before leaves. -/
def analyzeStmts (env : Env) : List Grammar.Stmt → Analysed (List Stmt × Env)
  | [] => .ok ([], env)
  | s :: ss => do
    let (s, env) ← analyzeStmt env s
    let (ss, env) ← analyzeStmts env ss
    return (s :: ss, env)

end

theorem Analysed.exists_of_bind {α β : Type} {x : Analysed α} {f : α → Analysed β} {b : β}
    (h : (x >>= f) = .ok b) : ∃ a, x = .ok a ∧ f a = .ok b := by
  cases x with
  | error => cases h
  | ok a => exact ⟨a, rfl, h⟩

/-! ## Expressions -/

namespace Analysis

variable {α β : Type} {a : Analyzer}

theorem env_bind (next : Env → Analysis β) : (env >>= next) a = next a.env a := rfl

theorem setEnv_bind (env : Env) (next : Unit → Analysis β) :
    (setEnv env >>= next) a = next () { a with env } := rfl

/-- An analysis that begins with what a rule gives, and goes on with what others give. -/
theorem bind_of_take {first : Analysis α} {next : α → Analysis β} {r : Analysed α}
    {f : α → Analysed β} (hfirst : first a = take r a) (hnext : ∀ x, next x a = take (f x) a) :
    (first >>= next) a = take (r >>= f) a := by
  simp only [bind, hfirst]
  cases r with
  | error fault => rfl
  | ok x => exact hnext x

mutual

/-- An expression is what its rules give. -/
theorem expr_eq_take (a : Analyzer) :
    (g : Grammar.Expr) → expr g a = take (analyzeExpr a.env g) a
  | .number .. | .string .. | .boolean .. | .identifier .. => by
    simp only [expr, analyzeExpr]
    rfl
  | .interpolated loc parts => by
    rw [expr, analyzeExpr]
    exact bind_of_take (segments_eq_take a parts) fun _ => rfl
  | .binary loc op left right => by
    rw [expr, analyzeExpr]
    exact bind_of_take (expr_eq_take a left) fun _ =>
      bind_of_take (expr_eq_take a right) fun _ => rfl
  | .compare loc op left right => by
    rw [expr, analyzeExpr]
    exact bind_of_take (expr_eq_take a left) fun _ =>
      bind_of_take (expr_eq_take a right) fun _ => rfl
  | .unary loc op operand => by
    rw [expr, analyzeExpr]
    exact bind_of_take (expr_eq_take a operand) fun _ => rfl
  | .call loc callee args => by
    rw [expr, analyzeExpr]
    exact bind_of_take (r := resolveCallee a.env loc callee args.length) rfl fun _ =>
      bind_of_take (arguments_eq_take a _ args) fun _ => rfl

theorem arguments_eq_take (a : Analyzer) (recursive : Bool) :
    (gs : List Grammar.Expr) → arguments recursive gs a = take (analyzeArgs a.env recursive gs) a
  | [] => by
    rw [arguments, analyzeArgs]
    rfl
  | g :: gs => by
    rw [arguments, analyzeArgs]
    exact bind_of_take (expr_eq_take a g) fun arg =>
      bind_of_take (r := checkArgument recursive arg) rfl fun _ =>
        bind_of_take (arguments_eq_take a recursive gs) fun _ => rfl

theorem segment_eq_take (a : Analyzer) :
    (g : Grammar.Segment) → segment g a = take (analyzeSegment a.env g) a
  | .text value => by
    rw [segment, analyzeSegment]
    rfl
  | .embedded value => by
    rw [segment, analyzeSegment]
    exact bind_of_take (expr_eq_take a value) fun _ => rfl

theorem segments_eq_take (a : Analyzer) :
    (gs : List Grammar.Segment) → segments gs a = take (analyzeSegments a.env gs) a
  | [] => by
    rw [segments, analyzeSegments]
    rfl
  | g :: gs => by
    rw [segments, analyzeSegments]
    exact bind_of_take (segment_eq_take a g) fun _ =>
      bind_of_take (segments_eq_take a gs) fun _ => rfl

end

/-! ## Statements -/

/-- How an analysis ends that begins without a fault, where its rules give `r`. It has the result, with
the scopes behind it; or it has none, and the fault is reported; or it has none and nothing is reported,
although something has no arm. -/
inductive Outcome (report : Report) (armed : Prop) :
    Analysed (α × Env) → Option α × Analyzer → Prop
  | done (x : α) (env : Env) : Outcome report armed (.ok (x, env)) (some x, ⟨env, false, report⟩)
  | faulted (fault : SemanticFault) (env : Env) :
      Outcome report armed (.error fault) (none, ⟨env, true, report.add fault.diagnostic⟩)
  | silent (r : Analysed (α × Env)) (env : Env) (h : ¬ armed) :
      Outcome report armed r (none, ⟨env, false, report⟩)

namespace Outcome

variable {report : Report} {armed armed' : Prop} {env : Env} {first : Analysis α}
  {next : α → Analysis β}

theorem raised (fault : SemanticFault) :
    Outcome report armed (.error fault : Analysed (α × Env)) (take (.error fault) ⟨env, false, report⟩) :=
  .faulted fault env

theorem mono {r : Analysed (α × Env)} {y : Option α × Analyzer} (h : Outcome report armed' r y)
    (himp : armed → armed') : Outcome report armed r y := by
  cases h with
  | done x env => exact .done x env
  | faulted fault env => exact .faulted fault env
  | silent r env hnot => exact .silent r env fun harmed => hnot (himp harmed)

/-- What comes first does not change the scopes. -/
theorem afterTake {r : Analysed α} {f : α → Analysed (β × Env)}
    (hfirst : first ⟨env, false, report⟩ = take r ⟨env, false, report⟩)
    (hnext : ∀ x, Outcome report armed (f x) (next x ⟨env, false, report⟩)) :
    Outcome report armed (r >>= f) ((first >>= next) ⟨env, false, report⟩) := by
  simp only [Bind.bind, hfirst]
  cases r with
  | ok x => exact hnext x
  | error fault => exact .raised fault

/-- What comes first ends as `y` does, and leaves the scopes that `leave` makes of those behind `y`. -/
theorem bind {r : Analysed (α × Env)} {f : α × Env → Analysed (β × Env)} {y : Option α × Analyzer}
    (hy : Outcome report armed r y) (leave : Env → Env)
    (hfirst : first ⟨env, false, report⟩ = (y.1, { y.2 with env := leave y.2.env }))
    (hnext : ∀ x env', r = .ok (x, env') →
      Outcome report armed' (f (x, env')) (next x ⟨leave env', false, report⟩)) :
    Outcome report (armed ∧ armed') (r >>= f) ((first >>= next) ⟨env, false, report⟩) := by
  simp only [Bind.bind, hfirst]
  cases hy with
  | done x env' => exact (hnext x env' rfl).mono And.right
  | faulted fault env' => exact .faulted fault _
  | silent r env' hnot => exact .silent _ _ fun harmed => hnot harmed.1

/-- Behind what comes first nothing can go wrong. -/
theorem last {r : Analysed (α × Env)} {f : α × Env → Analysed (β × Env)} {y : Option α × Analyzer}
    (hy : Outcome report armed r y) (leave : Env → Env)
    (hfirst : first ⟨env, false, report⟩ = (y.1, { y.2 with env := leave y.2.env }))
    (hnext : ∀ x env', Outcome report True (f (x, env')) (next x ⟨leave env', false, report⟩)) :
    Outcome report armed (r >>= f) ((first >>= next) ⟨env, false, report⟩) :=
  (hy.bind leave hfirst fun x env' _ => hnext x env').mono fun harmed => ⟨harmed, trivial⟩

end Outcome

/-- The scopes of parameters belong to the function around. -/
theorem function_defineParams {env env' : Env} {params : List Grammar.Param}
    (h : defineParams env params = .ok env') : env'.function = env.function := by
  induction params generalizing env with
  | nil =>
    cases h
    rfl
  | cons p ps ih =>
    unfold defineParams at h
    split at h
    · cases h
    · exact (ih h :)

/-- A chain is a statement, unless the conditional has no arm. -/
theorem toStmt?_cases {env env' : Env} {arms : Grammar.Arms} {chain : Alternate} (loc : Location)
    (h : analyzeArms env arms = .ok (chain, env')) :
    chain.toStmt? = some (chain.toStmt loc) ∨ chain.toStmt? = none ∧ ¬ arms.StartAt loc := by
  cases chain with
  | block | branch => exact .inl rfl
  | none =>
    refine .inr ⟨rfl, fun hstart => ?_⟩
    cases arms with
    | done | otherwise => exact hstart
    | arm =>
      rw [analyzeArms] at h
      obtain ⟨_, -, h⟩ := Analysed.exists_of_bind h
      obtain ⟨_, -, h⟩ := Analysed.exists_of_bind h
      obtain ⟨_, -, h⟩ := Analysed.exists_of_bind h
      cases h

mutual

theorem stmt_outcome (env : Env) (report : Report) :
    (g : Grammar.Stmt) →
      Outcome report g.Aligned (analyzeStmt env g) (stmt g ⟨env, false, report⟩)
  | .print loc value | .expression loc value => by
    rw [stmt, analyzeStmt]
    exact .afterTake (expr_eq_take _ value) fun e => .done _ _
  | .assign loc target value => by
    cases target with
    | identifier targetLoc name =>
      rw [stmt, analyzeStmt]
      refine .afterTake (expr_eq_take _ value) fun e => ?_
      rw [env_bind]
      cases h : resolveAssign env loc targetLoc name e with
      | ok result => exact .done _ _
      | error fault => exact .raised fault
    | _ => exact .raised _
  | .function loc name params bodyLoc body => by
    rw [stmt, analyzeStmt, env_bind]
    by_cases hlocal : (env.innermost.local? name).isSome
    · rw [if_pos hlocal, if_pos hlocal]
      exact .raised _
    · rw [if_neg hlocal, if_neg hlocal, setEnv_bind]
      generalize env.define ⟨.function, name, .unknown, params.length, .unknown⟩ = here
      simp only [← bind_assoc]
      have hbody : Outcome report (Grammar.Stmt.AlignedList body)
          (defineParams (here.push false true) params >>= fun inner =>
            analyzeStmts { inner with function := some (here.scopes.length - 1, name) } body)
          ((take (defineParams (here.push false true) params) >>= fun inner =>
            setEnv { inner with function := some (here.scopes.length - 1, name) } >>= fun _ =>
              stmts body) ⟨here.push false true, false, report⟩) :=
        .afterTake rfl fun inner => stmts_outcome _ report body
      refine hbody.last (fun last => { last.pop with function := here.function }) ?_
        fun _ _ => .done _ _
      cases hparams : defineParams (here.push false true) params with
      | error fault =>
        simp only [inScope, env_bind, hparams]
        rfl
      | ok inner =>
        have hfunction : inner.function = here.function := (function_defineParams hparams :)
        simp only [inScope, env_bind, hparams, ← hfunction]
        rfl
  | .serve loc value => by
    rw [stmt, analyzeStmt, env_bind]
    by_cases hinside : env.inFunction
    · rw [if_pos hinside, if_pos hinside]
      exact .afterTake (expr_eq_take _ value) fun e => .done _ _
    · rw [if_neg hinside, if_neg hinside]
      exact .raised _
  | .branch loc arms => by
    rw [stmt, analyzeStmt]
    have hbranch : (Grammar.Stmt.branch loc arms).Aligned → arms.Aligned ∧ arms.StartAt loc :=
      And.symm
    refine .mono (.bind (arms_outcome env report arms) id rfl fun chain env' h => ?_) hbranch
    refine .afterTake rfl fun _ => ?_
    rcases toStmt?_cases loc h with hs | ⟨hs, hstart⟩
    · rw [hs]
      exact .done _ _
    · rw [hs]
      exact .silent _ _ hstart
  | .loop loc counter rangeLoc bound bodyLoc body => by
    cases counter with
    | identifier counterLoc name =>
      rw [stmt, analyzeStmt]
      refine .afterTake (expr_eq_take _ bound) fun limit => ?_
      refine .afterTake rfl fun _ => ?_
      exact Outcome.last (stmts_outcome _ report body) Env.pop rfl fun _ _ => .done _ _
    | _ => exact .raised _
  | .leave loc => by
    rw [stmt, analyzeStmt, env_bind]
    by_cases hinside : env.inLoop
    · rw [if_pos hinside, if_pos hinside]
      exact .done _ _
    · rw [if_neg hinside, if_neg hinside]
      exact .raised _
  | .comment loc text => by
    rw [stmt, analyzeStmt]
    exact .done _ _

theorem arms_outcome (env : Env) (report : Report) :
    (g : Grammar.Arms) →
      Outcome report g.Aligned (analyzeArms env g) (arms g ⟨env, false, report⟩)
  | .done => by
    rw [arms, analyzeArms]
    exact .done _ _
  | .otherwise bodyLoc body => by
    rw [arms, analyzeArms]
    exact Outcome.last (stmts_outcome env.pushBlock report body) Env.pop rfl fun _ _ => .done _ _
  | .arm loc condition bodyLoc body rest => by
    rw [arms, analyzeArms]
    refine .afterTake (expr_eq_take _ condition) fun e => ?_
    refine Outcome.bind (stmts_outcome env.pushBlock report body) Env.pop rfl fun ss env' _ => ?_
    exact Outcome.last (arms_outcome env'.pop report rest) id rfl fun _ _ => .done _ _

theorem stmts_outcome (env : Env) (report : Report) :
    (gs : List Grammar.Stmt) →
      Outcome report (Grammar.Stmt.AlignedList gs) (analyzeStmts env gs)
        (stmts gs ⟨env, false, report⟩)
  | [] => by
    rw [stmts, analyzeStmts]
    exact .done _ _
  | g :: gs => by
    rw [stmts, analyzeStmts]
    refine Outcome.bind (stmt_outcome env report g) id rfl fun s env' _ => ?_
    exact Outcome.last (stmts_outcome env' report gs) id rfl fun _ _ => .done _ _

end

end Analysis

/-! ## Trees -/

/-- A tree is accepted with what its rules give, or refused with its first fault; or it is refused
although something has no arm. -/
theorem analyze_cases (tree : Grammar.Tree) :
    (∃ ss env, analyzeStmts Env.start tree.statements = .ok (ss, env) ∧ analyze tree = .ok ⟨ss⟩) ∨
      (∃ fault, analyzeStmts Env.start tree.statements = .error fault ∧
        analyze tree = .error fault.diagnostic) ∨
      ¬ tree.Aligned ∧ ∃ d, analyze tree = .error d := by
  have houtcome := Analysis.stmts_outcome Env.start {} tree.statements
  simp only [analyze, Analysis.program, Bind.bind]
  generalize Analysis.stmts tree.statements ⟨Env.start, false, {}⟩ = y at houtcome ⊢
  generalize analyzeStmts Env.start tree.statements = r at houtcome ⊢
  cases houtcome with
  | done ss env => exact .inl ⟨ss, env, rfl, rfl⟩
  | faulted fault env => exact .inr (.inl ⟨fault, rfl, rfl⟩)
  | silent r env hnot => exact .inr (.inr ⟨hnot, _, rfl⟩)

/-- An accepted tree has the program that its rules give. -/
theorem analyze_eq_ok {tree : Grammar.Tree} {p : Program} (h : analyze tree = .ok p) :
    ∃ env, analyzeStmts Env.start tree.statements = .ok (p.statements, env) := by
  obtain ⟨ss, env, hss, hok⟩ | ⟨fault, -, herror⟩ | ⟨-, d, herror⟩ := analyze_cases tree
  · cases h.symm.trans hok
    exact ⟨env, hss⟩
  · cases h.symm.trans herror
  · cases h.symm.trans herror

/-- A tree that is refused, and whose conditionals all have arms, is refused with its first fault. -/
theorem analyze_eq_error {tree : Grammar.Tree} {d : Diagnostic} (haligned : tree.Aligned)
    (h : analyze tree = .error d) :
    ∃ fault, analyzeStmts Env.start tree.statements = .error fault ∧ d = fault.diagnostic := by
  obtain ⟨ss, env, -, hok⟩ | ⟨fault, hfault, herror⟩ | ⟨hnot, -⟩ := analyze_cases tree
  · cases h.symm.trans hok
  · cases h.symm.trans herror
    exact ⟨fault, hfault, rfl⟩
  · exact absurd haligned hnot

end Roar
