import Roar.Analysis.Scope
import Roar.Grammar.Tree

/-!
# From parse trees to programs

`analyze` resolves the names of a parse tree, finds the types of its expressions and checks the
rules of the language. A rule gives a result or a fault (`Analysed`). An `Analyzer` goes through the
tree with them: it notes the first fault, and what could not be analysed has no result (`Analysis`), so
that nothing around it has one.

The first assignment to a name declares it in the scope where it stands; a built-in name may be
declared again. Every block of a conditional has a scope of its own, a function has one with its
parameters, and a loop has one with its counter. A function is known in its own body, and returns
what its first `serve` of a known type does; until then a call of it counts as a number.
-/

namespace Roar

/-- The scopes around a place, the innermost first, and the function whose body it lies in, by the
depth of its scope and its name. -/
structure Env where
  scopes : List Scope
  function : Option (Nat × Bytes) := none

namespace Env

/-- The scopes of a whole program: the built-in functions, and an empty scope for its own names. -/
def start : Env := { scopes := [{}, builtinScope] }

def lookup? (env : Env) (name : Bytes) : Option Meaning := Scope.lookup? name env.scopes

/-- The innermost scope. -/
def innermost (env : Env) : Scope := env.scopes.headD {}

def inLoop (env : Env) : Bool := env.innermost.inLoop

def inFunction (env : Env) : Bool := env.innermost.inFunction

def define (env : Env) (m : Meaning) : Env := { env with scopes := Scope.defineIn m env.scopes }

/-- Open a scope. -/
def push (env : Env) (inLoop inFunction : Bool) : Env :=
  { env with scopes := { inLoop, inFunction } :: env.scopes }

/-- Open a scope for a block, which lies in a loop or a function if the place does. -/
def pushBlock (env : Env) : Env := env.push env.inLoop env.inFunction

/-- Leave the innermost scope. -/
def pop (env : Env) : Env := { env with scopes := env.scopes.tail }

/-- Change what a name means, where its meaning is found. -/
def modify (env : Env) (name : Bytes) (change : Meaning → Meaning) : Env :=
  match Scope.find? name env.scopes with
  | some (depth, _) => { env with scopes := Scope.modifyAt depth name change env.scopes }
  | none => env

/-- The name means the function whose body this is. -/
def isCurrentFunction (env : Env) (name : Bytes) : Bool :=
  match Scope.find? name env.scopes, env.function with
  | some (depth, _), some f => (depth, name) == f
  | _, _ => false

/-- The function whose body this is returns a value of some type; the first known type stays. -/
def noteReturn (env : Env) (type : ValueType) : Env :=
  match env.function with
  | some (depth, name) =>
    let change (m : Meaning) : Meaning :=
      if m.returns == .unknown then { m with returns := type } else m
    { env with scopes := Scope.modifyAt depth name change env.scopes }
  | none => env

end Env

/-- What a rule gives: a result or a fault. -/
abbrev Analysed := Except SemanticFault

/-- A fault at a place. -/
def SemanticError.raise {α : Type} (e : SemanticError) (loc : Location) : Analysed α :=
  .error ⟨e, loc⟩

/-! ## Rules for expressions -/

/-- A use of a name. -/
def resolveName (env : Env) (loc : Location) (name : Bytes) : Analysed Expr :=
  match env.lookup? name with
  | none => (SemanticError.undeclared name).raise loc
  | some m =>
    if m.isCallable then .ok (.identifier ⟨loc, name, .unknown, true⟩)
    else .ok (.identifier ⟨loc, name, m.type, false⟩)

/-- A function and something else cannot be compared. -/
def resolveCompare (loc : Location) (op : CompareOp) (left right : Expr) : Analysed Expr :=
  if left.isFunction != right.isFunction then
    let other := if left.isFunction then right else left
    (SemanticError.functionCompared other.type).raise loc
  else Expr.checkedCompare loc op left right

/-- The function that a call of so many arguments calls. -/
def resolveCallee (env : Env) (loc : Location) (name : Bytes) (passed : Nat) : Analysed Meaning :=
  match env.lookup? name with
  | none => (SemanticError.undeclared name).raise loc
  | some m =>
    if !m.isCallable then SemanticError.notFunction.raise loc
    else if passed ≠ m.paramCount then (SemanticError.argumentCount m.paramCount passed).raise loc
    else .ok m

/-- An argument must be a number, as far as it is known. -/
def checkArgument (recursive : Bool) (arg : Expr) : Analysed Unit :=
  if arg.type.excludes .number then
    if recursive then SemanticError.recursiveArgument.raise arg.loc
    else (SemanticError.argumentType arg.type).raise arg.loc
  else .ok ()

/-! ## Rules for statements -/

/-- An assignment of a value to a name: a declaration if the name has no meaning yet, or only that
of a built-in function. -/
def resolveAssign (env : Env) (loc targetLoc : Location) (name : Bytes) (value : Expr) :
    Analysed (Stmt × Env) :=
  let declaration : Stmt × Env :=
    (.assign loc ⟨targetLoc, name, value.type, false⟩ value true,
      env.define ⟨.assigned, name, value.type, 0, .unknown⟩)
  match env.lookup? name with
  | none => .ok declaration
  | some m =>
    match m.kind with
    | .builtin => .ok declaration
    | .function => SemanticError.immutable.raise loc
    | .loopVariable => SemanticError.loopVariable.raise loc
    | .assigned | .parameter =>
      if m.type != .unknown && value.type.excludes m.type then
        SemanticError.differentTypes.raise loc
      else
        let type := if m.type == .unknown then value.type else m.type
        .ok (.assign loc ⟨targetLoc, name, type, false⟩ value false,
          env.modify name fun m => { m with type })

/-- The scope of the parameters of a function: they are numbers, and no two have the same name. -/
def defineParams (env : Env) : List Grammar.Param → Analysed Env
  | [] => .ok env
  | p :: ps =>
    if (env.innermost.local? p.name).isSome then (SemanticError.redeclared p.name).raise p.loc
    else defineParams (env.define ⟨.parameter, p.name, .number, 0, .unknown⟩) ps

/-- What the last statement of a block does, for the agreement of the blocks of a conditional: it
assigns to a name, or it serves a value. -/
inductive Terminal where
  | assigns (name : Bytes)
  | serves
deriving DecidableEq, Repr

/-- What a block ends with, and the type of the value there. -/
def terminal? (body : List Stmt) : Option (Terminal × ValueType) :=
  match body.getLast? with
  | some (.assign _ target value _) => some (.assigns target.name, value.type)
  | some (.serve _ value) => some (.serves, value.type)
  | _ => none

/-- Two blocks that end with the same thing agree on the type, as far as it is known. -/
def branchesAgree (a b : List Stmt) : Bool :=
  match terminal? a, terminal? b with
  | some (s, t), some (s', t') => !(s == s' && t != .unknown && t' != .unknown && t != t')
  | _, _ => true

/-- The blocks of a chain of conditions, and the block at its end if it has one. -/
def Alternate.blocks : Alternate → List (List Stmt) × Option (List Stmt)
  | .none => ([], .none)
  | .block _ body => ([], some body)
  | .branch _ _ _ body rest =>
    let (bodies, last) := rest.blocks
    (body :: bodies, last)

/-- Every block of a chain agrees with the block at its end. -/
def checkBranches (loc : Location) (chain : Alternate) : Analysed Unit :=
  match chain.blocks with
  | (_, .none) => .ok ()
  | (bodies, some last) =>
    if bodies.all (branchesAgree · last) then .ok () else SemanticError.branchTypes.raise loc

/-- The statement of a chain of conditions. A chain without a condition is its last block, and there is
nothing if it has none. -/
def Alternate.toStmt? : Alternate → Option Stmt
  | .none => Option.none
  | .block loc body => some (.block loc body)
  | .branch loc condition thenLoc thenBody alternate =>
    some (.branch loc condition thenLoc thenBody alternate)

/-- A literal negative number. -/
def Expr.isNegative : Expr → Bool
  | .number _ value => value.lt (.zero false)
  | .unary _ .neg (.number _ value) _ => Number.lt (.zero false) value
  | _ => false

/-- The bound of a loop must be a number that is not a negative literal. -/
def checkBound (loc : Location) (bound : Expr) : Analysed Unit :=
  if bound.type.excludes .number then SemanticError.boundType.raise loc
  else if bound.isNegative then SemanticError.negativeBound.raise loc
  else .ok ()

/-! ## The analyzer -/

/-- The scopes at a place, whether a fault was found, and what was reported. -/
structure Analyzer where
  env : Env
  failed : Bool := false
  report : Report := {}

/-- Note a fault. Only the first one is reported. -/
def Analyzer.note (fault : SemanticFault) : Analyzer → Analyzer
  | ⟨env, true, report⟩ => ⟨env, true, report⟩
  | ⟨env, false, report⟩ => ⟨env, true, report.add fault.diagnostic⟩

/-- The analysis of something: it may have no result, and it leaves an analyzer in either case. -/
def Analysis (α : Type) := Analyzer → Option α × Analyzer

namespace Analysis

instance : Monad Analysis where
  pure x := fun a => (some x, a)
  bind first next := fun a =>
    match first a with
    | (some x, a) => next x a
    | (none, a) => (none, a)

variable {α : Type}

/-- There is no result. -/
def stop : Analysis α := fun a => (none, a)

/-- What a rule gives; a fault is noted. -/
def take : Analysed α → Analysis α
  | .ok x => fun a => (some x, a)
  | .error fault => fun a => (none, a.note fault)

/-- The scopes here. -/
def env : Analysis Env
  | ⟨env, failed, report⟩ => (some env, ⟨env, failed, report⟩)

/-- Go on with other scopes. -/
def setEnv (env : Env) : Analysis Unit
  | ⟨_, failed, report⟩ => (some (), ⟨env, failed, report⟩)

/-- Analyse something in a scope of its own, which is left in either case. -/
def inScope (inLoop inFunction : Bool) (inner : Analysis α) : Analysis α
  | ⟨env, failed, report⟩ =>
    match inner ⟨env.push inLoop inFunction, failed, report⟩ with
    | (result, ⟨env, failed, report⟩) => (result, ⟨env.pop, failed, report⟩)

/-- Analyse the body of a function. -/
def inBody (function : Nat × Bytes) (inner : Analysis α) : Analysis α
  | ⟨⟨scopes, outer⟩, failed, report⟩ =>
    match inner ⟨⟨scopes, some function⟩, failed, report⟩ with
    | (result, ⟨⟨scopes, _⟩, failed, report⟩) => (result, ⟨⟨scopes, outer⟩, failed, report⟩)

mutual

/-- The typed expression of a parsed one. -/
def expr : Grammar.Expr → Analysis Expr
  | .number loc value _ => pure (.number loc value)
  | .string loc value => pure (.string loc value)
  | .interpolated loc parts => do
    let parts ← segments parts
    return .interpolate loc parts
  | .boolean loc value => pure (.boolean loc value)
  | .identifier loc name => do
    take (resolveName (← env) loc name)
  | .binary loc op left right => do
    let left ← expr left
    let right ← expr right
    take (Expr.checkedBinary loc op left right)
  | .compare loc op left right => do
    let left ← expr left
    let right ← expr right
    take (resolveCompare loc op left right)
  | .unary loc op operand => do
    let operand ← expr operand
    take (Expr.checkedUnary loc op operand)
  | .call loc callee args => do
    let env ← env
    let m ← take (resolveCallee env loc callee args.length)
    let args ← arguments (env.isCurrentFunction callee) args
    let type := if m.returns == .unknown then .number else m.returns
    return .call loc callee args type (m.kind == .builtin)

/-- The arguments of a call, each checked before the next is looked at. -/
def arguments (recursive : Bool) : List Grammar.Expr → Analysis (List Expr)
  | [] => pure []
  | arg :: args => do
    let arg ← expr arg
    take (checkArgument recursive arg)
    let args ← arguments recursive args
    return arg :: args

/-- A piece of a string. -/
def segment : Grammar.Segment → Analysis Segment
  | .text value => pure (.text value)
  | .embedded value => do
    let value ← expr value
    return .embedded value

/-- The pieces of a string. -/
def segments : List Grammar.Segment → Analysis (List Segment)
  | [] => pure []
  | s :: ss => do
    let s ← segment s
    let ss ← segments ss
    return s :: ss

end

mutual

/-- The typed statement of a parsed one. -/
def stmt : Grammar.Stmt → Analysis Stmt
  | .print loc value => do
    let value ← expr value
    return .print loc value
  | .assign loc target value =>
    match target with
    | .identifier targetLoc name => do
      let value ← expr value
      let (s, env) ← take (resolveAssign (← env) loc targetLoc name value)
      setEnv env
      return s
    | target => take (SemanticError.assignedExpression.raise target.loc)
  | .function loc name params bodyLoc body => do
    let env ← env
    if (env.innermost.local? name).isSome then take ((SemanticError.redeclared name).raise loc)
    else
      let env := env.define ⟨.function, name, .unknown, params.length, .unknown⟩
      setEnv env
      let body ← inScope false true do
        let inner ← take (defineParams (← Analysis.env) params)
        setEnv inner
        inBody (env.scopes.length - 1, name) (stmts body)
      let env ← Analysis.env
      let returns := ((env.innermost.local? name).map (·.returns)).getD .unknown
      return .function loc name (params.map (·.name)) bodyLoc body returns
  | .serve loc value => do
    if (← env).inFunction then
      let value ← expr value
      setEnv ((← env).noteReturn value.type)
      return .serve loc value
    else take (SemanticError.returnOutside.raise loc)
  | .branch loc arms => do
    let chain ← Analysis.arms arms
    take (checkBranches loc chain)
    match chain.toStmt? with
    | some s => return s
    | none => stop
  | .loop loc counter rangeLoc bound bodyLoc body =>
    match counter with
    | .identifier counterLoc name => do
      let limit ← expr bound
      take (checkBound bound.loc limit)
      let body ← inScope true (← env).inFunction do
        setEnv ((← env).define ⟨.loopVariable, name, .number, 0, .unknown⟩)
        stmts body
      return .loop loc ⟨counterLoc, name, .number, false⟩ rangeLoc limit bodyLoc body
    | counter => take (SemanticError.loopTarget.raise counter.loc)
  | .leave loc => do
    if (← env).inLoop then return .leave loc else take (SemanticError.breakOutside.raise loc)
  | .comment loc text => pure (.comment loc text)
  | .expression loc value => do
    let value ← expr value
    return .expression loc value

/-- The chain of conditions of some arms, every block in a scope of its own. -/
def arms : Grammar.Arms → Analysis Alternate
  | .done => pure .none
  | .otherwise bodyLoc body => do
    let here ← env
    let body ← inScope here.inLoop here.inFunction (stmts body)
    return .block bodyLoc body
  | .arm loc condition bodyLoc body rest => do
    let condition ← expr condition
    let here ← env
    let body ← inScope here.inLoop here.inFunction (stmts body)
    let rest ← arms rest
    return .branch loc condition bodyLoc body rest

/-- The statements of a list. -/
def stmts : List Grammar.Stmt → Analysis (List Stmt)
  | [] => pure []
  | s :: ss => do
    let s ← stmt s
    let ss ← stmts ss
    return s :: ss

end

/-- A whole program: there is none once a fault was found. -/
def program (tree : Grammar.Tree) : Analysis Program := do
  let statements ← stmts tree.statements
  fun a => if a.failed then (none, a) else (some ⟨statements⟩, a)

end Analysis

/-- The program of a parse tree, or the first fault that was reported. -/
def analyze (tree : Grammar.Tree) : Except Diagnostic Program :=
  match Analysis.program tree { env := Env.start } with
  | (some program, _) => .ok program
  | (none, a) => .error (a.report.entries.headD
      (.error {} (ascii "semantic analysis failed") Diagnostic.semanticCode))

end Roar
