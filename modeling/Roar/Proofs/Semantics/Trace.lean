import Roar.Program.Typing
import Roar.Proofs.Semantics.Run

/-!
# Traces

A run that looks at what it does. Evaluation stops at a name without a value and at an operator
whose operands have types that the operator table refuses (`Expr.value?`); the run is then stuck. A
variable keeps the type that it was declared with beside its value. A run tells all evaluations, of
expressions and of the parts of them that are reached (`Expr.visited`), and all that is stored and
printed, in order.

Every loop is given a number of iterations. A run that needs more is not finished: it has told what
happens up to there. So a run that does not end is told by its traces, of any length.

* `Program.run_eq_effect?`: a run that is not stuck does what `Stmt.run` says.
-/

namespace Roar

/-! ## Checked evaluation -/

/-- The type of a value. A function has none of the types of the language. -/
def Value.type : Value → ValueType
  | .number _ => .number
  | .string _ => .string
  | .boolean _ => .boolean
  | .function _ | .undefined => .unknown

/-- The type that a variable was declared with, and its value. -/
structure Variable where
  type : ValueType
  value : Value
deriving DecidableEq

/-- What a binary operator gives, if it takes operands of these types. -/
def BinaryOp.checked (host : Host) (op : BinaryOp) (v w : Value) : Option Value :=
  if (op.resultType v.type w.type).isOk then some (op.apply host v w) else none

/-- What an operator gives that is decided by its left operand. The type of the right one is not
known. -/
def BinaryOp.decided? (op : BinaryOp) (v : Value) : Option Value :=
  if (op.resultType v.type .unknown).isOk then some v else none

def CompareOp.checked (host : Host) (op : CompareOp) (v w : Value) : Option Value :=
  if op.accepts v.type w.type then some (.boolean (op.apply host v w)) else none

def UnaryOp.checked (host : Host) (op : UnaryOp) (v : Value) : Option Value :=
  if (op.resultType v.type).isOk then some (op.apply host v) else none

/-- What a built-in function gives for its argument, which is one number. -/
def checkedBuiltin (host : Host) (name : Bytes) (f : Value) (args : List Value) : Option Value :=
  if f = .function name ∧ name ∈ builtinNames ∧ args.map (·.type) = [.number] then
    some (builtinApply host name args)
  else none

/-- The limit of a loop is a number. -/
def limit? (v : Value) : Option Value := if v.type = .number then some v else none

mutual

/-- The value of an expression, if its evaluation does not get stuck. A function of the program is
not run. -/
def Expr.value? (host : Host) (ρ : Scopes Variable) : Expr → Option Value
  | .number _ value => some (.number value)
  | .string _ value => some (.string value)
  | .interpolated _ segments => (Segment.text? host ρ segments).map .string
  | .boolean _ value => some (.boolean value)
  | .identifier id => (Scopes.lookup? ρ id.name).map (·.value)
  | .binary _ op left right _ =>
    (left.value? host ρ).bind fun v =>
      if op.decidedBy v then op.decided? v else (right.value? host ρ).bind (op.checked host v)
  | .compare _ op left right =>
    (left.value? host ρ).bind fun v => (right.value? host ρ).bind (op.checked host v)
  | .unary _ op operand _ => (operand.value? host ρ).bind (op.checked host)
  | .call _ callee args _ builtin =>
    if builtin then
      (Scopes.lookup? ρ callee).bind fun f =>
        (Expr.values? host ρ args).bind (checkedBuiltin host callee f.value)
    else none
  | .range _ bound => (bound.value? host ρ).bind limit?

def Expr.values? (host : Host) (ρ : Scopes Variable) : List Expr → Option (List Value)
  | [] => some []
  | e :: es => (e.value? host ρ).bind fun v => (Expr.values? host ρ es).map (v :: ·)

/-- The text of the pieces of a string. -/
def Segment.text? (host : Host) (ρ : Scopes Variable) : List Segment → Option Bytes
  | [] => some []
  | .text t :: ss => (Segment.text? host ρ ss).map (t ++ ·)
  | .embedded e :: ss =>
    (e.value? host ρ).bind fun v => (Segment.text? host ρ ss).map (v.toText host ++ ·)

end

mutual

/-- The expressions that are evaluated for the value of an expression, in the order in which they
come to an end. -/
def Expr.visited (host : Host) (ρ : Scopes Variable) : Expr → List Expr
  | .number loc value => [.number loc value]
  | .string loc value => [.string loc value]
  | .interpolated loc segments =>
    Segment.visitedList host ρ segments ++ [.interpolated loc segments]
  | .boolean loc value => [.boolean loc value]
  | .identifier id => [.identifier id]
  | .binary loc op left right type =>
    left.visited host ρ ++
      (if (left.value? host ρ).any (!op.decidedBy ·) then right.visited host ρ else []) ++
      [.binary loc op left right type]
  | .compare loc op left right =>
    left.visited host ρ ++
      (if (left.value? host ρ).isSome then right.visited host ρ else []) ++
      [.compare loc op left right]
  | .unary loc op operand type => operand.visited host ρ ++ [.unary loc op operand type]
  | .call loc callee args type builtin =>
    Expr.visitedList host ρ args ++ [.call loc callee args type builtin]
  | .range loc bound => bound.visited host ρ ++ [.range loc bound]

/-- Evaluation from left to right, up to the first expression that gets stuck. -/
def Expr.visitedList (host : Host) (ρ : Scopes Variable) : List Expr → List Expr
  | [] => []
  | e :: es =>
    e.visited host ρ ++ if (e.value? host ρ).isSome then Expr.visitedList host ρ es else []

def Segment.visitedList (host : Host) (ρ : Scopes Variable) : List Segment → List Expr
  | [] => []
  | .text _ :: ss => Segment.visitedList host ρ ss
  | .embedded e :: ss =>
    e.visited host ρ ++ if (e.value? host ρ).isSome then Segment.visitedList host ρ ss else []

end

/-! ## Actions -/

/-- Something that happens in a run. -/
inductive Event where
  | evaluated (e : Expr) (outcome : Option Value)
  | stored (x : Bytes) (content : Variable)
  | printed (value : Value)

/-- How a run ends: what follows is run, the innermost loop is left, the run is stuck, or a loop has
not come to its end. -/
inductive Ending where
  | next
  | leave
  | stuck
  | unfinished
deriving DecidableEq

/-- How a run ends, with the variables then and all that has happened. -/
structure Trace where
  ending : Ending
  frames : Scopes Variable
  events : List Event

/-- What a part of a program does. -/
abbrev Action := Scopes Variable → Trace

namespace Action

/-- Nothing more is done. -/
def stop (ending : Ending) : Action := fun ρ => ⟨ending, ρ, []⟩

def skip : Action := stop .next

/-- Something has happened before. -/
def note (events : List Event) (c : Action) : Action := fun ρ =>
  { c ρ with events := events ++ (c ρ).events }

/-- The second action is done if the first comes to its end. -/
def andThen (c d : Action) : Action := fun ρ =>
  if (c ρ).ending = .next then d.note (c ρ).events (c ρ).frames else c ρ

/-- Evaluate an expression and go on with its value. -/
def evaluate (host : Host) (e : Expr) (go : Value → Action) : Action := fun ρ =>
  note ((e.visited host ρ).map fun part => .evaluated part (part.value? host ρ))
    ((e.value? host ρ).elim (stop .stuck) go) ρ

/-- Declare a variable in the innermost scope. -/
def declare (x : Bytes) (content : Variable) : Action := fun ρ =>
  ⟨.next, Scopes.bind x content ρ, [.stored x content]⟩

/-- Give a variable another value. -/
def assign (x : Bytes) (v : Value) : Action := fun ρ =>
  match Scopes.lookup? ρ x with
  | some old => ⟨.next, Scopes.assign x ⟨old.type, v⟩ ρ, [.stored x ⟨old.type, v⟩]⟩
  | none => stop .stuck ρ

/-- An action with a scope of its own. -/
def inScope (f : List (Bytes × Variable)) (c : Action) : Action := fun ρ =>
  { c (f :: ρ) with frames := (c (f :: ρ)).frames.tail }

/-- Count up from a number, with the body done for every number, as long as a test is met. -/
def count (more : Number → Bool) (body : Number → Action) : Nat → Number → Action
  | 0, i => if more i then stop .unfinished else skip
  | fuel + 1, i =>
    if more i then (body i).andThen (count more body fuel (i.add (.ofNat 1))) else skip

/-- A loop is left: what follows it is run. -/
def caught (c : Action) : Action := fun ρ =>
  { c ρ with ending := if (c ρ).ending = .leave then .next else (c ρ).ending }

/-- The body of a loop for one number. -/
def iteration (counter : Identifier) (body : Action) (i : Number) : Action :=
  inScope [(counter.name, ⟨counter.type, .number i⟩)]
    (body.note [.stored counter.name ⟨counter.type, .number i⟩])

end Action

/-! ## Statements -/

mutual

/-- Run a statement, with at most `fuel` iterations of every loop. Functions are not run. -/
def Stmt.trace (host : Host) (fuel : Nat) : Stmt → Action
  | .block _ body => .inScope [] (Stmt.traceList host fuel body)
  | .assign _ target value declares =>
    .evaluate host value fun v =>
      if declares then .declare target.name ⟨target.type, v⟩ else .assign target.name v
  | .print _ value => .evaluate host value fun v => .note [.printed v] .skip
  | .branch _ condition _ thenBody alternate =>
    .evaluate host condition fun v =>
      if v.truthy then .inScope [] (Stmt.traceList host fuel thenBody) else alternate.trace host fuel
  | .loop _ counter rangeLoc bound _ body =>
    .evaluate host (.range rangeLoc bound) fun limit =>
      .caught (.count (fun i => Value.less host (.number i) limit)
        (.iteration counter (Stmt.traceList host fuel body)) fuel (.zero false))
  | .leave _ => .stop .leave
  | .comment .. => .skip
  | .expression _ value => .evaluate host value fun _ => .skip
  | .function .. | .serve .. => .stop .stuck

def Alternate.trace (host : Host) (fuel : Nat) : Alternate → Action
  | .none => .skip
  | .block _ body => .inScope [] (Stmt.traceList host fuel body)
  | .branch _ condition _ thenBody alternate =>
    .evaluate host condition fun v =>
      if v.truthy then .inScope [] (Stmt.traceList host fuel thenBody) else alternate.trace host fuel

def Stmt.traceList (host : Host) (fuel : Nat) : List Stmt → Action
  | [] => .skip
  | s :: ss => (s.trace host fuel).andThen (Stmt.traceList host fuel ss)

end

/-- The variables before a program is run: the built-in functions. -/
def startVariables : Scopes Variable := startFrames.mapValues fun v => ⟨v.type, v⟩

/-- The run of a program, with at most `fuel` iterations of every loop. -/
def Program.trace (host : Host) (fuel : Nat) (p : Program) : Trace :=
  Stmt.traceList host fuel p.statements startVariables

/-! ## Traces and runs -/

section Evaluation

variable {w : World} {ρ : Scopes Variable}

mutual

/-- A checked evaluation gives the value of the expression, and makes no calls. -/
theorem Expr.eval_of_value? (hw : ∀ x c, Scopes.lookup? ρ x = some c → w.values x = c.value) :
    (e : Expr) → {v : Value} → e.value? w.host ρ = some v → ∀ calls, e.eval w calls = (v, calls)
  | .number .., _, h, _ | .string .., _, h, _ | .boolean .., _, h, _ => by
    cases h
    rfl
  | .interpolated _ segments, _, h, calls => by
    obtain ⟨text, htext, rfl⟩ := Option.map_eq_some_iff.mp h
    rw [Expr.eval_interpolated, Segment.evalList_of_text? hw segments htext]
  | .identifier id, _, h, calls => by
    obtain ⟨c, hc, rfl⟩ := Option.map_eq_some_iff.mp h
    rw [Expr.eval, hw _ c hc]
  | .binary loc op left right type, _, h, calls => by
    obtain ⟨v, hv, h⟩ := Option.bind_eq_some_iff.mp h
    have hleft := left.eval_of_value? hw hv
    split at h
    · -- the right operand is not evaluated
      rename_i hdecided
      unfold BinaryOp.decided? at h
      split at h
      · cases h
        rw [Expr.eval_decided _ _ _ _ _ (by rw [hleft calls]; exact hdecided), hleft]
      · cases h
    · rename_i hdecided
      obtain ⟨u, hu, h⟩ := Option.bind_eq_some_iff.mp h
      have hright := right.eval_of_value? hw hu
      unfold BinaryOp.checked at h
      split at h
      · cases h
        rw [Expr.eval_binary _ _ _ _ _ (by rw [hleft calls]; simpa using hdecided), hleft, hright]
      · cases h
  | .compare _ op left right, _, h, calls => by
    obtain ⟨v, hv, h⟩ := Option.bind_eq_some_iff.mp h
    obtain ⟨u, hu, h⟩ := Option.bind_eq_some_iff.mp h
    unfold CompareOp.checked at h
    split at h
    · cases h
      rw [Expr.eval_compare, left.eval_of_value? hw hv, right.eval_of_value? hw hu]
    · cases h
  | .unary _ op operand _, _, h, calls => by
    obtain ⟨v, hv, h⟩ := Option.bind_eq_some_iff.mp h
    unfold UnaryOp.checked at h
    split at h
    · cases h
      rw [Expr.eval_unary, operand.eval_of_value? hw hv]
    · cases h
  | .call _ callee args _ builtin, _, h, calls => by
    unfold Expr.value? at h
    split at h
    · rename_i hbuiltin
      obtain ⟨f, -, h⟩ := Option.bind_eq_some_iff.mp h
      obtain ⟨vs, hvs, h⟩ := Option.bind_eq_some_iff.mp h
      unfold checkedBuiltin at h
      split at h
      · cases h
        rw [Expr.eval_call, if_pos hbuiltin, Expr.evalList_of_values? hw args hvs]
      · cases h
    · cases h
  | .range _ bound, _, h, calls => by
    obtain ⟨v, hv, h⟩ := Option.bind_eq_some_iff.mp h
    unfold limit? at h
    split at h
    · cases h
      exact bound.eval_of_value? hw hv calls
    · cases h

theorem Expr.evalList_of_values? (hw : ∀ x c, Scopes.lookup? ρ x = some c → w.values x = c.value) :
    (es : List Expr) → {vs : List Value} → Expr.values? w.host ρ es = some vs →
      ∀ calls, Expr.evalList w es calls = (vs, calls)
  | [], _, h, _ => by
    cases h
    rfl
  | e :: es, _, h, calls => by
    obtain ⟨v, hv, h⟩ := Option.bind_eq_some_iff.mp h
    obtain ⟨vs, hvs, rfl⟩ := Option.map_eq_some_iff.mp h
    rw [Expr.evalList_cons, e.eval_of_value? hw hv, Expr.evalList_of_values? hw es hvs]

theorem Segment.evalList_of_text? (hw : ∀ x c, Scopes.lookup? ρ x = some c → w.values x = c.value) :
    (ss : List Segment) → {text : Bytes} → Segment.text? w.host ρ ss = some text →
      ∀ calls, Segment.evalList w ss calls = (text, calls)
  | [], _, h, _ => by
    cases h
    rfl
  | .text t :: ss, _, h, calls => by
    obtain ⟨rest, hrest, rfl⟩ := Option.map_eq_some_iff.mp h
    rw [Segment.evalList_cons, Segment.eval, Segment.evalList_of_text? hw ss hrest]
  | .embedded e :: ss, _, h, calls => by
    obtain ⟨v, hv, h⟩ := Option.bind_eq_some_iff.mp h
    obtain ⟨rest, hrest, rfl⟩ := Option.map_eq_some_iff.mp h
    simp only [Segment.evalList_cons, Segment.eval, e.eval_of_value? hw hv,
      Segment.evalList_of_text? hw ss hrest]

end

end Evaluation

/-- The values of the variables. -/
def Scopes.values (ρ : Scopes Variable) : Scopes Value := ρ.mapValues (·.value)

def Event.printed? : Event → Option Value
  | .printed v => some v
  | _ => none

/-- What is printed. -/
def printedValues (events : List Event) : List Value := events.filterMap Event.printed?

/-- How a run goes on that has come to its end. -/
def Ending.flow? : Ending → Option Flow
  | .next => some .next
  | .leave => some .leave
  | .stuck | .unfinished => none

/-- What a run has done, if it has come to its end. -/
def Trace.effect? (t : Trace) : Option Effect :=
  t.ending.flow?.map (⟨·, t.frames.values, printedValues t.events⟩)

theorem valueIn_of_value? {host : Host} {ρ : Scopes Variable} {e : Expr} {v : Value}
    (h : e.value? host ρ = some v) : (Evaluator.standard host).valueIn ρ.values e = v := by
  have hvalues (x : Bytes) (c : Variable) (hx : Scopes.lookup? ρ x = some c) :
      (Scopes.lookup? ρ.values x).getD .undefined = c.value := by
    rw [Scopes.values, Scopes.lookup?_mapValues, hx]
    rfl
  exact congrArg Prod.fst (e.eval_of_value?
    (w := ⟨host, fun x => (Scopes.lookup? ρ.values x).getD .undefined, fun _ => .undefined⟩)
    hvalues h [])

/-- With these variables, the action is stuck or does what the command does. -/
def Action.TellsAt (c : Action) (d : Command) (ρ : Scopes Variable) : Prop :=
  (c ρ).ending ≠ .stuck → d ρ.values = (c ρ).effect?

/-- The action is stuck or does what the command does. -/
def Action.Tells (c : Action) (d : Command) : Prop := ∀ ρ, c.TellsAt d ρ

namespace Action.Tells

variable {c c' : Action} {d d' : Command} {host : Host} {ρ : Scopes Variable}

theorem skip : Action.skip.Tells .skip := fun _ _ => rfl

/-- Events that print nothing. -/
theorem note {events : List Event} (h : c.TellsAt d ρ) (hevents : printedValues events = []) :
    (c.note events).TellsAt d ρ := by
  intro hstuck
  have hprinted : printedValues ((c.note events) ρ).events = printedValues (c ρ).events := by
    unfold Action.note printedValues at *
    rw [List.filterMap_append, hevents, List.nil_append]
  rw [h hstuck, Trace.effect?, Trace.effect?, hprinted]
  rfl

theorem andThen (h : c.Tells d) (h' : c'.Tells d') : (c.andThen c').Tells (d.andThen d') := by
  intro ρ hstuck
  unfold Action.andThen at hstuck ⊢
  split at hstuck <;> rename_i hnext
  · rw [if_pos hnext]
    have hfirst := h ρ (by rw [hnext]; decide)
    have hsecond := h' _ hstuck
    rw [Command.andThen, hfirst, Trace.effect?, hnext]
    simp only [Ending.flow?, Option.map_some, Option.bind_some, hsecond]
    simp [Trace.effect?, Action.note, printedValues, Function.comp_def]
  · rw [if_neg hnext]
    have hfirst := h ρ hstuck
    rw [Command.andThen, hfirst, Trace.effect?]
    cases hending : (c ρ).ending with
    | next => exact absurd hending hnext
    | leave => rfl
    | stuck => rfl
    | unfinished => rfl

/-- The value of an expression decides how it goes on. -/
theorem evaluate {e : Expr} {go : Value → Action}
    (h : ∀ ρ v, (Evaluator.standard host).valueIn ρ.values e = v → (go v).TellsAt d ρ) :
    (Action.evaluate host e go).Tells d := by
  intro ρ
  have hsilent : printedValues ((e.visited host ρ).map fun part =>
      .evaluated part (part.value? host ρ)) = [] := by
    simp [printedValues, Event.printed?]
  cases hv : e.value? host ρ with
  | none =>
    intro hstuck
    simp only [Action.evaluate, hv] at hstuck
    exact absurd rfl hstuck
  | some v =>
    intro hstuck
    simp only [Action.evaluate, hv] at hstuck ⊢
    exact note (h ρ v (valueIn_of_value? hv)) hsilent hstuck

theorem assign (x : Bytes) (v : Value) :
    (Action.assign x v).Tells fun ρ => some ⟨.next, Scopes.assign x v ρ, []⟩ := by
  intro ρ hstuck
  unfold Action.assign at hstuck ⊢
  cases hx : Scopes.lookup? ρ x with
  | none =>
    rw [hx] at hstuck
    exact absurd rfl hstuck
  | some old =>
    simp [Trace.effect?, Ending.flow?, Scopes.values, Scopes.mapValues_assign, printedValues,
      Event.printed?]

theorem inScope {s : List (Bytes × Variable)} {f : List (Bytes × Value)} (h : c.Tells d)
    (hf : (s.map fun p => (p.1, p.2.value)) = f) : (c.inScope s).Tells (d.inScope f) := by
  intro ρ hstuck
  have hinner := h (s :: ρ) hstuck
  have hvalues : Scopes.values (s :: ρ) = f :: ρ.values := congrArg (· :: ρ.values) hf
  rw [hvalues] at hinner
  rw [Command.inScope, hinner]
  simp [Trace.effect?, Action.inScope, Scopes.values, Scopes.mapValues, Function.comp_def]

theorem iteration (counter : Identifier) (h : c.Tells d) (i : Number) :
    (Action.iteration counter c i).Tells (d.inScope [(counter.name, .number i)]) :=
  inScope (fun ρ => note (h ρ) rfl) rfl

theorem count {more : Number → Bool} {body : Number → Action} {body' : Number → Command}
    (h : ∀ i, (body i).Tells (body' i)) (fuel : Nat) (i : Number) :
    (Action.count more body fuel i).Tells (.count more body' fuel i) := by
  induction fuel generalizing i with
  | zero =>
    unfold Action.count Command.count
    split
    · exact fun ρ _ => rfl
    · exact skip
  | succ fuel ih =>
    unfold Action.count Command.count
    split
    · exact (h i).andThen (ih _)
    · exact skip

theorem caught (h : c.Tells d) : c.caught.Tells d.caught := by
  intro ρ hstuck
  have hinner : (c ρ).ending ≠ .stuck := by
    intro hending
    simp [Action.caught, hending] at hstuck
  rw [Command.caught, h ρ hinner, Trace.effect?, Trace.effect?, Action.caught]
  cases hending : (c ρ).ending <;> rfl

/-- A conditional goes on with one of two actions. -/
theorem choose {condition : Expr} (h : c.Tells d) (h' : c'.Tells d') :
    (Action.evaluate host condition fun v => if v.truthy then c else c').Tells
      (.choose ((Evaluator.standard host).holds condition) d d') := by
  refine evaluate fun ρ v hv hstuck => ?_
  rw [Command.choose, Evaluator.holds, hv]
  split at hstuck
  · rename_i htrue
    rw [if_pos htrue, if_pos htrue]
    exact h ρ hstuck
  · rename_i htrue
    rw [if_neg htrue, if_neg htrue]
    exact h' ρ hstuck

end Action.Tells

mutual

theorem Stmt.trace_tells (host : Host) (fuel : Nat) :
    (s : Stmt) → (s.trace host fuel).Tells (s.run (.standard host) fuel)
  | .block _ body => .inScope (Stmt.traceList_tells host fuel body) rfl
  | .assign _ target value true => .evaluate fun ρ v hv _ => by
    simp only [Stmt.run, hv]
    simp [Trace.effect?, Ending.flow?, Action.declare, Scopes.values, Scopes.mapValues_bind,
      printedValues, Event.printed?]
  | .assign _ target value false => .evaluate fun ρ v hv hstuck => by
    simp only [Stmt.run, hv]
    exact Action.Tells.assign target.name v ρ hstuck
  | .print _ value => .evaluate fun ρ v hv _ => by
    simp only [Stmt.run, hv]
    rfl
  | .branch _ _ _ thenBody alternate =>
    .choose (.inScope (Stmt.traceList_tells host fuel thenBody) rfl)
      (alternate.trace_tells host fuel)
  | .loop _ counter rangeLoc bound _ body => .evaluate fun ρ v hv hstuck => by
    have hbound : (Evaluator.standard host).valueIn ρ.values bound = v := hv
    rw [Stmt.run_loop, hbound]
    exact (Action.Tells.count (.iteration counter (Stmt.traceList_tells host fuel body)) fuel
      (.zero false)).caught ρ hstuck
  | .leave _ => fun _ _ => rfl
  | .comment .. => .skip
  | .expression .. => .evaluate fun ρ _ _ => Action.Tells.skip ρ
  | .function .. | .serve .. => fun _ hstuck => absurd rfl hstuck

theorem Alternate.trace_tells (host : Host) (fuel : Nat) :
    (a : Alternate) → (a.trace host fuel).Tells (a.run (.standard host) fuel)
  | .none => .skip
  | .block _ body => .inScope (Stmt.traceList_tells host fuel body) rfl
  | .branch _ _ _ thenBody alternate =>
    .choose (.inScope (Stmt.traceList_tells host fuel thenBody) rfl)
      (alternate.trace_tells host fuel)

theorem Stmt.traceList_tells (host : Host) (fuel : Nat) :
    (ss : List Stmt) → (Stmt.traceList host fuel ss).Tells (Stmt.runList (.standard host) fuel ss)
  | [] => .skip
  | s :: ss => (s.trace_tells host fuel).andThen (Stmt.traceList_tells host fuel ss)

end

/-- A trace that is not stuck tells the run of the program. -/
theorem Program.run_eq_effect? {host : Host} {fuel : Nat} {p : Program}
    (h : (p.trace host fuel).ending ≠ .stuck) :
    Stmt.runList (.standard host) fuel p.statements startFrames = (p.trace host fuel).effect? :=
  Stmt.traceList_tells host fuel p.statements startVariables h

end Roar
