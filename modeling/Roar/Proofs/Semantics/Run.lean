import Roar.Proofs.Scoping.References
import Roar.Proofs.Semantics.Eval

/-!
# Runs

What a program without functions does when it is run: it keeps the values of its variables in a
chain of scopes and prints values. The evaluation of expressions is left open (`Evaluator`); it has
no side effects and reads the values of the names in an expression only.

A statement is run as a `Command`, put together from a few combinators. A loop may go on for ever,
so a run is given the number of iterations that a loop may take at most, and gives nothing if one
takes more; `Program.Prints` says what a program prints if this number does not matter.

* `Stmt.run_extends`: a run adds the declared names to the innermost scope and no others.
* `Program.Prints.unique`: a program has one output at most.
-/

namespace Roar

/-- A way to evaluate expressions, given the values of names. -/
structure Evaluator where
  host : Host
  eval : (Bytes → Option Value) → Expr → Value
  number : ∀ env loc x, eval env (.number loc x) = .number x
  string : ∀ env loc s, eval env (.string loc s) = .string s
  boolean : ∀ env loc b, eval env (.boolean loc b) = .boolean b
  identifier : ∀ env id v, env id.name = some v → eval env (.identifier id) = v
  /-- Other names than those in the expression do not matter. -/
  reads : ∀ env env' e, (∀ x ∈ e.names, env x = env' x) → eval env e = eval env' e
  /-- Values differ where they are not equal. -/
  differ : ∀ env loc left right, (eval env (.compare loc .ne left right)).truthy =
    !(eval env (.compare loc .eq left right)).truthy

namespace Evaluator

variable (ev : Evaluator)

/-- The value of an expression in a chain of scopes. -/
def valueIn (ρ : Scopes Value) (e : Expr) : Value := ev.eval (Scopes.lookup? ρ) e

/-- A condition is met. -/
def holds (condition : Expr) (ρ : Scopes Value) : Bool := (ev.valueIn ρ condition).truthy

/-- A counter is below the limit of its loop. -/
def below (limit : Value) (i : Number) : Bool := Value.less ev.host (.number i) limit

end Evaluator

/-! ## Evaluation as in the output -/

section Standard

mutual

/-- The value of an expression depends on the names in it only. -/
theorem Expr.eval_congr {w : World} {values : Bytes → Value} :
    (e : Expr) → (∀ r ∈ e.references, w.values r.name = values r.name) → ∀ calls,
      e.eval w calls = e.eval { w with values } calls
  | .number .., _, _ | .string .., _, _ | .boolean .., _, _ => rfl
  | .interpolated _ segments, h, calls => by
    rw [Expr.eval_interpolated, Expr.eval_interpolated, Segment.evalList_congr segments h]
  | .identifier id, h, calls => by
    rw [Expr.eval, Expr.eval, h _ (List.mem_singleton_self _)]
  | .binary _ op left right _, h, calls => by
    have hright := right.eval_congr fun r hr => h r (List.mem_append_right _ hr)
    simp only [Expr.eval, left.eval_congr fun r hr => h r (List.mem_append_left _ hr), hright]
  | .compare _ _ left right, h, calls => by
    have hright := right.eval_congr fun r hr => h r (List.mem_append_right _ hr)
    simp only [Expr.eval, left.eval_congr fun r hr => h r (List.mem_append_left _ hr), hright]
  | .unary _ _ operand _, h, calls => by
    rw [Expr.eval_unary, Expr.eval_unary, operand.eval_congr h]
  | .call _ _ args _ _, h, calls => by
    rw [Expr.eval_call, Expr.eval_call,
      Expr.evalList_congr args fun r hr => h r (List.mem_append_right _ hr)]
  | .range _ bound, h, calls => bound.eval_congr h calls

theorem Expr.evalList_congr {w : World} {values : Bytes → Value} :
    (es : List Expr) → (∀ r ∈ Expr.referencesList es, w.values r.name = values r.name) →
      ∀ calls, Expr.evalList w es calls = Expr.evalList { w with values } es calls
  | [], _, _ => rfl
  | e :: es, h, calls => by
    have hrest := Expr.evalList_congr es fun r hr => h r (List.mem_append_right _ hr)
    simp only [Expr.evalList, e.eval_congr fun r hr => h r (List.mem_append_left _ hr), hrest]

theorem Segment.eval_congr {w : World} {values : Bytes → Value} :
    (s : Segment) → (∀ r ∈ s.references, w.values r.name = values r.name) → ∀ calls,
      s.eval w calls = s.eval { w with values } calls
  | .text _, _, _ => rfl
  | .embedded e, h, calls => by simp only [Segment.eval, e.eval_congr h]

theorem Segment.evalList_congr {w : World} {values : Bytes → Value} :
    (ss : List Segment) → (∀ r ∈ Segment.referencesList ss, w.values r.name = values r.name) →
      ∀ calls, Segment.evalList w ss calls = Segment.evalList { w with values } ss calls
  | [], _, _ => rfl
  | s :: ss, h, calls => by
    have hrest := Segment.evalList_congr ss fun r hr => h r (List.mem_append_right _ hr)
    simp only [Segment.evalList, s.eval_congr fun r hr => h r (List.mem_append_left _ hr), hrest]

end

/-- Expressions are evaluated with the operators of the output. A name without a value is
undefined, and so is what a function of the program gives. -/
def Evaluator.standard (host : Host) : Evaluator where
  host := host
  eval env e := (e.eval ⟨host, fun x => (env x).getD .undefined, fun _ => .undefined⟩ []).1
  number _ _ _ := rfl
  string _ _ _ := rfl
  boolean _ _ _ := rfl
  identifier env id v h := by simp [Expr.eval, h]
  reads env env' e h := by
    refine congrArg Prod.fst (e.eval_congr (fun r hr => ?_) [])
    exact congrArg (·.getD .undefined) (h r.name (List.mem_map_of_mem hr))
  differ env loc left right := rfl

end Standard

/-! ## Commands -/

/-- How a command ends: what follows is run, the innermost loop is left, or the function is. -/
inductive Flow where
  | next
  | leave
  | serve
deriving DecidableEq

/-- How a command ends, with the values of the variables and what it has printed. -/
structure Effect where
  flow : Flow
  frames : Scopes Value
  printed : List Value
deriving DecidableEq

/-- What a part of a program does to the values of the variables. It gives nothing if it takes too
long. -/
abbrev Command := Scopes Value → Option Effect

namespace Command

def skip : Command := fun ρ => some ⟨.next, ρ, []⟩

/-- The second command is run if the first does not leave. -/
def andThen (c d : Command) : Command := fun ρ =>
  (c ρ).bind fun o =>
    match o.flow with
    | .next => (d o.frames).map fun o' => { o' with printed := o.printed ++ o'.printed }
    | _ => some o

/-- A command with a scope of its own. -/
def inScope (f : List (Bytes × Value)) (c : Command) : Command := fun ρ =>
  (c (f :: ρ)).map fun o => { o with frames := o.frames.tail }

def choose (test : Scopes Value → Bool) (c d : Command) : Command := fun ρ =>
  if test ρ then c ρ else d ρ

/-- Count up from a number, with the body run for every number, as long as a test is met. -/
def count (more : Number → Bool) (body : Number → Command) : Nat → Number → Command
  | 0, i => if more i then fun _ => none else skip
  | fuel + 1, i => if more i then (body i).andThen (count more body fuel (i.add (.ofNat 1))) else skip

/-- A loop is left: what follows it is run. -/
def caught (c : Command) : Command := fun ρ =>
  (c ρ).map fun o => { o with flow := if o.flow = .leave then .next else o.flow }

theorem skip_andThen (c : Command) : skip.andThen c = c := by
  funext ρ
  cases h : c ρ <;> simp [andThen, skip, h]

theorem andThen_skip (c : Command) : c.andThen skip = c := by
  funext ρ
  cases h : c ρ with
  | none => simp [andThen, h]
  | some o =>
    obtain ⟨flow, frames, printed⟩ := o
    cases flow <;> simp [andThen, skip, h]

theorem andThen_assoc (a b c : Command) : (a.andThen b).andThen c = a.andThen (b.andThen c) := by
  funext ρ
  unfold andThen
  cases a ρ with
  | none => rfl
  | some o =>
    obtain ⟨flow, frames, printed⟩ := o
    cases flow with
    | leave | serve => rfl
    | next =>
      simp only [Option.bind_some]
      cases b frames with
      | none => rfl
      | some o =>
        obtain ⟨flow, frames', printed'⟩ := o
        cases flow with
        | leave | serve => rfl
        | next => cases h : c frames' <;> simp [h]

end Command

/-! ## Statements -/

mutual

/-- Run a statement, with at most `fuel` iterations of every loop. -/
def Stmt.run (ev : Evaluator) (fuel : Nat) : Stmt → Command
  | .block _ body => .inScope [] (Stmt.runList ev fuel body)
  | .assign _ target value declares => fun ρ =>
    let v := ev.valueIn ρ value
    let ρ := if declares then Scopes.bind target.name v ρ else Scopes.assign target.name v ρ
    some ⟨.next, ρ, []⟩
  | .print _ value => fun ρ => some ⟨.next, ρ, [ev.valueIn ρ value]⟩
  | .function _ name _ _ _ _ => fun ρ => some ⟨.next, Scopes.bind name (.function name) ρ, []⟩
  | .serve _ _ => fun ρ => some ⟨.serve, ρ, []⟩
  | .branch _ condition _ thenBody alternate =>
    .choose (ev.holds condition) (.inScope [] (Stmt.runList ev fuel thenBody))
      (alternate.run ev fuel)
  | .loop _ counter _ bound _ body => fun ρ =>
    -- the bound is evaluated once, before the first iteration
    Command.caught (.count (ev.below (ev.valueIn ρ bound))
      (fun i => .inScope [(counter.name, .number i)] (Stmt.runList ev fuel body)) fuel
      (.zero false)) ρ
  | .leave _ => fun ρ => some ⟨.leave, ρ, []⟩
  | .comment .. | .expression .. => .skip

/-- Run what is done when a condition is false. -/
def Alternate.run (ev : Evaluator) (fuel : Nat) : Alternate → Command
  | .none => .skip
  | .block _ body => .inScope [] (Stmt.runList ev fuel body)
  | .branch _ condition _ thenBody alternate =>
    .choose (ev.holds condition) (.inScope [] (Stmt.runList ev fuel thenBody))
      (alternate.run ev fuel)

/-- Run statements one after the other. -/
def Stmt.runList (ev : Evaluator) (fuel : Nat) : List Stmt → Command
  | [] => .skip
  | s :: ss => (s.run ev fuel).andThen (Stmt.runList ev fuel ss)

end

/-- The values of the names before a program is run. -/
def startFrames : Scopes Value := [[], builtinNames.map fun x => (x, .function x)]

/-- The program terminates and prints the values. -/
def Program.Prints (ev : Evaluator) (p : Program) (printed : List Value) : Prop :=
  ∃ fuel o, Stmt.runList ev fuel p.statements startFrames = some o ∧ o.printed = printed

section Equations

variable {ev : Evaluator} {fuel : Nat}

theorem Stmt.run_loop (loc : Location) (counter : Identifier) (rangeLoc : Location) (bound : Expr)
    (bodyLoc : Location) (body : List Stmt) (ρ : Scopes Value) :
    (Stmt.loop loc counter rangeLoc bound bodyLoc body).run ev fuel ρ =
      Command.caught (.count (ev.below (ev.valueIn ρ bound))
        (fun i => .inScope [(counter.name, .number i)] (Stmt.runList ev fuel body)) fuel
        (.zero false)) ρ := rfl

theorem Stmt.runList_singleton (s : Stmt) : Stmt.runList ev fuel [s] = s.run ev fuel :=
  Command.andThen_skip _

theorem Stmt.runList_append (ss ts : List Stmt) :
    Stmt.runList ev fuel (ss ++ ts) =
      (Stmt.runList ev fuel ss).andThen (Stmt.runList ev fuel ts) := by
  induction ss with
  | nil => exact (Command.skip_andThen _).symm
  | cons s ss ih => rw [List.cons_append, Stmt.runList, ih, Stmt.runList, Command.andThen_assoc]

end Equations

/-! ## What a run does to names -/

namespace Command

variable {c d : Command} {ρ : Scopes Value} {o : Effect} {Γ Δ Θ : Scopes Declaration}

/-- A pair of commands ends where the first one leaves, or else where the second one ends. -/
theorem andThen_eq_some (h : c.andThen d ρ = some o) :
    ∃ o₁, c ρ = some o₁ ∧
      (o₁.flow ≠ .next ∧ o = o₁ ∨
        o₁.flow = .next ∧ ∃ o₂, d o₁.frames = some o₂ ∧
          o = { o₂ with printed := o₁.printed ++ o₂.printed }) := by
  obtain ⟨o₁, h₁, h⟩ := Option.bind_eq_some_iff.mp h
  refine ⟨o₁, h₁, ?_⟩
  split at h
  · rename_i hf
    obtain ⟨o₂, h₂, rfl⟩ := Option.map_eq_some_iff.mp h
    exact .inr ⟨hf, o₂, h₂, rfl⟩
  · rename_i hf
    exact .inl ⟨hf, (Option.some.inj h).symm⟩

theorem andThen_of_next {o₁ o₂ : Effect} (h₁ : c ρ = some o₁) (hf : o₁.flow = .next)
    (h₂ : d o₁.frames = some o₂) :
    c.andThen d ρ = some { o₂ with printed := o₁.printed ++ o₂.printed } := by
  simp [andThen, h₁, hf, h₂]

theorem andThen_of_ne_next {o₁ : Effect} (h₁ : c ρ = some o₁) (hf : o₁.flow ≠ .next) :
    c.andThen d ρ = some o₁ := by
  unfold andThen
  rw [h₁, Option.bind_some]
  split
  · contradiction
  · rfl

/-- From scopes with the names of `Γ`, the command comes to scopes with the names of `Δ`. If it
leaves, it has done this for a part of the innermost scope only. -/
def Extends (Γ Δ : Scopes Declaration) (c : Command) : Prop :=
  ∀ ρ o, c ρ = some o → Scopes.names ρ = Scopes.names Γ →
    Scopes.names o.frames.tail = Scopes.names Γ.tail ∧
      (o.flow = .next → Scopes.names o.frames = Scopes.names Δ)

/-- The names of the scopes are the same after the command, however it ends. -/
def KeepsNames (Γ : Scopes Declaration) (c : Command) : Prop :=
  ∀ ρ o, c ρ = some o → Scopes.names ρ = Scopes.names Γ → Scopes.names o.frames = Scopes.names Γ

theorem KeepsNames.extends (h : c.KeepsNames Γ) : c.Extends Γ Γ := by
  intro ρ o ho hρ
  have hnames := h ρ o ho hρ
  exact ⟨Scopes.names_tail hnames, fun _ => hnames⟩

theorem keepsNames_skip : skip.KeepsNames Γ := by
  rintro ρ o ⟨⟩ hρ
  exact hρ

/-- A declaration adds its name. -/
theorem extends_bind (value : Scopes Value → Value) (d : Declaration) :
    Extends Γ (Scopes.bind d.name d Γ)
      fun ρ => some ⟨.next, Scopes.bind d.name (value ρ) ρ, []⟩ := by
  rintro ρ o ⟨⟩ hρ
  refine ⟨?_, fun _ => Scopes.names_bind d.name (value ρ) d hρ⟩
  rw [← Scopes.names_tail hρ]
  cases ρ <;> rfl

theorem Extends.andThen (hc : c.Extends Γ Δ) (hd : d.Extends Δ Θ) :
    (c.andThen d).Extends Γ Θ := by
  intro ρ o h hρ
  obtain ⟨o₁, h₁, ⟨hf, rfl⟩ | ⟨hf, o₂, h₂, rfl⟩⟩ := andThen_eq_some h
  · exact ⟨(hc ρ o h₁ hρ).1, fun hn => absurd hn hf⟩
  · obtain ⟨htail, hnext⟩ := hc ρ o₁ h₁ hρ
    obtain ⟨htail', hnext'⟩ := hd o₁.frames o₂ h₂ (hnext hf)
    exact ⟨htail'.trans ((Scopes.names_tail (hnext hf)).symm.trans htail), hnext'⟩

/-- What is done in a scope of its own leaves no names behind. -/
theorem Extends.inScope {f : List (Bytes × Value)} {g : List (Bytes × Declaration)}
    (hc : c.Extends (g :: Γ) Δ) (hf : f.map (·.1) = g.map (·.1)) : (c.inScope f).KeepsNames Γ := by
  intro ρ o h hρ
  obtain ⟨o₁, h₁, rfl⟩ := Option.map_eq_some_iff.mp h
  exact (hc _ o₁ h₁ (Scopes.names_cons hf hρ)).1

theorem KeepsNames.choose {test : Scopes Value → Bool} (hc : c.KeepsNames Γ)
    (hd : d.KeepsNames Γ) : (choose test c d).KeepsNames Γ := by
  intro ρ o h
  unfold Command.choose at h
  split at h
  · exact hc ρ o h
  · exact hd ρ o h

theorem KeepsNames.andThen (hc : c.KeepsNames Γ) (hd : d.KeepsNames Γ) :
    (c.andThen d).KeepsNames Γ := by
  intro ρ o h hρ
  obtain ⟨o₁, h₁, ⟨-, rfl⟩ | ⟨-, o₂, h₂, rfl⟩⟩ := andThen_eq_some h
  · exact hc ρ o h₁ hρ
  · exact hd o₁.frames o₂ h₂ (hc ρ o₁ h₁ hρ)

theorem KeepsNames.count {more : Number → Bool} {body : Number → Command}
    (hb : ∀ i, (body i).KeepsNames Γ) (fuel : Nat) (i : Number) :
    (count more body fuel i).KeepsNames Γ := by
  induction fuel generalizing i with
  | zero =>
    rw [Command.count]
    split
    · intro ρ o h
      cases h
    · exact keepsNames_skip
  | succ fuel ih =>
    rw [Command.count]
    split
    · exact (hb i).andThen (ih _)
    · exact keepsNames_skip

theorem KeepsNames.caught (hc : c.KeepsNames Γ) : c.caught.KeepsNames Γ := by
  intro ρ o h
  obtain ⟨o₁, h₁, rfl⟩ := Option.map_eq_some_iff.mp h
  exact hc ρ o₁ h₁

end Command

section Names

variable {ev : Evaluator} {fuel : Nat}

mutual

/-- A run of a statement adds the name that it declares. -/
theorem Stmt.run_extends (Γ : Scopes Declaration) :
    (s : Stmt) → (s.run ev fuel).Extends Γ (s.extend Γ)
  | .block _ body => ((Stmt.runList_extends ([] :: Γ) body).inScope rfl).extends
  | .assign _ target value true =>
    Command.extends_bind (ev.valueIn · value) ⟨.assigned, target.name, target.loc⟩
  | .assign _ target value false => by
    rintro ρ o ⟨⟩ hρ
    have hassign := (Scopes.names_assign target.name (ev.valueIn ρ value) ρ).trans hρ
    exact ⟨Scopes.names_tail hassign, fun _ => hassign⟩
  | .function loc name _ _ _ _ =>
    Command.extends_bind (fun _ => .function name) ⟨.function, name, loc⟩
  | .branch _ _ _ thenBody alternate =>
    (((Stmt.runList_extends ([] :: Γ) thenBody).inScope rfl).choose
      (alternate.run_keepsNames Γ)).extends
  | .loop _ counter _ _ _ body => fun ρ =>
    (Command.KeepsNames.caught (.count (fun _ =>
      (Stmt.runList_extends (counterScope counter :: Γ) body).inScope rfl) fuel _)).extends ρ
  | .print .. | .serve .. | .leave _ | .comment .. | .expression .. => by
    rintro ρ o ⟨⟩ hρ
    exact ⟨Scopes.names_tail hρ, fun _ => hρ⟩

theorem Alternate.run_keepsNames (Γ : Scopes Declaration) :
    (a : Alternate) → (a.run ev fuel).KeepsNames Γ
  | .none => Command.keepsNames_skip
  | .block _ body => (Stmt.runList_extends ([] :: Γ) body).inScope rfl
  | .branch _ _ _ thenBody alternate =>
    ((Stmt.runList_extends ([] :: Γ) thenBody).inScope rfl).choose (alternate.run_keepsNames Γ)

theorem Stmt.runList_extends (Γ : Scopes Declaration) :
    (ss : List Stmt) → (Stmt.runList ev fuel ss).Extends Γ (Stmt.extendList Γ ss)
  | [] => Command.keepsNames_skip.extends
  | s :: ss => (s.run_extends Γ).andThen (Stmt.runList_extends (s.extend Γ) ss)

end

end Names

/-! ## More iterations -/

namespace Command

variable {c c' d d' : Command}

/-- What the first command comes to, the second comes to as well. -/
def Within (c c' : Command) : Prop := ∀ ρ o, c ρ = some o → c' ρ = some o

theorem Within.refl (c : Command) : c.Within c := fun _ _ h => h

theorem Within.andThen (hc : c.Within c') (hd : d.Within d') :
    (c.andThen d).Within (c'.andThen d') := by
  intro ρ o h
  obtain ⟨o₁, h₁, ⟨hf, rfl⟩ | ⟨hf, o₂, h₂, rfl⟩⟩ := andThen_eq_some h
  · exact andThen_of_ne_next (hc ρ o h₁) hf
  · exact andThen_of_next (hc ρ o₁ h₁) hf (hd _ o₂ h₂)

theorem Within.inScope (hc : c.Within c') (f : List (Bytes × Value)) :
    (c.inScope f).Within (c'.inScope f) := by
  intro ρ o h
  obtain ⟨o₁, h₁, rfl⟩ := Option.map_eq_some_iff.mp h
  exact Option.map_eq_some_iff.mpr ⟨o₁, hc _ o₁ h₁, rfl⟩

theorem Within.choose {test : Scopes Value → Bool} (hc : c.Within c') (hd : d.Within d') :
    (choose test c d).Within (choose test c' d') := by
  intro ρ o h
  unfold Command.choose at h ⊢
  split at h
  · rename_i ht
    rw [if_pos ht]
    exact hc ρ o h
  · rename_i ht
    rw [if_neg ht]
    exact hd ρ o h

theorem Within.count {more : Number → Bool} {body body' : Number → Command}
    (hb : ∀ i, (body i).Within (body' i)) {fuel fuel' : Nat} (hfuel : fuel ≤ fuel') (i : Number) :
    (count more body fuel i).Within (count more body' fuel' i) := by
  induction fuel generalizing fuel' i with
  | zero =>
    -- without an iteration to go the test was not met
    intro ρ o h
    cases hi : more i with
    | true => simp [Command.count, hi] at h
    | false => cases fuel' <;> simpa [Command.count, hi] using h
  | succ fuel ih =>
    obtain ⟨fuel', rfl⟩ := Nat.exists_eq_add_of_lt hfuel
    rw [Command.count, Command.count]
    split
    · exact (hb i).andThen (ih (by omega) _)
    · exact .refl _

theorem Within.caught (hc : c.Within c') : c.caught.Within c'.caught := by
  intro ρ o h
  obtain ⟨o₁, h₁, rfl⟩ := Option.map_eq_some_iff.mp h
  exact Option.map_eq_some_iff.mpr ⟨o₁, hc ρ o₁ h₁, rfl⟩

end Command

section Fuel

variable {ev : Evaluator} {fuel fuel' : Nat}

mutual

theorem Stmt.run_mono (h : fuel ≤ fuel') : (s : Stmt) → (s.run ev fuel).Within (s.run ev fuel')
  | .block _ body => (Stmt.runList_mono h body).inScope []
  | .branch _ _ _ thenBody alternate =>
    ((Stmt.runList_mono h thenBody).inScope []).choose (alternate.run_mono h)
  | .loop _ _ _ _ _ body => fun ρ =>
    (Command.Within.count (fun _ => (Stmt.runList_mono h body).inScope _) h _).caught ρ
  | .assign .. | .print .. | .function .. | .serve .. | .leave _ | .comment .. | .expression .. =>
    .refl _

theorem Alternate.run_mono (h : fuel ≤ fuel') :
    (a : Alternate) → (a.run ev fuel).Within (a.run ev fuel')
  | .none => .refl _
  | .block _ body => (Stmt.runList_mono h body).inScope []
  | .branch _ _ _ thenBody alternate =>
    ((Stmt.runList_mono h thenBody).inScope []).choose (alternate.run_mono h)

/-- A run that comes to an end does so with more iterations to go as well. -/
theorem Stmt.runList_mono (h : fuel ≤ fuel') :
    (ss : List Stmt) → (Stmt.runList ev fuel ss).Within (Stmt.runList ev fuel' ss)
  | [] => .refl _
  | s :: ss => (s.run_mono h).andThen (Stmt.runList_mono h ss)

end

theorem Program.Prints.unique {p : Program} {printed printed' : List Value}
    (h : p.Prints ev printed) (h' : p.Prints ev printed') : printed = printed' := by
  obtain ⟨fuel, o, ho, rfl⟩ := h
  obtain ⟨fuel', o', ho', rfl⟩ := h'
  have hmax := Stmt.runList_mono (Nat.le_max_left fuel fuel') p.statements _ o ho
  have hmax' := Stmt.runList_mono (Nat.le_max_right fuel fuel') p.statements _ o' ho'
  rw [Option.some.inj (hmax.symm.trans hmax')]

end Fuel

end Roar
