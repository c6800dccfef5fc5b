import Roar.Proofs.Optimize.References
import Roar.Proofs.Scoping.Analysis
import Roar.Proofs.Semantics.Run

/-!
# A simplified program prints the same

A run of a simplified program keeps its values in scopes that stand in for those of the source
(`Scopes.Agree`): where the statements of a block have taken the place of a conditional, the scope
of the block is merged into the one around it. This is safe because a name that is declared has no
meaning yet, built-in functions apart.

* `Simulated`: a command comes to the same end as another, in scopes that stand in for its own. The
  combinators of commands keep it.
* `Stmt.run_simulated`: the statements that a statement becomes do what it does.
-/

namespace Roar

open Optimize

/-! ## Commands that do the same -/

/-- The second command comes to the end that the first comes to, from all scopes that stand in for
those of the first. -/
def Simulated (Γ : Scopes Declaration) (c c' : Command) : Prop :=
  ∀ l links ρ ρ' o, Scopes.names ρ = Scopes.names Γ → Scopes.Agree (l :: links) ρ ρ' →
    c ρ = some o →
      ∃ frames', c' ρ' = some ⟨o.flow, frames', o.printed⟩ ∧
        Scopes.Agree (l :: links) o.frames frames'

namespace Simulated

variable {Γ Δ : Scopes Declaration} {c c' d d' : Command}

theorem skip : Simulated Γ .skip .skip := by
  rintro l links ρ ρ' o - hagree ⟨⟩
  exact ⟨ρ', rfl, hagree⟩

theorem andThen (hc : Simulated Γ c c') (hnames : c.Extends Γ Δ) (hd : Simulated Δ d d') :
    Simulated Γ (c.andThen d) (c'.andThen d') := by
  intro l links ρ ρ' o hρ hagree h
  obtain ⟨o₁, h₁, ⟨hf, rfl⟩ | ⟨hf, o₂, h₂, rfl⟩⟩ := Command.andThen_eq_some h
  · obtain ⟨frames', h', hagree'⟩ := hc l links ρ ρ' o hρ hagree h₁
    exact ⟨frames', Command.andThen_of_ne_next h' hf, hagree'⟩
  · obtain ⟨frames', h', hagree'⟩ := hc l links ρ ρ' o₁ hρ hagree h₁
    obtain ⟨frames'', h'', hagree''⟩ :=
      hd l links _ frames' o₂ ((hnames ρ o₁ h₁ hρ).2 hf) hagree' h₂
    exact ⟨frames'', Command.andThen_of_next h' hf h'', hagree''⟩

/-- Both commands have a scope of their own. -/
theorem inScope {f : List (Bytes × Value)} {g : List (Bytes × Declaration)}
    (hc : Simulated (g :: Γ) c c') (hf : f.map (·.1) = g.map (·.1)) :
    Simulated Γ (c.inScope f) (c'.inScope f) := by
  intro l links ρ ρ' o hρ hagree h
  obtain ⟨o₁, h₁, rfl⟩ := Option.map_eq_some_iff.mp h
  obtain ⟨frames', h', hagree'⟩ :=
    hc .own (l :: links) (f :: ρ) (f :: ρ') o₁ (Scopes.names_cons hf hρ) (hagree.open_own f) h₁
  exact ⟨frames'.tail, by rw [Command.inScope, h', Option.map_some], hagree'.pop⟩

/-- The scope of the first command is merged into the one around it. -/
theorem inPlace (hc : Simulated ([] :: Γ) c c') : Simulated Γ (c.inScope []) c' := by
  intro l links ρ ρ' o hρ hagree h
  obtain ⟨o₁, h₁, rfl⟩ := Option.map_eq_some_iff.mp h
  obtain ⟨f', σ, rfl⟩ := hagree.exists_cons
  obtain ⟨frames', h', hagree'⟩ :=
    hc .merged (l :: links) ([] :: ρ) _ o₁ (Scopes.names_cons rfl hρ) hagree.merge h₁
  exact ⟨frames', h', hagree'.unmerge⟩

/-- The tests of a choice come out the same. -/
theorem choose {test test' : Scopes Value → Bool}
    (ht : ∀ links ρ ρ', Scopes.names ρ = Scopes.names Γ → Scopes.Agree links ρ ρ' →
      test' ρ' = test ρ)
    (hc : Simulated Γ c c') (hd : Simulated Γ d d') :
    Simulated Γ (.choose test c d) (.choose test' c' d') := by
  intro l links ρ ρ' o hρ hagree h
  unfold Command.choose at h ⊢
  rw [ht _ ρ ρ' hρ hagree]
  split at h
  · rename_i hρt
    rw [if_pos hρt]
    exact hc l links ρ ρ' o hρ hagree h
  · rename_i hρt
    rw [if_neg hρt]
    exact hd l links ρ ρ' o hρ hagree h

theorem count {more : Number → Bool} {body body' : Number → Command}
    (hnames : ∀ i, (body i).KeepsNames Γ) (hb : ∀ i, Simulated Γ (body i) (body' i)) (fuel : Nat)
    (i : Number) : Simulated Γ (.count more body fuel i) (.count more body' fuel i) := by
  induction fuel generalizing i with
  | zero =>
    rw [Command.count, Command.count]
    split
    · rintro l links ρ ρ' o - - ⟨⟩
    · exact skip
  | succ fuel ih =>
    rw [Command.count, Command.count]
    split
    · exact (hb i).andThen (hnames i).extends (ih _)
    · exact skip

theorem caught (hc : Simulated Γ c c') : Simulated Γ c.caught c'.caught := by
  intro l links ρ ρ' o hρ hagree h
  obtain ⟨o₁, h₁, rfl⟩ := Option.map_eq_some_iff.mp h
  obtain ⟨frames', h', hagree'⟩ := hc l links ρ ρ' o₁ hρ hagree h₁
  exact ⟨frames', by rw [Command.caught, h', Option.map_some], hagree'⟩

/-- One command does what another does from which it has its outcomes. -/
theorem within (h : Simulated Γ c c') (hw : c'.Within d') : Simulated Γ c d' := by
  intro l links ρ ρ' o hρ hagree ho
  obtain ⟨frames', h', hagree'⟩ := h l links ρ ρ' o hρ hagree ho
  exact ⟨frames', hw _ _ h', hagree'⟩

/-- The outcome of the test is known. -/
theorem chosen {test : Scopes Value → Bool} (value : Bool)
    (ht : ∀ links ρ ρ', Scopes.names ρ = Scopes.names Γ → Scopes.Agree links ρ ρ' → test ρ = value)
    (h : Simulated Γ (if value then c else d) c') : Simulated Γ (.choose test c d) c' := by
  intro l links ρ ρ' o hρ hagree ho
  refine h l links ρ ρ' o hρ hagree ?_
  rw [← ho, Command.choose, ht _ ρ ρ' hρ hagree]
  cases value <;> rfl

/-- The outcome of the test does not matter. -/
theorem either {test : Scopes Value → Bool} (hc : Simulated Γ c c') (hd : Simulated Γ d c') :
    Simulated Γ (.choose test c d) c' := by
  intro l links ρ ρ' o hρ hagree ho
  unfold Command.choose at ho
  split at ho
  · exact hc l links ρ ρ' o hρ hagree ho
  · exact hd l links ρ ρ' o hρ hagree ho

end Simulated

theorem Command.choose_not (test : Scopes Value → Bool) (c d : Command) :
    choose (fun ρ => !test ρ) d c = choose test c d := by
  funext ρ
  cases h : test ρ <;> simp [choose, h]

/-- A loop with nothing to do comes to nothing, if it comes to an end. -/
theorem Command.count_skip_within (more : Number → Bool) (f : Number → List (Bytes × Value))
    (fuel : Nat) (i : Number) : (count more (fun i => inScope (f i) skip) fuel i).Within skip := by
  induction fuel generalizing i with
  | zero =>
    rw [count]
    split
    · intro ρ o h
      cases h
    · exact .refl _
  | succ fuel ih =>
    have hscope : inScope (f i) skip = skip := rfl
    rw [count, hscope, skip_andThen]
    split
    · exact ih _
    · exact .refl _

/-- A loop whose first test fails does nothing. -/
theorem Command.count_of_not {more : Number → Bool} {i : Number} (h : more i = false)
    (body : Number → Command) (fuel : Nat) : count more body fuel i = skip := by
  cases fuel <;> simp [count, h]

/-! ## Expressions -/

/-- Simplifying the expression does not change its value. -/
def Evaluator.Keeps (ev : Evaluator) (e : Expr) : Prop :=
  ∀ env, ev.eval env e.optimize = ev.eval env e

section Tests

variable {ev : Evaluator} {Γ : Scopes Declaration} {e : Expr} {links : List Scopes.Link}
  {ρ ρ' : Scopes Value}

/-- A name that has a meaning in the program has a value. -/
theorem lookup?_ne_none (hρ : Scopes.names ρ = Scopes.names Γ) {x : Bytes}
    (hx : Scopes.lookup? Γ x ≠ none) : Scopes.lookup? ρ x ≠ none := by
  rwa [Ne, Scopes.lookup?_eq_none_congr hρ]

theorem Evaluator.Keeps.valueIn_eq (hk : ev.Keeps e) (hv : e.Visible Γ)
    (hρ : Scopes.names ρ = Scopes.names Γ) (hagree : Scopes.Agree links ρ ρ') :
    ev.valueIn ρ' e.optimize = ev.valueIn ρ e := by
  have hreads : ev.valueIn ρ' e.optimize = ev.valueIn ρ e.optimize :=
    ev.reads _ _ _ fun x hx =>
      hagree.lookup?_eq (lookup?_ne_none hρ (hv.of_mem_names (e.names_optimize hx)))
  exact hreads.trans (hk _)

theorem Evaluator.Keeps.holds_eq (hk : ev.Keeps e) (hv : e.Visible Γ)
    (hρ : Scopes.names ρ = Scopes.names Γ) (hagree : Scopes.Agree links ρ ρ') :
    ev.holds e.optimize ρ' = ev.holds e ρ := congrArg Value.truthy (hk.valueIn_eq hv hρ hagree)

/-- A loop up to a number that is not above zero has no iteration. -/
theorem below_of_neverCounts (h : neverCounts e = true) (ρ : Scopes Value) :
    ev.below (ev.valueIn ρ e) (.zero false) = false := by
  cases e with
  | number loc n =>
    have hle : n.le (.zero false) = true := by simpa [neverCounts, Expr.number?] using h
    have hlt : (Number.zero false).lt n = false := by
      have hzero : (Number.zero false).rank = some 0 := rfl
      unfold Number.le Number.lt Number.relate at *
      cases hn : n.rank with
      | none => rw [hzero]
      | some z =>
        rw [hn, hzero] at hle
        rw [hzero]
        simp only [decide_eq_true_eq, decide_eq_false_iff_not] at hle ⊢
        omega
    rw [Evaluator.below, Evaluator.valueIn, ev.number]
    exact hlt
  | _ => cases h

end Tests

/-! ## Assignments -/

/-- A name that means a built-in function is the name of one. -/
def BuiltinsNamed (Γ : Scopes Declaration) : Prop :=
  ∀ x d, Scopes.lookup? Γ x = some d → d.kind = .builtin → x ∈ builtinNames

namespace BuiltinsNamed

variable {Γ : Scopes Declaration}

theorem push (h : BuiltinsNamed Γ) : BuiltinsNamed ([] :: Γ) := by
  intro x d
  rw [Scopes.lookup?_push]
  exact h x d

theorem loop (h : BuiltinsNamed Γ) (counter : Identifier) :
    BuiltinsNamed (counterScope counter :: Γ) := by
  intro x d hx hd
  by_cases e : x = counter.name
  · subst e
    have hself : (counterScope counter).lookup counter.name = some _ :=
      Scopes.lookup_cons_self _ _ _
    rw [Scopes.lookup?_cons_some hself] at hx
    cases hx
    cases hd
  · rw [lookup?_counterScope e] at hx
    exact h x d hx hd

theorem extend (h : BuiltinsNamed Γ) (s : Stmt) : BuiltinsNamed (s.extend Γ) := by
  intro x d hx hd
  rw [lookup?_extend] at hx
  split at hx
  · rename_i e he
    split at hx
    · cases hx
      exact absurd hd (Stmt.isUser_of_declared? he)
    · exact h x d hx hd
  · exact h x d hx hd

theorem start : BuiltinsNamed startScopes := by
  intro x d hx _
  apply Decidable.byContradiction
  intro hne
  have hnone : Scopes.lookup? startScopes x = none := by
    rw [Scopes.lookup?_eq_none_iff]
    simpa [startScopes, Scopes.names] using hne
  rw [hnone] at hx
  cases hx

/-- A name that is not taken and is not that of a built-in function has no meaning. -/
theorem lookup?_eq_none (h : BuiltinsNamed Γ) {x : Bytes} (hx : Unclaimed Γ x)
    (hb : x ∉ builtinNames) : Scopes.lookup? Γ x = none := by
  cases hd : Scopes.lookup? Γ x with
  | none => rfl
  | some d => exact absurd (h x d hd (hx d hd)) hb

end BuiltinsNamed

section Assignments

variable {ev : Evaluator} {fuel : Nat} {Γ : Scopes Declaration} {loc : Location}
  {target : Identifier} {value : Expr}

/-- A declaration is never one of a name as itself, since the name has no meaning before. -/
theorem declaration_simulated (hk : ev.Keeps value) (hv : value.Visible Γ)
    (hx : Scopes.lookup? Γ target.name = none) :
    Simulated Γ ((Stmt.assign loc target value true).run ev fuel)
      (Stmt.runList ev fuel (simplifyAssign loc target value.optimize true)) := by
  have hself : assignsItself target value.optimize = false := by
    rw [← Bool.not_eq_true]
    intro h
    exact hv.of_mem_names (mem_names_of_assignsItself h) hx
  rw [simplifyAssign, hself, if_neg (by simp), Stmt.runList_singleton]
  rintro l links ρ ρ' o hρ hagree ⟨⟩
  refine ⟨_, ?_, hagree.bind ((Scopes.lookup?_eq_none_congr hρ _).mpr hx)⟩
  simp only [Stmt.run, if_true, hk.valueIn_eq hv hρ hagree]

/-- An assignment of a name to itself changes nothing. -/
theorem assignment_simulated (hk : ev.Keeps value) (hv : value.Visible Γ)
    (hx : Scopes.lookup? Γ target.name ≠ none) :
    Simulated Γ ((Stmt.assign loc target value false).run ev fuel)
      (Stmt.runList ev fuel (simplifyAssign loc target value.optimize false)) := by
  rintro l links ρ ρ' o hρ hagree ⟨⟩
  have hx := lookup?_ne_none hρ hx
  unfold simplifyAssign
  split
  · rename_i hself
    obtain ⟨id, hid, hname⟩ := assignsItself_eq_true hself
    obtain ⟨v, hlookup⟩ := Option.ne_none_iff_exists'.mp hx
    have hvalue : ev.valueIn ρ value = v := by
      rw [← hk.valueIn_eq hv hρ hagree, hid]
      refine ev.identifier _ id v ?_
      rw [hname, hagree.lookup?_eq hx, hlookup]
    refine ⟨ρ', rfl, ?_⟩
    simp only [Bool.false_eq_true, if_false, hvalue, Scopes.assign_self hlookup]
    exact hagree
  · rw [Stmt.runList_singleton]
    refine ⟨_, ?_, hagree.assign hx _⟩
    simp only [Stmt.run, Bool.false_eq_true, if_false, hk.valueIn_eq hv hρ hagree]

end Assignments

/-! ## Conditionals and loops -/

section Branches

variable {ev : Evaluator} {fuel : Nat} {Γ : Scopes Declaration} {loc thenLoc : Location}
  {condition : Expr} {thenBody result : List Stmt} {alternate : Alternate}
  {test : Scopes Value → Bool} {c d : Command}

/-- Statements that do the same in the place of a conditional, and in a block of their own, do so as
what is done when the condition before is false. -/
theorem Simulated.alternateOf (hplace : Simulated Γ c (Stmt.runList ev fuel result))
    (hown : alternateOf loc result = .block loc result →
      Simulated Γ c (.inScope [] (Stmt.runList ev fuel result))) :
    Simulated Γ c ((alternateOf loc result).run ev fuel) := by
  unfold Optimize.alternateOf
  split
  · exact hplace
  · rw [Stmt.runList_singleton] at hplace
    exact hplace
  · rename_i hne hbranch
    refine hown ?_
    unfold Optimize.alternateOf
    split
    · exact absurd rfl hne
    · exact absurd rfl (hbranch _ _ _ _ _)
    · rfl

/-- The blocks of a conditional do what the two commands do, both in the place of the conditional
and in scopes of their own. -/
structure BlocksSimulated (ev : Evaluator) (fuel : Nat) (Γ : Scopes Declaration) (c d : Command)
    (thenBody : List Stmt) (alternate : Alternate) : Prop where
  thenPlace : Simulated Γ c (Stmt.runList ev fuel thenBody)
  thenOwn : Simulated Γ c (.inScope [] (Stmt.runList ev fuel thenBody))
  elsePlace : Simulated Γ d (Stmt.runList ev fuel (alternateStmts alternate))
  elseOwn : Simulated Γ d (alternate.run ev fuel)

theorem Simulated.blocks {body : List Stmt}
    (h : Simulated ([] :: Γ) (Stmt.runList ev fuel body) (Stmt.runList ev fuel thenBody))
    (h' : Simulated Γ d (Stmt.runList ev fuel (alternateStmts alternate)) ∧
      Simulated Γ d (alternate.run ev fuel)) :
    BlocksSimulated ev fuel Γ (.inScope [] (Stmt.runList ev fuel body)) d thenBody alternate :=
  ⟨h.inPlace, h.inScope rfl, h'.1, h'.2⟩

/-- A condition that is a literal is known. -/
theorem holds_boolean (l : Location) (value : Bool) (ρ : Scopes Value) :
    ev.holds (.boolean l value) ρ = value := by
  rw [Evaluator.holds, Evaluator.valueIn, ev.boolean]
  rfl

/-- The statements that a conditional becomes choose between what its blocks become. -/
theorem Optimize.Branches.run_simulated
    (hb : Branches loc condition thenLoc thenBody alternate result)
    (ht : ∀ links ρ ρ', Scopes.names ρ = Scopes.names Γ → Scopes.Agree links ρ ρ' →
      ev.holds condition ρ' = test ρ)
    (h : BlocksSimulated ev fuel Γ c d thenBody alternate) :
    Simulated Γ (.choose test c d) (Stmt.runList ev fuel result) := by
  cases hb with
  | @known l _ value =>
    refine .chosen value (fun links ρ ρ' hρ hagree => ?_) ?_
    · rw [← ht links ρ ρ' hρ hagree, holds_boolean]
    · cases value
      · exact h.elsePlace
      · exact h.thenPlace
  | empty => exact .either h.thenPlace h.elsePlace
  | turned =>
    rw [Stmt.runList_singleton, ← Command.choose_not]
    refine .choose (fun links ρ ρ' hρ hagree => ?_) h.elseOwn h.thenOwn
    rw [← ht links ρ ρ' hρ hagree, Evaluator.holds, Evaluator.holds, Evaluator.valueIn,
      Evaluator.valueIn, ev.differ, Bool.not_not]
  | kept =>
    rw [Stmt.runList_singleton]
    exact .choose ht h.thenOwn h.elseOwn

/-- The same for a further condition. -/
theorem Optimize.Branches.alternateOf_simulated
    (hb : Branches loc condition thenLoc thenBody alternate result)
    (ht : ∀ links ρ ρ', Scopes.names ρ = Scopes.names Γ → Scopes.Agree links ρ ρ' →
      ev.holds condition ρ' = test ρ)
    (h : BlocksSimulated ev fuel Γ c d thenBody alternate) :
    Simulated Γ (.choose test c d) ((alternateOf loc result).run ev fuel) := by
  refine .alternateOf (hb.run_simulated ht h) fun hblock => ?_
  -- only the block of a condition that is known becomes more than one conditional
  cases hb with
  | @known l _ value =>
    refine .chosen value (fun links ρ ρ' hρ hagree => ?_) ?_
    · rw [← ht links ρ ρ' hρ hagree, holds_boolean]
    · cases value with
      | true => exact h.thenOwn
      | false =>
        cases alternate with
        | block => exact h.elseOwn
        | none | branch => cases hblock
  | empty | turned | kept => cases hblock

/-- A loop becomes one with a simplified body, or nothing if it has nothing to do. -/
theorem simplifyLoop_simulated {counter : Identifier} {rangeLoc bodyLoc : Location} {bound : Expr}
    {body body' : List Stmt} (hk : ev.Keeps bound) (hv : bound.Visible Γ)
    (hb : Simulated (counterScope counter :: Γ) (Stmt.runList ev fuel body)
      (Stmt.runList ev fuel body')) :
    Simulated Γ ((Stmt.loop loc counter rangeLoc bound bodyLoc body).run ev fuel)
      (Stmt.runList ev fuel
        (simplifyLoop loc counter rangeLoc bound.optimize bodyLoc body')) := by
  intro l links ρ ρ' o hρ hagree h
  have hlimit := hk.valueIn_eq hv hρ hagree
  have hcount : Simulated Γ
      (.count (ev.below (ev.valueIn ρ bound))
        (fun i => .inScope [(counter.name, .number i)] (Stmt.runList ev fuel body)) fuel
        (.zero false))
      (.count (ev.below (ev.valueIn ρ bound))
        (fun i => .inScope [(counter.name, .number i)] (Stmt.runList ev fuel body')) fuel
        (.zero false)) :=
    .count (fun _ => (Stmt.runList_extends (counterScope counter :: Γ) body).inScope rfl)
      (fun _ => hb.inScope rfl) fuel _
  unfold simplifyLoop
  split
  · rename_i hnothing
    have hskip : (Command.count (ev.below (ev.valueIn ρ bound))
        (fun i => .inScope [(counter.name, .number i)] (Stmt.runList ev fuel body')) fuel
        (.zero false)).Within .skip := by
      rcases Bool.or_eq_true_iff.mp hnothing with hnever | hempty
      · rw [← hlimit, Command.count_of_not (below_of_neverCounts hnever ρ')]
        exact .refl _
      · rw [List.isEmpty_iff.mp hempty]
        exact Command.count_skip_within _ _ _ _
    exact hcount.caught.within hskip.caught l links ρ ρ' o hρ hagree h
  · rw [Stmt.runList_singleton, Stmt.run_loop, hlimit]
    exact hcount.caught l links ρ ρ' o hρ hagree h

end Branches

/-! ## Programs -/

mutual

/-- The expressions of a statement. -/
def Stmt.expressions : Stmt → List Expr
  | .block _ body => Stmt.expressionsList body
  | .assign _ _ value _ | .print _ value | .serve _ value | .expression _ value => [value]
  | .function _ _ _ _ body _ => Stmt.expressionsList body
  | .branch _ condition _ thenBody alternate =>
    condition :: (Stmt.expressionsList thenBody ++ alternate.expressions)
  | .loop _ _ _ bound _ body => bound :: Stmt.expressionsList body
  | .leave _ | .comment .. => []

def Alternate.expressions : Alternate → List Expr
  | .none => []
  | .block _ body => Stmt.expressionsList body
  | .branch _ condition _ thenBody alternate =>
    condition :: (Stmt.expressionsList thenBody ++ alternate.expressions)

def Stmt.expressionsList : List Stmt → List Expr
  | [] => []
  | s :: ss => s.expressions ++ Stmt.expressionsList ss

end

/-- The program assigns to no name of a built-in function. -/
def Program.SparesBuiltins (p : Program) : Prop :=
  ∀ r ∈ Stmt.referencesList p.statements, r.kind = .target → r.name ∉ builtinNames

instance (p : Program) : Decidable p.SparesBuiltins := inferInstanceAs (Decidable (∀ _ ∈ _, _))

/-- The value of no expression in the program is changed. -/
def Evaluator.KeepsAll (ev : Evaluator) (p : Program) : Prop :=
  ∀ e ∈ Stmt.expressionsList p.statements, ev.Keeps e

/-- The same three conditions, for a part of a program. -/
structure Suits (ev : Evaluator) (expressions : List Expr) (declarations : List Declaration)
    (references : List Reference) : Prop where
  keeps : ∀ e ∈ expressions, ev.Keeps e
  functions : ∀ d ∈ declarations, d.kind ≠ .function
  builtins : ∀ r ∈ references, r.kind = .target → r.name ∉ builtinNames

theorem Suits.part {ev : Evaluator} {es es' : List Expr} {ds ds' : List Declaration}
    {rs rs' : List Reference} (h : Suits ev es ds rs) (he : es' ⊆ es) (hd : ds' ⊆ ds)
    (hr : rs' ⊆ rs) : Suits ev es' ds' rs' :=
  ⟨fun e m => h.keeps e (he m), fun d m => h.functions d (hd m), fun r m => h.builtins r (hr m)⟩

/-- A conditional has a condition, a block and what is done otherwise. -/
theorem Suits.branch {ev : Evaluator} {e : Expr} {es es' : List Expr} {ds ds' : List Declaration}
    {rs rs' rs'' : List Reference}
    (h : Suits ev (e :: (es ++ es')) (ds ++ ds') (rs ++ rs' ++ rs'')) :
    ev.Keeps e ∧ Suits ev es ds rs' ∧ Suits ev es' ds' rs'' := by
  refine ⟨h.keeps e (.head _), h.part ?_ (List.subset_append_left _ _) ?_,
    h.part ?_ (List.subset_append_right _ _) (List.subset_append_right _ _)⟩
  · exact List.subset_cons_of_subset _ (List.subset_append_left _ _)
  · exact List.subset_append_of_subset_left _ (List.subset_append_right _ _)
  · exact List.subset_cons_of_subset _ (List.subset_append_right _ _)

section Simulation

variable {ev : Evaluator} {fuel : Nat}

mutual

/-- The statements that a statement becomes do what it does. -/
theorem Stmt.run_simulated {Γ : Scopes Declaration} (hΓ : BuiltinsNamed Γ) :
    (s : Stmt) → s.WellScoped Γ → Suits ev s.expressions s.declarations s.references →
      Simulated Γ (s.run ev fuel) (Stmt.runList ev fuel s.optimize)
  | .block _ body, hw, hs => by
    rw [Stmt.optimize, Stmt.runList_singleton]
    exact (Stmt.runList_simulated hΓ.push body hw hs).inScope rfl
  | .assign _ target value true, hw, hs => by
    have hname := hs.builtins target.targetReference (by simp [Stmt.references]) rfl
    exact declaration_simulated (hs.keeps value (.head _)) hw.1 (hΓ.lookup?_eq_none hw.2 hname)
  | .assign _ target value false, hw, hs => by
    obtain ⟨hv, d, hd, -⟩ := hw
    exact assignment_simulated (hs.keeps value (.head _)) hv (by simp [hd])
  | .print _ value, hw, hs => by
    rw [Stmt.optimize, Stmt.runList_singleton]
    rintro l links ρ ρ' o hρ hagree ⟨⟩
    refine ⟨ρ', ?_, hagree⟩
    simp only [Stmt.run, (hs.keeps value (.head _)).valueIn_eq hw hρ hagree]
  | .function loc name _ _ _ _, _, hs => absurd rfl (hs.functions ⟨.function, name, loc⟩ (.head _))
  | .branch _ condition _ thenBody alternate, hw, hs => by
    obtain ⟨hv, hthen, halternate⟩ := hw
    obtain ⟨hk, hs, hs'⟩ := hs.branch
    rw [Stmt.optimize]
    exact (simplifyBranch_branches ..).run_simulated
      (fun _ _ _ hρ hagree => hk.holds_eq hv hρ hagree)
      ((Stmt.runList_simulated hΓ.push thenBody hthen hs).blocks
        (alternate.run_simulated hΓ halternate hs'))
  | .loop _ counter _ bound _ body, hw, hs => by
    rw [Stmt.optimize]
    exact simplifyLoop_simulated (hs.keeps bound (.head _)) hw.1
      (Stmt.runList_simulated (hΓ.loop counter) body hw.2
        (hs.part (List.subset_cons_self _ _) (List.subset_cons_self _ _)
          (List.subset_append_right _ _)))
  | .serve .., _, _ | .leave _, _, _ => by
    rw [Stmt.optimize, Stmt.runList_singleton]
    rintro l links ρ ρ' o - hagree ⟨⟩
    exact ⟨ρ', rfl, hagree⟩
  | .comment .., _, _ | .expression .., _, _ => by
    rw [Stmt.optimize, Stmt.runList_singleton]
    exact .skip

/-- What is done when a condition is false is done in the place of the conditional as well. -/
theorem Alternate.run_simulated {Γ : Scopes Declaration} (hΓ : BuiltinsNamed Γ) :
    (a : Alternate) → a.WellScoped Γ → Suits ev a.expressions a.declarations a.references →
      Simulated Γ (a.run ev fuel) (Stmt.runList ev fuel (alternateStmts a.optimize)) ∧
        Simulated Γ (a.run ev fuel) (a.optimize.run ev fuel)
  | .none, _, _ => ⟨.skip, .skip⟩
  | .block _ body, hw, hs => by
    have hbody := Stmt.runList_simulated hΓ.push body hw hs
    exact ⟨hbody.inPlace, hbody.inScope rfl⟩
  | .branch _ condition _ thenBody alternate, hw, hs => by
    obtain ⟨hv, hthen, halternate⟩ := hw
    obtain ⟨hk, hs, hs'⟩ := hs.branch
    have hblocks := (Stmt.runList_simulated hΓ.push thenBody hthen hs).blocks
      (alternate.run_simulated hΓ halternate hs')
    rw [Alternate.optimize, alternateStmts_alternateOf]
    exact ⟨(simplifyBranch_branches ..).run_simulated
        (fun _ _ _ hρ hagree => hk.holds_eq hv hρ hagree) hblocks,
      (simplifyBranch_branches ..).alternateOf_simulated
        (fun _ _ _ hρ hagree => hk.holds_eq hv hρ hagree) hblocks⟩

theorem Stmt.runList_simulated {Γ : Scopes Declaration} (hΓ : BuiltinsNamed Γ) :
    (ss : List Stmt) → Stmt.WellScopedList Γ ss →
      Suits ev (Stmt.expressionsList ss) (Stmt.declarationsList ss) (Stmt.referencesList ss) →
      Simulated Γ (Stmt.runList ev fuel ss) (Stmt.runList ev fuel (Stmt.optimizeList ss))
  | [], _, _ => .skip
  | s :: ss, hw, hs => by
    rw [Stmt.optimizeList, Stmt.runList_append]
    exact (s.run_simulated hΓ hw.1 (hs.part (List.subset_append_left _ _)
        (List.subset_append_left _ _) (List.subset_append_left _ _))).andThen (s.run_extends Γ)
      (Stmt.runList_simulated (hΓ.extend s) ss hw.2 (hs.part (List.subset_append_right _ _)
        (List.subset_append_right _ _) (List.subset_append_right _ _)))

end

end Simulation

/-! ## What is printed -/

/-- A program without functions that assigns to no name of a built-in function prints the same after
it is simplified, whatever gives expressions their values, as long as none of them is changed by
simplifying it. -/
theorem optimize_prints (tree : Grammar.Tree) {p : Program} {ev : Evaluator} {printed : List Value}
    (h : analyze tree = .ok p) (hfunctions : p.FunctionFree) (hbuiltins : p.SparesBuiltins)
    (hkeeps : ev.KeepsAll p) (hprints : p.Prints ev printed) :
    p.optimize.Prints ev printed ∧
      ∀ printed', p.optimize.Prints ev printed' → printed' = printed := by
  have hsame : p.optimize.Prints ev printed := by
    obtain ⟨fuel, o, ho, rfl⟩ := hprints
    have hsimulated : Simulated startScopes (Stmt.runList ev fuel p.statements)
        (Stmt.runList ev fuel p.optimize.statements) :=
      Stmt.runList_simulated .start p.statements (analyze_wellScoped h)
        ⟨hkeeps, hfunctions, hbuiltins⟩
    have hagree : Scopes.Agree [.own, .own] startFrames startFrames :=
      .open_own (.open_own .nil _) _
    obtain ⟨frames', h', -⟩ := hsimulated _ _ _ _ o (by decide) hagree ho
    exact ⟨fuel, _, h', rfl⟩
  exact ⟨hsame, fun _ h => h.unique hsame⟩

/-- A program that declares `y` in a block that is always run and again after it, assigns it to
itself, and leaves a loop. -/
def countingTree : Grammar.Tree :=
  ⟨0,
    [.branch {} (.arm {} (.unary {} .not (.boolean {} false)) {}
        [.assign {} (.identifier {} (ascii "y")) (.number {} (.ofNat 1) (ascii "1")),
          .print {} (.identifier {} (ascii "y"))] .done),
      .assign {} (.identifier {} (ascii "y")) (.number {} (.ofNat 3) (ascii "3")),
      .assign {} (.identifier {} (ascii "y")) (.identifier {} (ascii "y")),
      .loop {} (.identifier {} (ascii "i")) {} (.identifier {} (ascii "y")) {}
        [.branch {} (.arm {} (.compare {} .ne (.identifier {} (ascii "i"))
              (.number {} (.ofNat 2) (ascii "2"))) {}
            [.print {} (.binary {} .add (.identifier {} (ascii "y")) (.identifier {} (ascii "i")))]
            (.otherwise {} [.leave {}]))]]⟩

/-- The program of `countingTree`. -/
def countingProgram : Program :=
  let y : Identifier := ⟨{}, ascii "y", .number, false⟩
  let i : Identifier := ⟨{}, ascii "i", .number, false⟩
  ⟨[.branch {} (.unary {} .not (.boolean {} false) .boolean) {}
        [.assign {} y (.number {} (.ofNat 1)) true, .print {} (.identifier y)] .none,
      .assign {} y (.number {} (.ofNat 3)) true,
      .assign {} y (.identifier y) false,
      .loop {} i {} (.identifier y) {}
        [.branch {} (.compare {} .ne (.identifier i) (.number {} (.ofNat 2))) {}
          [.print {} (.binary {} .add (.identifier y) (.identifier i) .number)]
          (.block {} [.leave {}])]]⟩

/-- The block is moved out of the first conditional, the blocks of the second one are turned round,
and one assignment goes; what is printed stays. -/
theorem countingProgram_prints :
    analyze countingTree = .ok countingProgram ∧ countingProgram.FunctionFree ∧
      countingProgram.SparesBuiltins ∧
      (Evaluator.standard World.bare.host).KeepsAll countingProgram ∧
      countingProgram.Prints (.standard World.bare.host)
        [.number (.ofNat 1), .number (.ofNat 3), .number (.ofNat 4)] ∧
      countingProgram.optimize.Prints (.standard World.bare.host)
        [.number (.ofNat 1), .number (.ofNat 3), .number (.ofNat 4)] := by
  have hanalyze : analyze countingTree = .ok countingProgram := rfl
  have hfunctions : countingProgram.FunctionFree := by decide +kernel
  have hbuiltins : countingProgram.SparesBuiltins := by decide +kernel
  have hkeeps : (Evaluator.standard World.bare.host).KeepsAll countingProgram := by
    intro e he env
    simp only [countingProgram, Stmt.expressionsList, Stmt.expressions, Alternate.expressions,
      List.cons_append, List.nil_append, List.append_nil, List.mem_cons, List.not_mem_nil,
      or_false] at he
    rcases he with rfl | rfl | rfl | rfl | rfl | rfl | rfl | rfl
    case inr.inr.inr.inr.inr.inr.inl =>
      simp [Expr.optimize, simplifyCompare, Expr.literal?, Expr.same]
    all_goals rfl
  have hprints : countingProgram.Prints (.standard World.bare.host)
      [.number (.ofNat 1), .number (.ofNat 3), .number (.ofNat 4)] := by
    refine ⟨3, (Stmt.runList (.standard World.bare.host) 3 countingProgram.statements
      startFrames).get ?_, ?_, ?_⟩
    · decide +kernel
    · rw [Option.some_get]
    · decide +kernel
  exact ⟨hanalyze, hfunctions, hbuiltins, hkeeps, hprints,
    (optimize_prints countingTree hanalyze hfunctions hbuiltins hkeeps hprints).1⟩

end Roar
