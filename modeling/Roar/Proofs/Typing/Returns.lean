import Roar.Number.Arithmetic
import Roar.Proofs.Typing.Follows

/-!
# Return types

An analysed program carries the types that the marks of its text say (`analyze_returnTypes`): a
function returns the first known type that it serves, and a call has the first known type that its
function has served by then, or is a number. So calls and later values of other types are possible
(`returnType_notShared`).
-/

namespace Roar

/-! ## Expressions -/

/-- The marks are calls with the types that the log says. -/
def RightCalls (log marks : List Mark) : Prop :=
  ∀ m ∈ marks, ∃ f, m = .called f (returnsAfter log f).orNumber

namespace RightCalls

variable {log a b : List Mark}

theorem append (ha : RightCalls log a) (hb : RightCalls log b) : RightCalls log (a ++ b) :=
  fun m hm => (List.mem_append.mp hm).elim (ha m) (hb m)

theorem not_served (h : RightCalls log a) (f : Nat) (t : ValueType) : .served f t ∉ a := by
  intro hm
  obtain ⟨g, hg⟩ := h _ hm
  cases hg

theorem rightAfter (h : RightCalls log a) : RightAfter log a := by
  induction a generalizing log with
  | nil => trivial
  | cons m ms ih =>
    obtain ⟨f, rfl⟩ := h m (.head _)
    refine ⟨rfl, ih fun n hn => ?_⟩
    obtain ⟨g, rfl⟩ := h n (.tail _ hn)
    refine ⟨g, ?_⟩
    rw [returnsAfter_append_of_notMem (by simp)]

end RightCalls

section Expressions

variable {log : List Mark} {env : Env} {v : Sight}

private theorem callMark_right {m : Meaning} {callee : Bytes} (hf : Follows log env v)
    (hx : env.lookup? callee = some m) :
    RightCalls log (callMark v.scopes callee (if m.returns == .unknown then .number else m.returns)) := by
  intro mark hmark
  unfold callMark at hmark
  cases hl : (Scopes.lookup? v.scopes callee).join with
  | none => simp [hl] at hmark
  | some f =>
    rw [hl, Option.map_some, Option.toList_some, List.mem_singleton] at hmark
    have hreturns := hf.returns_eq hx (Option.join_eq_some_iff.mp hl)
    refine ⟨f, hmark.trans ?_⟩
    rw [← hreturns, ValueType.orNumber]
    simp only [beq_iff_eq]

mutual

theorem analyzeExpr_calls (hf : Follows log env v) :
    (g : Grammar.Expr) → {e : Expr} → analyzeExpr env g = .ok e → RightCalls log (e.calls v.scopes)
  | .number .., _, h | .string .., _, h | .boolean .., _, h => by
    cases h
    intro m hm
    cases hm
  | .identifier loc name, _, h => by
    obtain ⟨m, type, -, rfl⟩ := resolveName_eq_ok h
    intro m hm
    cases hm
  | .interpolated loc segments, _, h => by
    obtain ⟨ss, hs, h⟩ := Analysed.exists_of_bind h
    cases h
    rw [Expr.calls_interpolate]
    exact analyzeSegments_calls hf segments hs
  | .binary loc op left right, _, h => by
    obtain ⟨l, hl, h⟩ := Analysed.exists_of_bind h
    obtain ⟨r, hr, h⟩ := Analysed.exists_of_bind h
    obtain ⟨type, rfl, -⟩ := checkedBinary_eq_ok h
    exact (analyzeExpr_calls hf left hl).append (analyzeExpr_calls hf right hr)
  | .compare loc op left right, _, h => by
    obtain ⟨l, hl, h⟩ := Analysed.exists_of_bind h
    obtain ⟨r, hr, h⟩ := Analysed.exists_of_bind h
    obtain ⟨rfl, -⟩ := resolveCompare_eq_ok h
    exact (analyzeExpr_calls hf left hl).append (analyzeExpr_calls hf right hr)
  | .unary loc op operand, _, h => by
    obtain ⟨l, hl, h⟩ := Analysed.exists_of_bind h
    obtain ⟨type, rfl, -⟩ := checkedUnary_eq_ok h
    change RightCalls log (l.calls v.scopes)
    exact analyzeExpr_calls hf operand hl
  | .call loc callee args, _, h => by
    obtain ⟨m, hcallee, h⟩ := Analysed.exists_of_bind h
    obtain ⟨as, has, h⟩ := Analysed.exists_of_bind h
    cases h
    exact (analyzeArgs_calls hf _ args has).append
      (callMark_right hf (resolveCallee_eq_ok hcallee).1)

theorem analyzeArgs_calls (hf : Follows log env v) (recursive : Bool) :
    (gs : List Grammar.Expr) → {es : List Expr} → analyzeArgs env recursive gs = .ok es →
      RightCalls log (Expr.callsList v.scopes es)
  | [], _, h => by
    cases h
    intro m hm
    cases hm
  | g :: gs, _, h => by
    obtain ⟨e, he, h⟩ := Analysed.exists_of_bind h
    obtain ⟨_, _, h⟩ := Analysed.exists_of_bind h
    obtain ⟨es, hes, h⟩ := Analysed.exists_of_bind h
    cases h
    exact (analyzeExpr_calls hf g he).append (analyzeArgs_calls hf recursive gs hes)

theorem analyzeSegments_calls (hf : Follows log env v) :
    (gs : List Grammar.Segment) → {ss : List Segment} → analyzeSegments env gs = .ok ss →
      RightCalls log (Segment.callsList v.scopes ss)
  | [], _, h => by
    cases h
    intro m hm
    cases hm
  | .text t :: gs, _, h => by
    obtain ⟨s, hs, h⟩ := Analysed.exists_of_bind h
    obtain ⟨ss, hss, h⟩ := Analysed.exists_of_bind h
    cases h
    cases hs
    change RightCalls log (Segment.callsList v.scopes ss)
    exact analyzeSegments_calls hf gs hss
  | .embedded g :: gs, _, h => by
    obtain ⟨s, hs, h⟩ := Analysed.exists_of_bind h
    obtain ⟨ss, hss, h⟩ := Analysed.exists_of_bind h
    obtain ⟨e, he, hs⟩ := Analysed.exists_of_bind hs
    cases h
    cases hs
    exact (analyzeExpr_calls hf g he).append (analyzeSegments_calls hf gs hss)

end

end Expressions

/-! ## Statements -/

/-- What analysis and reader make of a statement, or of several, agrees. -/
structure Reads (log : List Mark) (function : Option (Nat × Bytes)) (env : Env)
    (result : List Mark × Sight) : Prop where
  right : RightAfter log result.1
  follows : Follows (log ++ result.1) env result.2
  same_function : env.function = function

namespace Reads

variable {log calls a b : List Mark} {function : Option (Nat × Bytes)} {env env' : Env}
  {v w : Sight}

theorem ofCalls (hf : Follows log env v) (hcalls : RightCalls log calls) :
    Reads log env.function env (calls, v) :=
  ⟨hcalls.rightAfter, hf.log_append hcalls.not_served, rfl⟩

/-- One after the other. -/
theorem andThen (h : Reads log function env (a, v)) (h' : Reads (log ++ a) function env' (b, w)) :
    Reads log function env' (a ++ b, w) where
  right := rightAfter_append.mpr ⟨h.right, h'.right⟩
  follows := by
    rw [← List.append_assoc]
    exact h'.follows
  same_function := h'.same_function

/-- A block has a scope of its own. -/
theorem block {inner : Env} {ss : List Stmt} (hf : Follows log env v) (names : List Bytes)
    (h : Reads log env.function inner (Stmt.marksList (v.enter names) ss)) :
    Reads log env.function inner.pop
      ((Stmt.marksList (v.enter names) ss).1, v.upTo (Stmt.marksList (v.enter names) ss).2) where
  right := h.right
  follows := by
    obtain ⟨s', hs'⟩ := Stmt.exists_scopes_marksList (v := v.enter names) rfl ss
    have hleave := h.follows.leave (v := v) hs' hf.owned
    -- a block is in the body of the same function
    have hpop : { inner.pop with function := env.function } = inner.pop := by
      rw [← h.same_function]
      rfl
    rwa [hpop] at hleave
  same_function := h.same_function

end Reads

section Function

variable {log : List Mark} {env last : Env} {v : Sight} {name : Bytes}
  {function : Option (Nat × Bytes)} {names : List Bytes} {body : List Stmt} {m : Meaning}

/-- A function returns what its symbol says at its end. -/
theorem Reads.declaration (hf : Follows log (env.define m) (v.declare name))
    (h : Reads log function last
      (Stmt.marksList { (v.declare name).enter names with own := some v.count } body)) :
    Reads log env.function { last.pop with function := env.function }
      ((Stmt.marksList { (v.declare name).enter names with own := some v.count } body).1 ++
          [.declared v.count (((last.pop.innermost.local? name).map (·.returns)).getD .unknown)],
        (v.declare name).upTo
          (Stmt.marksList { (v.declare name).enter names with own := some v.count } body).2) := by
  obtain ⟨s, Γ, hΓ⟩ := v.exists_scopes_declare name
  obtain ⟨s', hs'⟩ := Stmt.exists_scopes_marksList
    (v := { (v.declare name).enter names with own := some v.count }) rfl body
  have hleave := h.follows.leave (v := v.declare name) hs' hf.owned
  have hreturns := hleave.innermost_returns hΓ
  refine ⟨rightAfter_append.mpr ⟨h.right, hreturns, trivial⟩, ?_, rfl⟩
  rw [← List.append_assoc]
  exact hleave.log_append (by simp)

end Function

section Statements

theorem resolveAssign_reads {log : List Mark} {env env' : Env} {v : Sight} {loc target : Location}
    {name : Bytes} {value : Expr} {s : Stmt} (hf : Follows log env v)
    (hcalls : RightCalls log (value.calls v.scopes))
    (h : resolveAssign env loc target name value = .ok (s, env')) :
    Reads log env.function env' (s.marks v) := by
  have hlog := hf.log_append hcalls.not_served
  rcases resolveAssign_eq_ok h with ⟨-, rfl, rfl⟩ | ⟨m, type, -, -, rfl, rfl⟩
  · exact ⟨hcalls.rightAfter, hlog.bind (by simp), rfl⟩
  · have hsame (m : Meaning) : ({ m with type } : Meaning).name = m.name ∧
        ({ m with type } : Meaning).returns? = m.returns? := ⟨rfl, rfl⟩
    refine ⟨hcalls.rightAfter, hlog.modify hsame name, ?_⟩
    unfold Env.modify
    split <;> rfl

theorem Reads.toStmt {log : List Mark} {env env' : Env} {v : Sight} {chain : Alternate}
    (h : Reads log env.function env' (chain.marks v)) (loc : Location) :
    Reads log env.function env' ((chain.toStmt loc).marks v) := by
  cases chain with
  | none => exact h
  | block => exact h
  | branch => exact h

mutual

theorem analyzeStmt_reads {log : List Mark} {env env' : Env} {v : Sight} (hf : Follows log env v) :
    (g : Grammar.Stmt) → {s : Stmt} → analyzeStmt env g = .ok (s, env') →
      Reads log env.function env' (s.marks v)
  | .print loc value, _, h => by
    obtain ⟨e, he, h⟩ := Analysed.exists_of_bind h
    cases h
    exact .ofCalls hf (analyzeExpr_calls hf value he)
  | .assign loc target value, _, h => by
    unfold analyzeStmt at h
    split at h
    · obtain ⟨e, he, h⟩ := Analysed.exists_of_bind h
      exact resolveAssign_reads hf (analyzeExpr_calls hf value he) h
    · cases h
  | .function loc name params bodyLoc body, _, h => by
    unfold analyzeStmt at h
    split at h
    · cases h
    · obtain ⟨inner, hi, h⟩ := Analysed.exists_of_bind h
      obtain ⟨⟨ss, last⟩, hss, h⟩ := Analysed.exists_of_bind h
      cases h
      have hbody := analyzeStmts_reads (hf.functionBody hi) body hss
      exact .declaration (hf.declare name params.length) hbody
  | .serve loc value, _, h => by
    unfold analyzeStmt at h
    split at h
    · obtain ⟨e, he, h⟩ := Analysed.exists_of_bind h
      cases h
      have hcalls := analyzeExpr_calls hf value he
      have hserve := (hf.log_append hcalls.not_served).serve e.type
      refine (Reads.ofCalls hf hcalls).andThen ⟨?_, hserve, ?_⟩
      · cases v.own with
        | none => trivial
        | some f => exact ⟨trivial, trivial⟩
      · unfold Env.noteReturn
        split <;> rfl
    · cases h
  | .branch loc arms, _, h => by
    obtain ⟨⟨chain, last⟩, hc, h⟩ := Analysed.exists_of_bind h
    obtain ⟨_, _, h⟩ := Analysed.exists_of_bind h
    cases h
    exact (analyzeArms_reads hf arms hc).toStmt loc
  | .loop loc counter rangeLoc bound bodyLoc body, _, h => by
    unfold analyzeStmt at h
    split at h
    · rename_i counterLoc name
      obtain ⟨e, he, h⟩ := Analysed.exists_of_bind h
      obtain ⟨_, _, h⟩ := Analysed.exists_of_bind h
      obtain ⟨⟨ss, last⟩, hss, h⟩ := Analysed.exists_of_bind h
      cases h
      have hcalls := analyzeExpr_calls hf bound he
      have hlog := hf.log_append hcalls.not_served
      have hcounter := (hlog.enter true env.inFunction).bind
        (m := ⟨.loopVariable, name, .number, 0, .unknown⟩) (by simp)
      exact (Reads.ofCalls hf hcalls).andThen
        (.block hlog [name] (analyzeStmts_reads hcounter body hss))
    · cases h
  | .leave loc, _, h => by
    unfold analyzeStmt at h
    split at h
    · cases h
      exact .ofCalls hf (fun _ hm => nomatch hm)
    · cases h
  | .comment .., _, h => by
    cases h
    exact .ofCalls hf (fun _ hm => nomatch hm)
  | .expression loc value, _, h => by
    obtain ⟨e, he, h⟩ := Analysed.exists_of_bind h
    cases h
    exact .ofCalls hf (analyzeExpr_calls hf value he)

theorem analyzeArms_reads {log : List Mark} {env env' : Env} {v : Sight} (hf : Follows log env v) :
    (arms : Grammar.Arms) → {a : Alternate} → analyzeArms env arms = .ok (a, env') →
      Reads log env.function env' (a.marks v)
  | .done, _, h => by
    cases h
    exact .ofCalls hf (fun _ hm => nomatch hm)
  | .otherwise bodyLoc body, _, h => by
    obtain ⟨⟨ss, last⟩, hss, h⟩ := Analysed.exists_of_bind h
    cases h
    exact .block hf [] (analyzeStmts_reads (hf.enter _ _) body hss)
  | .arm loc condition bodyLoc body rest, _, h => by
    obtain ⟨e, he, h⟩ := Analysed.exists_of_bind h
    obtain ⟨⟨ss, mid⟩, hss, h⟩ := Analysed.exists_of_bind h
    obtain ⟨⟨a, last⟩, ha, h⟩ := Analysed.exists_of_bind h
    cases h
    have hcalls := analyzeExpr_calls hf condition he
    have hlog := hf.log_append hcalls.not_served
    have hblock := (Reads.ofCalls hf hcalls).andThen
      (.block hlog [] (analyzeStmts_reads (hlog.enter _ _) body hss))
    have hrest := analyzeArms_reads hblock.follows rest ha
    rw [hblock.same_function] at hrest
    exact hblock.andThen hrest

theorem analyzeStmts_reads {log : List Mark} {env env' : Env} {v : Sight}
    (hf : Follows log env v) :
    (gs : List Grammar.Stmt) → {ss : List Stmt} → analyzeStmts env gs = .ok (ss, env') →
      Reads log env.function env' (Stmt.marksList v ss)
  | [], _, h => by
    cases h
    exact .ofCalls hf (fun _ hm => nomatch hm)
  | g :: gs, _, h => by
    obtain ⟨⟨s, mid⟩, hs, h⟩ := Analysed.exists_of_bind h
    obtain ⟨⟨ss, last⟩, hss, h⟩ := Analysed.exists_of_bind h
    cases h
    have hfirst := analyzeStmt_reads hf g hs
    have hrest := analyzeStmts_reads hfirst.follows gs hss
    rw [hfirst.same_function] at hrest
    exact hfirst.andThen hrest

end

end Statements

/-! ## Conditionals -/

/-- Blocks of a chain of conditions that end by serving values of known types serve the same type as
the block at its end. -/
def Alternate.ServesAgree (chain : Alternate) : Prop :=
  ∀ last, chain.blocks.2 = some last → ∀ body ∈ chain.blocks.1, ∀ t t',
    terminal? body = some (.serves, t) → terminal? last = some (.serves, t') →
      t ≠ .unknown → t' ≠ .unknown → t = t'

mutual

/-- The chains of conditions in a statement. -/
def Stmt.conditionals : Stmt → List Alternate
  | .block _ body | .function _ _ _ _ body _ | .loop _ _ _ _ _ body => Stmt.conditionalsList body
  | .branch loc condition thenLoc thenBody alternate =>
    .branch loc condition thenLoc thenBody alternate ::
      (Stmt.conditionalsList thenBody ++ alternate.conditionals)
  | .assign .. | .print .. | .serve .. | .leave _ | .comment .. | .expression .. => []

/-- The chains of conditions in the blocks of a chain. -/
def Alternate.conditionals : Alternate → List Alternate
  | .none => []
  | .block _ body => Stmt.conditionalsList body
  | .branch _ _ _ thenBody alternate =>
    Stmt.conditionalsList thenBody ++ alternate.conditionals

def Stmt.conditionalsList : List Stmt → List Alternate
  | [] => []
  | s :: ss => s.conditionals ++ Stmt.conditionalsList ss

end

theorem checkBranches_servesAgree {loc : Location} {chain : Alternate}
    (h : checkBranches loc chain = .ok ()) : chain.ServesAgree := by
  intro last hlast body hbody t t' ht ht' hknown hknown'
  unfold checkBranches at h
  split at h
  · rename_i hblocks
    rw [hblocks] at hlast
    cases hlast
  · rename_i bodies last' hblocks
    rw [hblocks] at hlast hbody
    cases hlast
    split at h
    · rename_i hall
      have hagree := List.all_eq_true.mp hall body hbody
      rw [branchesAgree, ht, ht'] at hagree
      simpa [hknown, hknown'] using hagree
    · cases h

mutual

theorem analyzeStmt_servesAgree {env env' : Env} :
    (g : Grammar.Stmt) → {s : Stmt} → analyzeStmt env g = .ok (s, env') →
      ∀ c ∈ s.conditionals, c.ServesAgree
  | .print .., _, h | .expression .., _, h => by
    obtain ⟨e, -, h⟩ := Analysed.exists_of_bind h
    cases h
    intro c hc
    cases hc
  | .assign loc target value, _, h => by
    unfold analyzeStmt at h
    split at h
    · obtain ⟨e, -, h⟩ := Analysed.exists_of_bind h
      rcases resolveAssign_eq_ok h with ⟨-, rfl, -⟩ | ⟨m, type, -, -, rfl, -⟩
      · intro c hc
        cases hc
      · intro c hc
        cases hc
    · cases h
  | .function loc name params bodyLoc body, _, h => by
    unfold analyzeStmt at h
    split at h
    · cases h
    · obtain ⟨inner, -, h⟩ := Analysed.exists_of_bind h
      obtain ⟨⟨ss, last⟩, hss, h⟩ := Analysed.exists_of_bind h
      cases h
      exact analyzeStmts_servesAgree body hss
  | .serve loc value, _, h => by
    unfold analyzeStmt at h
    split at h
    · obtain ⟨e, -, h⟩ := Analysed.exists_of_bind h
      cases h
      intro c hc
      cases hc
    · cases h
  | .branch loc arms, _, h => by
    obtain ⟨⟨chain, last⟩, hchain, h⟩ := Analysed.exists_of_bind h
    obtain ⟨_, hcheck, h⟩ := Analysed.exists_of_bind h
    cases h
    have hinner := analyzeArms_servesAgree arms hchain
    cases chain with
    | none => exact hinner
    | block => exact hinner
    | branch =>
      intro c hc
      rcases List.mem_cons.mp hc with rfl | hc
      · exact checkBranches_servesAgree hcheck
      · exact hinner c hc
  | .loop loc counter rangeLoc bound bodyLoc body, _, h => by
    unfold analyzeStmt at h
    split at h
    · obtain ⟨e, -, h⟩ := Analysed.exists_of_bind h
      obtain ⟨_, -, h⟩ := Analysed.exists_of_bind h
      obtain ⟨⟨ss, last⟩, hss, h⟩ := Analysed.exists_of_bind h
      cases h
      exact analyzeStmts_servesAgree body hss
    · cases h
  | .leave loc, _, h => by
    unfold analyzeStmt at h
    split at h
    · cases h
      intro c hc
      cases hc
    · cases h
  | .comment .., _, h => by
    cases h
    intro c hc
    cases hc

theorem analyzeArms_servesAgree {env env' : Env} :
    (arms : Grammar.Arms) → {a : Alternate} → analyzeArms env arms = .ok (a, env') →
      ∀ c ∈ a.conditionals, c.ServesAgree
  | .done, _, h => by
    cases h
    intro c hc
    cases hc
  | .otherwise bodyLoc body, _, h => by
    obtain ⟨⟨ss, last⟩, hss, h⟩ := Analysed.exists_of_bind h
    cases h
    exact analyzeStmts_servesAgree body hss
  | .arm loc condition bodyLoc body rest, _, h => by
    obtain ⟨e, -, h⟩ := Analysed.exists_of_bind h
    obtain ⟨⟨ss, mid⟩, hss, h⟩ := Analysed.exists_of_bind h
    obtain ⟨⟨a, last⟩, ha, h⟩ := Analysed.exists_of_bind h
    cases h
    intro c hc
    rcases List.mem_append.mp hc with hc | hc
    · exact analyzeStmts_servesAgree body hss c hc
    · exact analyzeArms_servesAgree rest ha c hc

theorem analyzeStmts_servesAgree {env env' : Env} :
    (gs : List Grammar.Stmt) → {ss : List Stmt} → analyzeStmts env gs = .ok (ss, env') →
      ∀ c ∈ Stmt.conditionalsList ss, c.ServesAgree
  | [], _, h => by
    cases h
    intro c hc
    cases hc
  | g :: gs, _, h => by
    obtain ⟨⟨s, mid⟩, hs, h⟩ := Analysed.exists_of_bind h
    obtain ⟨⟨ss, last⟩, hss, h⟩ := Analysed.exists_of_bind h
    cases h
    intro c hc
    rcases List.mem_append.mp hc with hc | hc
    · exact analyzeStmt_servesAgree g hs c hc
    · exact analyzeStmts_servesAgree gs hss c hc

end

/-! ## Programs -/

/-- The marks of an analysed program have the types that the marks before them say. -/
theorem analyze_rightAfter {tree : Grammar.Tree} {p : Program} (h : analyze tree = .ok p) :
    RightAfter [] p.marks := by
  obtain ⟨env, hss⟩ := analyze_eq_ok h
  exact (analyzeStmts_reads .start _ hss).right

/-- A function has served all its values by the end of its declaration. -/
theorem Program.returnsAfter_marks {p : Program} {before after : List Mark} {f : Nat}
    {r : ValueType} (h : p.marks = before ++ .declared f r :: after) :
    returnsAfter p.marks f = returnsAfter before f := by
  have hordered := (Stmt.numbered_marksList Sight.start_counted p.statements).ordered
  change p.marks.Pairwise Mark.Precedes at hordered
  rw [h, List.pairwise_append, List.pairwise_cons] at hordered
  rw [h]
  -- The values served in `before` are the only ones.
  refine returnsAfter_append_of_notMem (fun t ht => ?_) before
  rcases List.mem_cons.mp ht with ht | ht
  · cases ht
  · exact hordered.2.1.1 _ ht f r t rfl rfl

/-- The types of functions and calls in an analysed program are those that the text says. A function
returns the first known type that it serves. A call has the first known type that its function has
served before it in the text, which is the one that the function returns, and is a number if there is
none. The values that end the blocks of a conditional have one type. -/
theorem analyze_returnTypes {tree : Grammar.Tree} {p : Program} (h : analyze tree = .ok p) :
    (∀ f r, .declared f r ∈ p.marks → r = firstKnown (servedTypes f p.marks)) ∧
      (∀ before f t after, p.marks = before ++ .called f t :: after →
        t = (firstKnown (servedTypes f before)).orNumber ∧
          ∃ r, .declared f r ∈ p.marks ∧
            (firstKnown (servedTypes f before) ≠ .unknown → t = r)) ∧
      ∀ c ∈ Stmt.conditionalsList p.statements, c.ServesAgree := by
  have hright := analyze_rightAfter h
  have hreturns : ∀ f r, .declared f r ∈ p.marks → r = firstKnown (servedTypes f p.marks) := by
    intro f r hr
    obtain ⟨before, after, hmarks⟩ := List.append_of_mem hr
    have hdeclared : r = returnsAfter before f := hright.right hmarks
    exact hdeclared.trans (p.returnsAfter_marks hmarks).symm
  refine ⟨hreturns, fun before f t after hmarks => ?_, ?_⟩
  · have hcalled : t = (firstKnown (servedTypes f before)).orNumber := hright.right hmarks
    have hnumbered := Stmt.numbered_marksList Sight.start_counted p.statements
    have hmem : .called f t ∈ p.marks := by simp [hmarks]
    obtain ⟨r, hr⟩ := (hnumbered.declared f).mpr ⟨Nat.zero_le f, hnumbered.called f t hmem⟩
    refine ⟨hcalled, r, hr, fun hknown => ?_⟩
    have hall : returnsAfter p.marks f = returnsAfter before f := by
      rw [hmarks, returnsAfter_append]
      exact if_neg hknown
    rw [hcalled, ValueType.orNumber, if_neg hknown, hreturns f r hr]
    exact hall.symm
  · obtain ⟨env, hss⟩ := analyze_eq_ok h
    exact analyzeStmts_servesAgree _ hss

/-- A function that calls itself before it serves a string. -/
def greetingTree : Grammar.Tree :=
  ⟨0,
    [.function {} (ascii "f") [⟨ascii "n", {}⟩] {}
      [.branch {} (.arm {} (.compare {} .gt (.identifier {} (ascii "n"))
            (.number {} (.ofNat 1) (ascii "1"))) {}
          [.print {} (.call {} (ascii "f") [.binary {} .sub (.identifier {} (ascii "n"))
            (.number {} (.ofNat 1) (ascii "1"))])] .done),
        .serve {} (.string {} (ascii "done"))]]⟩

/-- The program of `greetingTree`. -/
def greetingProgram : Program :=
  let n : Expr := .identifier ⟨{}, ascii "n", .number, false⟩
  ⟨[.function {} (ascii "f") [ascii "n"] {}
      [.branch {} (.compare {} .gt n (.number {} (.ofNat 1))) {}
          [.print {} (.call {} (ascii "f")
            [.binary {} .sub n (.number {} (.ofNat 1)) .number] .number false)] .none,
        .serve {} (.string {} (ascii "done"))] .string]⟩

/-- A string is what the function is known to return, but not yet where it calls itself. -/
theorem greeting_returnTypes :
    analyze greetingTree = .ok greetingProgram ∧
      greetingProgram.marks = [.called 0 .number, .served 0 .string, .declared 0 .string] ∧
      .string = firstKnown (servedTypes 0 greetingProgram.marks) ∧
      .number = (firstKnown (servedTypes 0 [])).orNumber := by
  have hanalyze : analyze greetingTree = .ok greetingProgram := by rfl
  have hmarks : greetingProgram.marks =
      [.called 0 .number, .served 0 .string, .declared 0 .string] := by decide +kernel
  obtain ⟨hreturns, hcalls, -⟩ := analyze_returnTypes hanalyze
  refine ⟨hanalyze, hmarks, hreturns 0 .string ?_, (hcalls [] 0 .number _ hmarks).1⟩
  rw [hmarks]
  decide

/-! ## Other types -/

/-- Every value of a known type that a function serves has the type that the function returns. -/
def Program.ServesReturnType (p : Program) : Prop :=
  ∀ f r t, .declared f r ∈ p.marks → .served f t ∈ p.marks → t ≠ .unknown → t = r

/-- Every call of a function has the type that the function returns, if that is known. -/
def Program.CallsReturnType (p : Program) : Prop :=
  ∀ f r t, .declared f r ∈ p.marks → .called f t ∈ p.marks → r ≠ .unknown → t = r

/-- A function that serves a string or its argument. -/
def chooserTree : Grammar.Tree :=
  ⟨0,
    [.function {} (ascii "f") [⟨ascii "n", {}⟩] {}
      [.branch {} (.arm {} (.compare {} .gt (.identifier {} (ascii "n"))
            (.number {} (.ofNat 1) (ascii "1"))) {}
          [.serve {} (.string {} (ascii "many"))] .done),
        .serve {} (.identifier {} (ascii "n"))]]⟩

/-- The program of `chooserTree`. -/
def chooserProgram : Program :=
  let n : Expr := .identifier ⟨{}, ascii "n", .number, false⟩
  ⟨[.function {} (ascii "f") [ascii "n"] {}
      [.branch {} (.compare {} .gt n (.number {} (.ofNat 1))) {}
          [.serve {} (.string {} (ascii "many"))] .none,
        .serve {} n] .string]⟩

/-- Neither calls nor served values have to be of the type that the function returns. -/
theorem returnType_notShared :
    (analyze greetingTree = .ok greetingProgram ∧ ¬ greetingProgram.CallsReturnType) ∧
      analyze chooserTree = .ok chooserProgram ∧ ¬ chooserProgram.ServesReturnType := by
  refine ⟨⟨by rfl, fun h => ?_⟩, by rfl, fun h => ?_⟩
  · have hstring := h 0 .string .number (by decide +kernel) (by decide +kernel) (by decide)
    cases hstring
  · have hstring := h 0 .string .number (by decide +kernel) (by decide +kernel) (by decide)
    cases hstring

end Roar
