import Roar.Proofs.Target.Lockstep

/-!
# Names in the output are those of their declarations

Every rule of the analysis keeps the lock step with the output, and every name that it looks up is
mentioned there with an explanation (`analyzeStmts_answers`). So a name is written as the declaration
that it means (`analyze_mentions_declared`), unless it ends as the names of bounds do.
-/

namespace Roar

open Piece (introducing mentions)

/-! ## Expressions -/

section Expressions

@[simp] theorem mentions_nil : mentions [] = [] := rfl

@[simp] theorem mentions_append (ps qs : List Piece) :
    mentions (ps ++ qs) = mentions ps ++ mentions qs := List.filterMap_append

@[simp] theorem mentions_plain (text : Bytes) (ps : List Piece) :
    mentions (.plain text :: ps) = mentions ps := rfl

@[simp] theorem mentions_declared (named : Named) (ps : List Piece) :
    mentions (.declared named :: ps) = mentions ps := rfl

@[simp] theorem mentions_bound (output : Bytes) (ps : List Piece) :
    mentions (.bound output :: ps) = mentions ps := rfl

@[simp] theorem mentions_again (output : Bytes) (ps : List Piece) :
    mentions (.again output :: ps) = mentions ps := rfl

@[simp] theorem mentions_mention (m : Mention) (ps : List Piece) :
    mentions (.mention m :: ps) = m :: mentions ps := rfl

@[simp] theorem mentions_commaPieces (lists : List (List Piece)) :
    mentions (commaPieces lists) = (lists.map mentions).flatten :=
  collect_commaPieces mentions_append rfl rfl lists

@[simp] theorem mentions_linePieces (depth : Nat) (pieces : List Piece) :
    mentions (linePieces depth pieces) = mentions pieces := rfl

@[simp] theorem mentions_plainLine (depth : Nat) (text : Bytes) :
    mentions (plainLine depth text) = [] := rfl

theorem mentions_prefixPieces (op : UnaryOp) (operand : List Piece) :
    mentions (prefixPieces op operand) = mentions operand := by
  unfold prefixPieces
  split <;> simp

theorem mentions_merge (st : Naming) (segments : List Segment) :
    mentions (Segment.piecesList st (Segment.merge segments)) =
      mentions (Segment.piecesList st segments) := by
  induction segments with
  | nil => rfl
  | cons s rest ih =>
    cases s with
    | embedded e => simp [Segment.merge, Segment.piecesList, ih]
    | text t =>
      have htext (u : Bytes) (ss : List Segment) :
          mentions (Segment.piecesList st (.text u :: ss)) =
            mentions (Segment.piecesList st ss) := rfl
      rw [Segment.merge, htext, ← ih]
      split
      · rfl
      · split
        · rename_i h
          rw [h, htext, htext]
        · rfl

/-- Joining the pieces of a string changes no mentions. -/
theorem mentions_interpolate (st : Naming) (loc : Location) (segments : List Segment) :
    mentions ((Expr.interpolate loc segments).pieces st) =
      mentions (Segment.piecesList st segments) := by
  rw [← mentions_merge]
  unfold Expr.interpolate
  split <;> rename_i h
  · rw [h]
    rfl
  · rw [h]
    rfl
  · simp [Expr.pieces]

/-- What the analysis looks up is mentioned, in order, and every mention has its explanation. -/
def Answers (G : List Piece) (ls : List Lookup) (ms : List Mention) : Prop :=
  List.Forall₂ (fun l m => l.Meets m ∧ m.Explained G) ls ms

variable {G : List Piece} {env : Env} {st : Naming}

theorem Answers.append {ls ls' : List Lookup} {ms ms' : List Mention} (h : Answers G ls ms)
    (h' : Answers G ls' ms') : Answers G (ls ++ ls') (ms ++ ms') := List.rel_append h h'

theorem Answers.single {m : Mention} {r : Reference} (hl : Lockstep G env m.naming)
    (hr : m.reference = r) (h : m.Explained G) : Answers G [⟨r, env.scopes⟩] [m] :=
  .cons ⟨⟨hr, hl.same⟩, h⟩ .nil

/-- The text of a name that has an entry. -/
theorem Identifier.script_of_found {id : Identifier} {item : Item}
    (h : Scopes.lookup? st.scopes id.name = some item) : id.script st.names = item.output := by
  rw [Identifier.script, Naming.resolve?_names, h]
  rfl

theorem Lockstep.explained_use {loc : Location} {name : Bytes} {type : ValueType} {m : Meaning}
    (h : Lockstep G env st) (hx : env.lookup? name = some m) :
    Mention.Explained G ⟨⟨.use, loc, name⟩, st,
      Identifier.script st.names ⟨loc, name, type, m.isCallable⟩⟩ := by
  by_cases hk : m.kind = .builtin
  · obtain ⟨hmem, hfound, -⟩ := h.of_builtin hx hk
    have htext : Identifier.script st.names ⟨loc, name, type, m.isCallable⟩ =
        builtinScript name := by
      simp [Identifier.script, Naming.resolve?_names, hfound, Meaning.isCallable, hk, hmem]
    rw [htext]
    exact h.explained_of_builtin (r := ⟨.use, loc, name⟩) hx hk
  · exact h.explained_of_user hx hk fun item hfound => Identifier.script_of_found hfound

theorem Lockstep.explained_callee {loc : Location} {name : Bytes} {m : Meaning}
    (h : Lockstep G env st) (hx : env.lookup? name = some m) :
    Mention.Explained G ⟨⟨.callee, loc, name⟩, st,
      calleeScript st.names name (m.kind == .builtin)⟩ := by
  by_cases hk : m.kind = .builtin
  · have htext : calleeScript st.names name (m.kind == .builtin) = builtinScript name := by
      simp [calleeScript, hk]
    rw [htext]
    exact h.explained_of_builtin (r := ⟨.callee, loc, name⟩) hx hk
  · refine h.explained_of_user hx hk fun item hfound => ?_
    simp [calleeScript, hk, Naming.resolve?_names, hfound]

mutual

theorem analyzeExpr_answers (hl : Lockstep G env st) :
    (g : Grammar.Expr) → {e : Expr} → analyzeExpr env g = .ok e →
      Answers G (g.lookups env) (mentions (e.pieces st))
  | .number .., _, h | .string .., _, h | .boolean .., _, h => by
    cases h
    exact .nil
  | .identifier loc name, _, h => by
    obtain ⟨m, type, hx, rfl⟩ := resolveName_eq_ok h
    exact .single hl rfl (hl.explained_use hx)
  | .interpolated loc segments, _, h => by
    obtain ⟨ss, hs, h⟩ := Analysed.exists_of_bind h
    cases h
    rw [mentions_interpolate]
    exact analyzeSegments_answers hl segments hs
  | .binary loc op left right, _, h => by
    obtain ⟨l, hleft, h⟩ := Analysed.exists_of_bind h
    obtain ⟨r, hright, h⟩ := Analysed.exists_of_bind h
    obtain ⟨type, rfl, -⟩ := checkedBinary_eq_ok h
    have happend := (analyzeExpr_answers hl left hleft).append (analyzeExpr_answers hl right hright)
    simpa [Grammar.Expr.lookups, Grammar.Expr.references, Expr.pieces, infixPieces] using happend
  | .compare loc op left right, _, h => by
    obtain ⟨l, hleft, h⟩ := Analysed.exists_of_bind h
    obtain ⟨r, hright, h⟩ := Analysed.exists_of_bind h
    obtain ⟨rfl, -⟩ := resolveCompare_eq_ok h
    have happend := (analyzeExpr_answers hl left hleft).append (analyzeExpr_answers hl right hright)
    simpa [Grammar.Expr.lookups, Grammar.Expr.references, Expr.pieces, infixPieces] using happend
  | .unary loc op operand, _, h => by
    obtain ⟨e, he, h⟩ := Analysed.exists_of_bind h
    obtain ⟨type, rfl, -⟩ := checkedUnary_eq_ok h
    rw [Expr.pieces, mentions_prefixPieces]
    exact analyzeExpr_answers hl operand he
  | .call loc callee args, _, h => by
    obtain ⟨m, hcallee, h⟩ := Analysed.exists_of_bind h
    obtain ⟨as, has, h⟩ := Analysed.exists_of_bind h
    cases h
    obtain ⟨hx, -⟩ := resolveCallee_eq_ok hcallee
    have hname := Answers.single (r := ⟨.callee, loc, callee⟩) hl rfl (hl.explained_callee hx)
    simpa [Grammar.Expr.lookups, Grammar.Expr.references, Expr.pieces] using
      hname.append (analyzeArgs_answers hl _ args has)

theorem analyzeArgs_answers (hl : Lockstep G env st) (recursive : Bool) :
    (gs : List Grammar.Expr) → {es : List Expr} → analyzeArgs env recursive gs = .ok es →
      Answers G ((Grammar.Expr.referencesList gs).map (⟨·, env.scopes⟩))
        ((Expr.piecesList st es).map mentions).flatten
  | [], _, h => by
    cases h
    exact .nil
  | g :: gs, _, h => by
    obtain ⟨e, he, h⟩ := Analysed.exists_of_bind h
    obtain ⟨_, -, h⟩ := Analysed.exists_of_bind h
    obtain ⟨es, hes, h⟩ := Analysed.exists_of_bind h
    cases h
    have happend := (analyzeExpr_answers hl g he).append (analyzeArgs_answers hl recursive gs hes)
    simpa [Grammar.Expr.lookups, Grammar.Expr.referencesList, Expr.piecesList] using happend

theorem analyzeSegments_answers (hl : Lockstep G env st) :
    (gs : List Grammar.Segment) → {ss : List Segment} → analyzeSegments env gs = .ok ss →
      Answers G ((Grammar.Segment.referencesList gs).map (⟨·, env.scopes⟩))
        (mentions (Segment.piecesList st ss))
  | [], _, h => by
    cases h
    exact .nil
  | .text t :: gs, _, h => by
    obtain ⟨s, hs, h⟩ := Analysed.exists_of_bind h
    obtain ⟨ss, hss, h⟩ := Analysed.exists_of_bind h
    cases h
    cases hs
    have hrest := analyzeSegments_answers hl gs hss
    simpa [Grammar.Segment.referencesList, Segment.piecesList, Segment.pieces] using hrest
  | .embedded g :: gs, _, h => by
    obtain ⟨s, hs, h⟩ := Analysed.exists_of_bind h
    obtain ⟨ss, hss, h⟩ := Analysed.exists_of_bind h
    obtain ⟨e, he, hs⟩ := Analysed.exists_of_bind hs
    cases h
    cases hs
    have happend := (analyzeExpr_answers hl g he).append (analyzeSegments_answers hl gs hss)
    simpa [Grammar.Expr.lookups, Grammar.Segment.referencesList, Segment.piecesList,
      Segment.pieces] using happend

end

end Expressions

/-! ## Statements -/

section Statements

/-! ### Scopes that are left -/

theorem Naming.outer_pop {st st' : Naming} (h : st'.outer = st.scopes) : st'.pop.outer = st.outer := by
  simp [Naming.pop, h, Naming.scopes]

@[simp] theorem Naming.outer_declareAll (st : Naming) (ds : List Declaration) :
    (st.declareAll ds).2.outer = st.outer := by
  induction ds generalizing st with
  | nil => rfl
  | cons d ds ih => exact ih (st.declare d).2

@[simp] theorem outer_functionHeadPieces (st : Naming) (loc : Location) (name : Bytes)
    (params : List Bytes) :
    (functionHeadPieces st loc name params).2.outer =
      (st.declare ⟨.function, name, loc⟩).2.scopes :=
  Naming.outer_declareAll _ _

@[simp] theorem outer_loopHeadPieces (st : Naming) (counter : Identifier) (bound : Expr) :
    (loopHeadPieces st counter bound).2.outer = st.scopes := by
  by_cases hbound : Script.isLiteralBound bound <;> simp [loopHeadPieces, hbound] <;> rfl

@[simp] theorem outer_assignmentPieces (st : Naming) (target : Identifier) (value : Expr)
    (declares : Bool) : (assignmentPieces st target value declares).2.outer = st.outer := by
  cases declares <;> rfl

mutual

/-- A statement leaves the scopes around its own as they are. -/
theorem Stmt.outer_pieces (depth : Nat) (st : Naming) :
    (s : Stmt) → (s.pieces depth st).2.outer = st.outer
  | .block _ body => Naming.outer_pop (Stmt.outer_piecesList (depth + 1) st.push body)
  | .assign _ target value declares => outer_assignmentPieces st target value declares
  | .print .. | .serve .. | .expression .. | .leave _ | .comment .. => rfl
  | .function loc name params _ body _ =>
    (Naming.outer_pop ((Stmt.outer_piecesList (depth + 1) _ body).trans
      (outer_functionHeadPieces st loc name params))).trans rfl
  | .branch _ _ _ thenBody alternate =>
    (alternate.outer_pieces depth _).trans
      (Naming.outer_pop (Stmt.outer_piecesList (depth + 1) st.push thenBody))
  | .loop _ counter _ bound _ body =>
    Naming.outer_pop ((Stmt.outer_piecesList (depth + 1) _ body).trans
      (outer_loopHeadPieces st counter bound))

theorem Alternate.outer_pieces (depth : Nat) (st : Naming) :
    (a : Alternate) → (a.pieces depth st).2.outer = st.outer
  | .none => rfl
  | .block _ body => Naming.outer_pop (Stmt.outer_piecesList (depth + 1) st.push body)
  | .branch _ _ _ thenBody alternate =>
    (alternate.outer_pieces depth _).trans
      (Naming.outer_pop (Stmt.outer_piecesList (depth + 1) st.push thenBody))

theorem Stmt.outer_piecesList (depth : Nat) (st : Naming) :
    (ss : List Stmt) → (Stmt.piecesList depth st ss).2.outer = st.outer
  | [] => rfl
  | s :: ss => (Stmt.outer_piecesList depth _ ss).trans (s.outer_pieces depth st)

end

/-- A body is left. -/
theorem Lockstep.leave {G : List Piece} {env : Env} {st : Naming} {depth : Nat} {ss : List Stmt}
    (h : Lockstep G env (Stmt.piecesList depth st ss).2) (houter : st.outer ≠ []) :
    Lockstep G env.pop (Stmt.piecesList depth st ss).2.pop :=
  h.pop (by rwa [Stmt.outer_piecesList])

/-! ### Heads -/

variable {G : List Piece} {env env' : Env} {st : Naming}

theorem introducing_functionHeadPieces (st : Naming) (loc : Location) (name : Bytes)
    (params : List Bytes) :
    introducing (functionHeadPieces st loc name params).1 =
      .declared (st.declare ⟨.function, name, loc⟩).1 ::
        ((st.declare ⟨.function, name, loc⟩).2.push.declareAll
          (params.map (⟨.parameter, ·, loc⟩))).1.map .declared := by
  simp [functionHeadPieces, introducing_params]

theorem Lockstep.functionHead {loc : Location} {name : Bytes} {params : List Grammar.Param}
    (hl : Lockstep G env st)
    (hd : Roar.defineParams ((env.define ⟨.function, name, .unknown, params.length, .unknown⟩).push
      false true) params = .ok env')
    (hpieces : introducing (functionHeadPieces st loc name (params.map (·.name))).1 ⊆ G) :
    Lockstep G env' (functionHeadPieces st loc name (params.map (·.name))).2 := by
  rw [introducing_functionHeadPieces, List.map_map, List.cons_subset] at hpieces
  have hname := hl.declare (m := ⟨.function, name, .unknown, params.length, .unknown⟩)
    (d := ⟨.function, name, loc⟩) rfl rfl (fun hb => by cases hb) hpieces.1
  have hparams := (hname.push false true).defineParams hd loc hpieces.2
  simpa [functionHeadPieces, List.map_map, Function.comp_def] using hparams

@[simp] theorem mentions_functionHeadPieces (st : Naming) (loc : Location) (name : Bytes)
    (params : List Bytes) : mentions (functionHeadPieces st loc name params).1 = [] := by
  simp [functionHeadPieces, Function.comp_def]

@[simp] theorem mentions_loopHeadPieces (st : Naming) (counter : Identifier) (bound : Expr) :
    mentions (loopHeadPieces st counter bound).1 = mentions (bound.pieces st) := by
  by_cases hbound : Script.isLiteralBound bound <;> simp [loopHeadPieces, hbound]

/-- The name for the bound is longer than that of the counter. -/
theorem limitName_fresh_ne (used : List Bytes) (name : Bytes) :
    Script.limitName (Names.fresh used name) ≠ name := by
  intro h
  have hlength := (Names.isPrefix_fresh used name).length_le
  have hlonger := congrArg List.length h
  have hsuffix : (ascii "_limit").length = 6 := rfl
  rw [Script.limitName, List.length_append, hsuffix] at hlonger
  omega

theorem Lockstep.loopHead {loc : Location} {name : Bytes} {bound : Expr}
    (hl : Lockstep G env st)
    (hpieces : introducing (loopHeadPieces st ⟨loc, name, .number, false⟩ bound).1 ⊆ G) :
    Lockstep G ((env.push true env.inFunction).define ⟨.loopVariable, name, .number, 0, .unknown⟩)
      (loopHeadPieces st ⟨loc, name, .number, false⟩ bound).2 := by
  have hpush := hl.push true env.inFunction
  by_cases hbound : Script.isLiteralBound bound
  · simp only [loopHeadPieces, hbound, if_true] at hpieces ⊢
    exact hpush.declare rfl rfl (fun hb => by cases hb) (hpieces (by simp))
  · simp only [loopHeadPieces, hbound] at hpieces ⊢
    have hcounter := hpush.declare (m := ⟨.loopVariable, name, .number, 0, .unknown⟩)
      (d := ⟨.loopVariable, name, loc⟩) rfl rfl (fun hb => by cases hb) (hpieces (by simp))
    refine hcounter.keepBound ?_ (hpieces (by simp))
    exact Scopes.lookup_cons_ne (limitName_fresh_ne st.used name) _ []

/-! ### All statements -/

theorem resolveAssign_answers {loc target : Location} {name : Bytes} {g : Grammar.Expr}
    {value : Expr} {s : Stmt} (hl : Lockstep G env st)
    (hv : Answers G (g.lookups env) (mentions (value.pieces st)))
    (h : resolveAssign env loc target name value = .ok (s, env')) (depth : Nat)
    (hpieces : introducing (s.pieces depth st).1.flatten ⊆ G) :
    Answers G ((Grammar.Stmt.assign loc (.identifier target name) g).lookups env)
        (mentions (s.pieces depth st).1.flatten) ∧
      Lockstep G env' (s.pieces depth st).2 := by
  rcases resolveAssign_eq_ok h with ⟨hdeclares, rfl, rfl⟩ | ⟨m, type, hx, hkind, rfl, rfl⟩
  · refine ⟨?_, hl.declare rfl rfl (fun hb => by cases hb) (hpieces ?_)⟩
    · simpa [Grammar.Stmt.lookups, hdeclares, Stmt.pieces, assignmentPieces] using hv
    · simp [Stmt.pieces, assignmentPieces]
  · have huser : m.kind ≠ .builtin := by
      rcases hkind with hkind | hkind <;> simp [hkind]
    have hdeclares : env.declares name = false := by simp [Env.declares, hx, huser]
    have htarget : Mention.Explained G ⟨⟨.target, target, name⟩, st,
        Identifier.script st.names ⟨target, name, type, false⟩⟩ :=
      hl.explained_of_user hx huser fun item hfound => Identifier.script_of_found hfound
    refine ⟨?_, ?_⟩
    · have happend := (Answers.single hl rfl htarget).append hv
      simpa [Grammar.Stmt.lookups, hdeclares, Stmt.pieces, assignmentPieces,
        Identifier.targetReference] using happend
    · refine ⟨hl.same.modify ?_ name, hl.orderly⟩
      exact fun _ => ⟨rfl, rfl⟩

/-- A chain of conditions is written in the same way as a statement, but for its first words. -/
theorem Alternate.pieces_toStmt (chain : Alternate) (loc : Location) (depth : Nat) (st : Naming) :
    mentions ((chain.toStmt loc).pieces depth st).1.flatten =
        mentions (chain.pieces depth st).1.flatten ∧
      introducing ((chain.toStmt loc).pieces depth st).1.flatten =
        introducing (chain.pieces depth st).1.flatten ∧
      ((chain.toStmt loc).pieces depth st).2 = (chain.pieces depth st).2 := by
  cases chain with
  | none => exact ⟨rfl, rfl, rfl⟩
  | block => simp [Alternate.toStmt, Stmt.pieces, Alternate.pieces]
  | branch => simp [Alternate.toStmt, Stmt.pieces, Alternate.pieces]

mutual

theorem analyzeStmt_answers {env env' : Env} {st : Naming} (hl : Lockstep G env st) (depth : Nat) :
    (g : Grammar.Stmt) → {s : Stmt} → analyzeStmt env g = .ok (s, env') →
      introducing (s.pieces depth st).1.flatten ⊆ G →
      Answers G (g.lookups env) (mentions (s.pieces depth st).1.flatten) ∧
        Lockstep G env' (s.pieces depth st).2
  | .print loc value, _, h, _ | .expression loc value, _, h, _ => by
    obtain ⟨e, he, h⟩ := Analysed.exists_of_bind h
    cases h
    have hvalue := analyzeExpr_answers hl value he
    exact ⟨by simpa [Stmt.pieces, Grammar.Stmt.lookups] using hvalue, hl⟩
  | .assign loc target value, _, h, hpieces => by
    unfold analyzeStmt at h
    split at h
    · obtain ⟨e, he, h⟩ := Analysed.exists_of_bind h
      exact resolveAssign_answers hl (analyzeExpr_answers hl value he) h depth hpieces
    · cases h
  | .function loc name params bodyLoc body, _, h, hpieces => by
    unfold analyzeStmt at h
    split at h
    · cases h
    · obtain ⟨inner, hi, h⟩ := Analysed.exists_of_bind h
      obtain ⟨⟨ss, last⟩, hss, h⟩ := Analysed.exists_of_bind h
      cases h
      obtain ⟨hheadPieces, hbodyPieces⟩ : introducing (functionHeadPieces st loc name _).1 ⊆ G ∧
          introducing (Stmt.piecesList (depth + 1) _ ss).1.flatten ⊆ G := by
        simpa [Stmt.pieces] using hpieces
      have hhead := hl.functionHead hi hheadPieces
      obtain ⟨hbody, hlast⟩ := analyzeStmts_answers (hhead.ofFunction _) (depth + 1) body hss
        hbodyPieces
      refine ⟨?_, (hlast.leave (by simp [Naming.scopes])).ofFunction _⟩
      simpa [Stmt.pieces, Grammar.Stmt.lookups, hi] using hbody
  | .serve loc value, _, h, _ => by
    unfold analyzeStmt at h
    split at h
    · obtain ⟨e, he, h⟩ := Analysed.exists_of_bind h
      cases h
      have hvalue := analyzeExpr_answers hl value he
      refine ⟨by simpa [Stmt.pieces, Grammar.Stmt.lookups] using hvalue, ?_⟩
      exact ⟨hl.same.noteReturn _, hl.orderly⟩
    · cases h
  | .branch loc arms, _, h, hpieces => by
    obtain ⟨⟨chain, last⟩, hc, h⟩ := Analysed.exists_of_bind h
    obtain ⟨_, _, h⟩ := Analysed.exists_of_bind h
    cases h
    obtain ⟨hmentions, hintroducing, hafter⟩ := chain.pieces_toStmt loc depth st
    rw [hintroducing] at hpieces
    rw [hmentions, hafter]
    exact analyzeArms_answers hl depth arms hc hpieces
  | .loop loc counter rangeLoc bound bodyLoc body, _, h, hpieces => by
    unfold analyzeStmt at h
    split at h
    · rename_i counterLoc name
      obtain ⟨e, he, h⟩ := Analysed.exists_of_bind h
      obtain ⟨_, _, h⟩ := Analysed.exists_of_bind h
      obtain ⟨⟨ss, last⟩, hss, h⟩ := Analysed.exists_of_bind h
      cases h
      obtain ⟨hheadPieces, hbodyPieces⟩ : introducing (loopHeadPieces st _ e).1 ⊆ G ∧
          introducing (Stmt.piecesList (depth + 1) _ ss).1.flatten ⊆ G := by
        simpa [Stmt.pieces] using hpieces
      have hhead := hl.loopHead hheadPieces
      obtain ⟨hbody, hlast⟩ := analyzeStmts_answers hhead (depth + 1) body hss hbodyPieces
      refine ⟨?_, hlast.leave (by simp [Naming.scopes])⟩
      simpa [Stmt.pieces, Grammar.Stmt.lookups] using (analyzeExpr_answers hl bound he).append hbody
    · cases h
  | .leave loc, _, h, _ => by
    unfold analyzeStmt at h
    split at h
    · cases h
      exact ⟨.nil, hl⟩
    · cases h
  | .comment .., _, h, _ => by
    cases h
    exact ⟨.nil, hl⟩

theorem analyzeArms_answers {env env' : Env} {st : Naming} (hl : Lockstep G env st) (depth : Nat) :
    (arms : Grammar.Arms) → {a : Alternate} → analyzeArms env arms = .ok (a, env') →
      introducing (a.pieces depth st).1.flatten ⊆ G →
      Answers G (arms.lookups env) (mentions (a.pieces depth st).1.flatten) ∧
        Lockstep G env' (a.pieces depth st).2
  | .done, _, h, _ => by
    cases h
    exact ⟨.nil, hl⟩
  | .otherwise bodyLoc body, _, h, hpieces => by
    obtain ⟨⟨ss, last⟩, hss, h⟩ := Analysed.exists_of_bind h
    cases h
    have hbodyPieces : introducing (Stmt.piecesList (depth + 1) st.push ss).1.flatten ⊆ G := by
      simpa [Alternate.pieces] using hpieces
    obtain ⟨hbody, hlast⟩ := analyzeStmts_answers hl.pushBlock (depth + 1) body hss hbodyPieces
    refine ⟨?_, hlast.leave (by simp [Naming.push, Naming.scopes])⟩
    simpa [Alternate.pieces, Grammar.Arms.lookups] using hbody
  | .arm loc condition bodyLoc body rest, _, h, hpieces => by
    obtain ⟨e, he, h⟩ := Analysed.exists_of_bind h
    obtain ⟨⟨ss, mid⟩, hss, h⟩ := Analysed.exists_of_bind h
    obtain ⟨⟨a, last⟩, ha, h⟩ := Analysed.exists_of_bind h
    cases h
    obtain ⟨hbodyPieces, hrestPieces⟩ :
        introducing (Stmt.piecesList (depth + 1) st.push ss).1.flatten ⊆ G ∧
          introducing (a.pieces depth (Stmt.piecesList (depth + 1) st.push ss).2.pop).1.flatten ⊆
            G := by
      simpa [Alternate.pieces] using hpieces
    obtain ⟨hbody, hmid⟩ := analyzeStmts_answers hl.pushBlock (depth + 1) body hss hbodyPieces
    have hleave := hmid.leave (by simp [Naming.push, Naming.scopes])
    obtain ⟨hrest, hlast⟩ := analyzeArms_answers hleave depth rest ha hrestPieces
    refine ⟨?_, hlast⟩
    simpa [Alternate.pieces, Grammar.Arms.lookups, hss] using
      ((analyzeExpr_answers hl condition he).append hbody).append hrest

theorem analyzeStmts_answers {env env' : Env} {st : Naming} (hl : Lockstep G env st) (depth : Nat) :
    (gs : List Grammar.Stmt) → {ss : List Stmt} → analyzeStmts env gs = .ok (ss, env') →
      introducing (Stmt.piecesList depth st ss).1.flatten ⊆ G →
      Answers G (Grammar.Stmt.lookupsList env gs)
          (mentions (Stmt.piecesList depth st ss).1.flatten) ∧
        Lockstep G env' (Stmt.piecesList depth st ss).2
  | [], _, h, _ => by
    cases h
    exact ⟨.nil, hl⟩
  | g :: gs, _, h, hpieces => by
    obtain ⟨⟨s, mid⟩, hs, h⟩ := Analysed.exists_of_bind h
    obtain ⟨⟨ss, last⟩, hss, h⟩ := Analysed.exists_of_bind h
    cases h
    simp only [Stmt.piecesList, List.flatten_append, Piece.introducing_append,
      List.append_subset] at hpieces
    obtain ⟨hfirst, hmid⟩ := analyzeStmt_answers hl depth g hs hpieces.1
    obtain ⟨hrest, hlast⟩ := analyzeStmts_answers hmid depth gs hss hpieces.2
    refine ⟨?_, hlast⟩
    simpa [Grammar.Stmt.lookupsList, hs, Stmt.piecesList] using hfirst.append hrest

end

/-! ## Programs -/

theorem Lockstep.start (G : List Piece) : Lockstep G Env.start {} where
  same := rfl
  orderly :=
    { noted := by
        intro scope hs e he
        rw [List.mem_singleton.mp hs] at he
        cases he
      latest := by
        intro scope hs x output hx
        rw [List.mem_singleton.mp hs] at hx
        cases hx }

/-- Every name that the analysis of a program looks up is mentioned in the output, and every mention
there has its explanation. -/
theorem analyze_answers {tree : Grammar.Tree} {p : Program} (h : analyze tree = .ok p) :
    Answers p.pieces tree.lookups p.mentions := by
  obtain ⟨env, hss⟩ := analyze_eq_ok h
  have hpieces : introducing p.pieces ⊆ p.pieces := List.filter_subset_self _
  exact (analyzeStmts_answers (Lockstep.start _) 0 _ hss hpieces).1

theorem Answers.explained {G : List Piece} {ls : List Lookup} {ms : List Mention}
    (h : Answers G ls ms) : ∀ m ∈ ms, m.Explained G := by
  induction h with
  | nil => simp
  | cons hm _ ih => exact List.forall_mem_cons.mpr ⟨hm.2, ih⟩

/-- The name is written as what it means: a declaration of the program, under the name that this was
introduced with and that the table has for it, or a built-in function. -/
def Mention.IsFaithful (G : List Piece) (m : Mention) : Prop :=
  ∃ d, m.meant = some ⟨d, m.text⟩ ∧
    ((d.IsUser ∧ m.naming.names.resolve? m.reference.name = some m.text ∧
        .declared ⟨d, m.text⟩ ∈ G) ∨
      (d.kind = .builtin ∧ m.naming.names.resolve? m.reference.name = none ∧
        m.text = builtinScript m.reference.name))

theorem Mention.Explained.isFaithful {G : List Piece} {m : Mention} (h : m.Explained G)
    (hname : ¬ IsLimitName m.reference.name) : m.IsFaithful G := by
  have hresolve : m.naming.names.resolve? m.reference.name = m.found.map Item.output :=
    Naming.resolve?_names _ _
  cases h with
  | declared named user meant found text piece _ =>
    obtain ⟨d, output⟩ := named
    obtain rfl : m.text = output := text
    exact ⟨d, meant, .inl ⟨user, by rw [hresolve, found]; rfl, piece⟩⟩
  | captured _ _ _ _ _ _ _ limit _ => exact absurd limit hname
  | builtin _ meant found text _ =>
    rw [← text] at meant
    exact ⟨_, meant, .inr ⟨rfl, by rw [hresolve, found]; rfl, text⟩⟩

/-- The output of an analysed program mentions the names that the analysis looks up, in order and with
the same declarations in sight. Those that do not end as the names of bounds do are written as what
they mean. -/
theorem analyze_mentions_declared (tree : Grammar.Tree) {p : Program} (h : analyze tree = .ok p) :
    generate p (ascii "js") = .ok (Bytes.join (ascii "\n") (p.annotated.map Piece.render)) ∧
      List.Forall₂ Lookup.Meets tree.lookups p.mentions ∧
      ∀ m ∈ p.mentions, ¬ IsLimitName m.reference.name → m.IsFaithful p.pieces := by
  have hanswers := analyze_answers h
  refine ⟨?_, hanswers.imp fun _ _ hm => hm.1, fun m hm hname => ?_⟩
  · rw [← Program.render_annotated]
    rfl
  · exact (hanswers.explained m hm).isFaithful hname

/-- A parameter and a counter with the name of a variable, and a variable with the name of a built-in
function. -/
def reusedNamesTree : Grammar.Tree :=
  ⟨0, [
    .assign {} x (.number {} (.ofNat 4) (ascii "4")),
    .function {} (ascii "f") [⟨ascii "x", {}⟩] {} [.serve {} (.call {} (ascii "sqrt") [x])],
    .assign {} (.identifier {} (ascii "sqrt")) (.call {} (ascii "f") [x]),
    .loop {} x {} (.call {} (ascii "f") [x]) {} [
      .print {} (.binary {} .add x (.identifier {} (ascii "sqrt")))]]⟩
where
  x : Grammar.Expr := .identifier {} (ascii "x")

theorem reusedNames_mentions_declared :
    ∃ p, analyze reusedNamesTree = .ok p ∧
      (generate p (ascii "js") = .ok (Bytes.join (ascii "\n") (p.annotated.map Piece.render)) ∧
        List.Forall₂ Lookup.Meets reusedNamesTree.lookups p.mentions ∧
        ∀ m ∈ p.mentions, ¬ IsLimitName m.reference.name → m.IsFaithful p.pieces) ∧
      p.mentions.map (·.text) =
        ["Math.sqrt", "x_2", "f", "x", "f", "x", "x_3", "sqrt"].map ascii :=
  ⟨_, rfl, analyze_mentions_declared reusedNamesTree rfl, by decide +kernel⟩

end Statements

end Roar
