import Roar.Proofs.Grammar.Derivation
import Roar.Proofs.Scoping.Analysis

/-!
# The places of a tree

Every place in a parse tree is that of a token (`Derives.Statements.placed`), and a fault that analysis
finds stands at a place of the tree (`analyzeStmts_within`). Comments are left out: they are no tokens,
and analysis finds no fault in them.
-/

namespace Roar

namespace Grammar

/-! ## Trees -/

section

variable (P : Location → Prop)

mutual

/-- All places of the expression are such. -/
def Expr.Placed : Expr → Prop
  | .number loc .. | .string loc _ | .boolean loc _ | .identifier loc _ => P loc
  | .interpolated loc segments => P loc ∧ Segment.PlacedList segments
  | .binary loc _ left right | .compare loc _ left right => P loc ∧ left.Placed ∧ right.Placed
  | .unary loc _ operand => P loc ∧ operand.Placed
  | .call loc _ args => P loc ∧ Expr.PlacedList args

def Expr.PlacedList : List Expr → Prop
  | [] => True
  | e :: es => e.Placed ∧ Expr.PlacedList es

def Segment.Placed : Segment → Prop
  | .text _ => True
  | .embedded value => value.Placed

def Segment.PlacedList : List Segment → Prop
  | [] => True
  | s :: ss => s.Placed ∧ Segment.PlacedList ss

end

mutual

/-- All places of the statement, but for those of comments, are such. -/
def Stmt.Placed : Stmt → Prop
  | .print loc value | .serve loc value | .expression loc value => P loc ∧ value.Placed P
  | .assign loc target value => P loc ∧ target.Placed P ∧ value.Placed P
  | .function loc _ params bodyLoc body =>
    P loc ∧ (∀ p ∈ params, P p.loc) ∧ P bodyLoc ∧ Stmt.PlacedList body
  | .branch loc arms => P loc ∧ arms.Placed
  | .loop loc counter rangeLoc bound bodyLoc body =>
    P loc ∧ counter.Placed P ∧ P rangeLoc ∧ bound.Placed P ∧ P bodyLoc ∧ Stmt.PlacedList body
  | .leave loc => P loc
  | .comment .. => True

def Arms.Placed : Arms → Prop
  | .done => True
  | .otherwise bodyLoc body => P bodyLoc ∧ Stmt.PlacedList body
  | .arm loc condition bodyLoc body rest =>
    P loc ∧ condition.Placed P ∧ P bodyLoc ∧ Stmt.PlacedList body ∧ rest.Placed

def Stmt.PlacedList : List Stmt → Prop
  | [] => True
  | s :: ss => s.Placed ∧ Stmt.PlacedList ss

end

end

variable {P : Location → Prop}

theorem Expr.Placed.loc {e : Expr} (h : e.Placed P) : P e.loc := by
  cases e with
  | number | string | boolean | identifier => exact h
  | interpolated | binary | compare | unary | call => exact h.1

theorem Segment.PlacedList.append {ss ss' : List Segment} (h : Segment.PlacedList P ss)
    (h' : Segment.PlacedList P ss') : Segment.PlacedList P (ss ++ ss') := by
  induction ss with
  | nil => exact h'
  | cons s ss ih => exact ⟨h.1, ih h.2⟩

theorem Stmt.PlacedList.append {ss ss' : List Stmt} (h : Stmt.PlacedList P ss)
    (h' : Stmt.PlacedList P ss') : Stmt.PlacedList P (ss ++ ss') := by
  induction ss with
  | nil => exact h'
  | cons s ss ih => exact ⟨h.1, ih h.2⟩

/-! ## Derivations -/

namespace Derives

theorem Text.placed {value : Bytes} {ss : List Segment} (h : Text value ss) :
    Segment.PlacedList P ss := by
  cases h with
  | empty => trivial
  | text => exact ⟨trivial, trivial⟩

/-- All tokens stand at such places. -/
def Standing (P : Location → Prop) (ts : List Token) : Prop := ∀ t ∈ ts, P t.location

@[simp] theorem standing_nil : Standing P [] := by
  intro t ht
  cases ht

@[simp] theorem standing_cons {t : Token} {ts : List Token} :
    Standing P (t :: ts) ↔ P t.location ∧ Standing P ts := List.forall_mem_cons

@[simp] theorem standing_append {ts us : List Token} :
    Standing P (ts ++ us) ↔ Standing P ts ∧ Standing P us := List.forall_mem_append

mutual

theorem Expression.placed {ts : List Token} {e : Expr} :
    Expression ts e → Standing P ts → e.Placed P
  | .operand operand, h => operand.placed h
  | .more first _ last, h => by
    simp only [standing_append, standing_cons] at h
    exact ⟨h.2.1, first.placed h.1, last.placed h.2.2⟩

theorem Conjunction.placed {ts : List Token} {e : Expr} :
    Conjunction ts e → Standing P ts → e.Placed P
  | .operand operand, h => operand.placed h
  | .more first _ last, h => by
    simp only [standing_append, standing_cons] at h
    exact ⟨h.2.1, first.placed h.1, last.placed h.2.2⟩

theorem Comparison.placed {ts : List Token} {e : Expr} :
    Comparison ts e → Standing P ts → e.Placed P
  | .operand operand, h => operand.placed h
  | .compare first _ last, h => by
    simp only [standing_append, standing_cons] at h
    exact ⟨h.1.2.1, first.placed h.1.1, last.placed h.2⟩

theorem Addition.placed {ts : List Token} {e : Expr} :
    Addition ts e → Standing P ts → e.Placed P
  | .operand operand, h => operand.placed h
  | .more first _ last, h => by
    simp only [standing_append, standing_cons] at h
    exact ⟨h.2.1, first.placed h.1, last.placed h.2.2⟩

theorem Product.placed {ts : List Token} {e : Expr} :
    Product ts e → Standing P ts → e.Placed P
  | .operand operand, h => operand.placed h
  | .more first _ last, h => by
    simp only [standing_append, standing_cons] at h
    exact ⟨h.2.1, first.placed h.1, last.placed h.2.2⟩

theorem Unary.placed {ts : List Token} {e : Expr} : Unary ts e → Standing P ts → e.Placed P
  | .operand operand, h => operand.placed h
  | .sign _ operand, h => by
    rw [standing_cons] at h
    exact ⟨h.1, operand.placed h.2⟩

theorem Primary.placed {ts : List Token} {e : Expr} : Primary ts e → Standing P ts → e.Placed P
  | .number _, h => (standing_cons.mp h).1
  | .string _, h => (standing_cons.mp h).1
  | .interpolated _ text segments, h => by
    rw [standing_cons] at h
    exact ⟨h.1, text.placed.append (segments.placed h.2)⟩
  | .yes _, h => (standing_cons.mp h).1
  | .no _, h => (standing_cons.mp h).1
  | .name _, h => (standing_cons.mp h).1
  | .call _ _ arguments _, h => by
    simp only [standing_append, standing_cons] at h
    exact ⟨h.1.1, arguments.placed h.1.2.2⟩
  | .group _ inner _, h => by
    simp only [standing_append, standing_cons] at h
    exact inner.placed h.1.2

theorem Arguments.placed {ts : List Token} {es : List Expr} :
    Arguments ts es → Standing P ts → Expr.PlacedList P es
  | .none, _ => trivial
  | .some list, h => list.placed h

theorem ArgumentList.placed {ts : List Token} {es : List Expr} :
    ArgumentList ts es → Standing P ts → Expr.PlacedList P es
  | .one argument, h => ⟨argument.placed h, trivial⟩
  | .more first _ rest, h => by
    simp only [standing_append, standing_cons] at h
    exact ⟨first.placed h.1, rest.placed h.2.2⟩

theorem Segments.placed {ts : List Token} {ss : List Segment} :
    Segments ts ss → Standing P ts → Segment.PlacedList P ss
  | .last first _ last, h => by
    rw [standing_append] at h
    exact (first.placed h.1).append last.placed
  | .more first _ middle last, h => by
    simp only [standing_append, standing_cons] at h
    exact ((first.placed h.1).append middle.placed).append (last.placed h.2.2)

theorem Embedded.placed {ts : List Token} {ss : List Segment} :
    Embedded ts ss → Standing P ts → Segment.PlacedList P ss
  | .none, _ => trivial
  | .value value, h => ⟨value.placed h, trivial⟩

end

theorem ParamList.placed {ts : List Token} {params : List Param} (h : ParamList ts params)
    (hts : Standing P ts) : ∀ p ∈ params, P p.loc := by
  induction h with
  | one => simpa using hts
  | more _ _ _ ih =>
    simp only [standing_cons] at hts
    exact List.forall_mem_cons.mpr ⟨hts.1, ih hts.2.2⟩

theorem Params.placed {ts : List Token} {params : List Param} (h : Params ts params)
    (hts : Standing P ts) : ∀ p ∈ params, P p.loc := by
  cases h with
  | none => simp
  | some list => exact list.placed hts

theorem Enclosed.placed {ts : List Token} {e : Expr} (h : Enclosed ts e) (hts : Standing P ts) :
    e.Placed P := by
  cases h with
  | parens _ inner _ =>
    simp only [standing_append, standing_cons] at hts
    exact inner.placed hts.1.2

theorem notes_placed (t : Token) : Stmt.PlacedList P (notes t) := by
  unfold notes
  induction t.comments with
  | nil => trivial
  | cons c cs ih => exact ⟨trivial, ih⟩

mutual

theorem Statement.placed {ts : List Token} {s : Stmt} : Statement ts s → Standing P ts → s.Placed P
  | .print _ value, h => by
    rw [standing_cons] at h
    exact ⟨h.1, value.placed h.2⟩
  | .function _ _ _ params _ block, h => by
    simp only [standing_append, standing_cons] at h
    obtain ⟨hloc, hbody⟩ := block.placed h.2.2
    exact ⟨h.1.1, params.placed h.1.2.2.2, hloc, hbody⟩
  | .serve _ value, h => by
    rw [standing_cons] at h
    exact ⟨h.1, value.placed h.2⟩
  | .loop _ counter _ _ bound block, h => by
    simp only [standing_append, standing_cons] at h
    obtain ⟨⟨⟨ht, hcounter⟩, -, hrange, hbound⟩, hblock⟩ := h
    obtain ⟨hloc, hbody⟩ := block.placed hblock
    exact ⟨ht, counter.placed hcounter, hrange, bound.placed hbound, hloc, hbody⟩
  | .branch _ arm, h => by
    rw [standing_cons] at h
    exact ⟨h.1, arm.placed h.1 h.2⟩
  | .leave _, h => (standing_cons.mp h).1
  | .expression value, h => ⟨(standing_cons.mp h).1, value.placed h⟩
  | .assign target _ value, h => by
    obtain ⟨htarget, hrest⟩ := standing_append.mp h
    exact ⟨(standing_cons.mp htarget).1, target.placed htarget,
      value.placed (standing_cons.mp hrest).2⟩

theorem Statements.placed {stop : Token} {ts : List Token} {ss : List Stmt} :
    Statements stop ts ss → Standing P ts → Stmt.PlacedList P ss
  | .nil, _ => notes_placed stop
  | .cons (t := t) first rest, h => by
    rw [standing_append] at h
    exact (notes_placed t).append ⟨first.placed h.1, rest.placed h.2⟩

theorem Block.placed {ts : List Token} {loc : Location} {ss : List Stmt} :
    Block ts loc ss → Standing P ts → P loc ∧ Stmt.PlacedList P ss
  | .block _ body _, h => by
    simp only [standing_append, standing_cons] at h
    exact ⟨h.1.1, body.placed h.1.2⟩

theorem Arm.placed {ts : List Token} {loc : Location} {arms : Arms} :
    Arm ts loc arms → P loc → Standing P ts → arms.Placed P
  | .arm condition block rest, hloc, h => by
    simp only [standing_append] at h
    obtain ⟨hbar, hbody⟩ := block.placed h.1.2
    exact ⟨hloc, condition.placed h.1.1, hbar, hbody, rest.placed h.2⟩

theorem MoreArms.placed {ts : List Token} {arms : Arms} :
    MoreArms ts arms → Standing P ts → arms.Placed P
  | .done, _ => trivial
  | .otherwise _ block, h => block.placed (standing_cons.mp h).2
  | .arm _ arm, h => by
    rw [standing_cons] at h
    exact arm.placed h.1 h.2

end

end Derives

end Grammar

/-! ## Analysis -/

variable {P : Location → Prop} {α β : Type} {env : Env}

/-- If there is a fault, it stands at such a place. -/
def Analysed.Within (P : Location → Prop) (r : Analysed α) : Prop :=
  ∀ fault, r = .error fault → P fault.loc

namespace Analysed

theorem within_ok (a : α) : Within P (.ok a : Analysed α) := by
  intro fault h
  cases h

theorem within_error {fault : SemanticFault} (h : P fault.loc) :
    Within P (.error fault : Analysed α) := by
  intro fault' h'
  cases h'
  exact h

theorem within_raise {e : SemanticError} {loc : Location} (h : P loc) :
    Within P (e.raise loc : Analysed α) := within_error h

theorem Within.bind {x : Analysed α} {f : α → Analysed β} (hx : x.Within P)
    (hf : ∀ a, x = .ok a → (f a).Within P) : (x >>= f).Within P := by
  cases x with
  | error fault =>
    intro fault' h
    cases h
    exact hx fault rfl
  | ok a => exact hf a rfl

theorem within_ite {c : Prop} [Decidable c] {x y : Analysed α} (hx : c → x.Within P)
    (hy : ¬ c → y.Within P) : (if c then x else y).Within P := by
  split
  · rename_i h
    exact hx h
  · rename_i h
    exact hy h

end Analysed

open Analysed

theorem resolveName_within {loc : Location} (h : P loc) (name : Bytes) :
    (resolveName env loc name).Within P := by
  unfold resolveName
  split
  · exact within_raise h
  · exact within_ite (fun _ => within_ok _) fun _ => within_ok _

theorem checkedBinary_within {loc : Location} (h : P loc) (op : BinaryOp) (left right : Expr) :
    Within P (Expr.checkedBinary loc op left right) := by
  unfold Expr.checkedBinary
  split
  · exact within_error h
  · exact within_ite (fun _ => within_error h) fun _ => within_ok _

theorem resolveCompare_within {loc : Location} (h : P loc) (op : CompareOp) (left right : Expr) :
    (resolveCompare loc op left right).Within P := by
  unfold resolveCompare
  refine within_ite (fun _ => within_raise h) fun _ => ?_
  exact within_ite (fun _ => within_ok _) fun _ => within_error h

theorem checkedUnary_within {loc : Location} (h : P loc) (op : UnaryOp) (operand : Expr) :
    Within P (Expr.checkedUnary loc op operand) := by
  unfold Expr.checkedUnary
  split
  · exact within_error h
  · exact within_ok _

theorem resolveCallee_within {loc : Location} (h : P loc) (name : Bytes) (passed : Nat) :
    (resolveCallee env loc name passed).Within P := by
  unfold resolveCallee
  split
  · exact within_raise h
  · refine within_ite (fun _ => within_raise h) fun _ => ?_
    exact within_ite (fun _ => within_raise h) fun _ => within_ok _

theorem checkArgument_within {arg : Expr} (h : P arg.loc) (recursive : Bool) :
    (checkArgument recursive arg).Within P := by
  unfold checkArgument
  refine within_ite (fun _ => ?_) fun _ => within_ok _
  exact within_ite (fun _ => within_raise h) fun _ => within_raise h

theorem Expr.loc_interpolate (loc : Location) (segments : List Segment) :
    (Expr.interpolate loc segments).loc = loc := by
  unfold Expr.interpolate
  split <;> rfl

/-- An expression stays where it is. -/
theorem analyzeExpr_loc {g : Grammar.Expr} {e : Expr} (h : analyzeExpr env g = .ok e) :
    e.loc = g.loc := by
  cases g with
  | number | string | boolean =>
    simp only [analyzeExpr] at h
    cases h
    rfl
  | interpolated loc segments =>
    simp only [analyzeExpr] at h
    obtain ⟨ss, -, h⟩ := exists_of_bind h
    cases h
    exact Expr.loc_interpolate loc ss
  | identifier loc name =>
    simp only [analyzeExpr] at h
    obtain ⟨m, type, -, rfl⟩ := resolveName_eq_ok h
    rfl
  | binary loc op left right =>
    simp only [analyzeExpr] at h
    obtain ⟨l, -, h⟩ := exists_of_bind h
    obtain ⟨r, -, h⟩ := exists_of_bind h
    obtain ⟨type, rfl, -⟩ := checkedBinary_eq_ok h
    rfl
  | compare loc op left right =>
    simp only [analyzeExpr] at h
    obtain ⟨l, -, h⟩ := exists_of_bind h
    obtain ⟨r, -, h⟩ := exists_of_bind h
    obtain ⟨rfl, -⟩ := resolveCompare_eq_ok h
    rfl
  | unary loc op operand =>
    simp only [analyzeExpr] at h
    obtain ⟨l, -, h⟩ := exists_of_bind h
    obtain ⟨type, rfl, -⟩ := checkedUnary_eq_ok h
    rfl
  | call loc callee args =>
    simp only [analyzeExpr] at h
    obtain ⟨m, -, h⟩ := exists_of_bind h
    obtain ⟨as, -, h⟩ := exists_of_bind h
    cases h
    rfl

mutual

theorem analyzeExpr_within : (g : Grammar.Expr) → g.Placed P → (analyzeExpr env g).Within P
  | .number .., _ => within_ok _
  | .string .., _ => within_ok _
  | .boolean .., _ => within_ok _
  | .interpolated _ segments, h => (analyzeSegments_within segments h.2).bind fun _ _ => within_ok _
  | .identifier _ name, h => resolveName_within h name
  | .binary _ op left right, h =>
    (analyzeExpr_within left h.2.1).bind fun _ _ =>
      (analyzeExpr_within right h.2.2).bind fun _ _ => checkedBinary_within h.1 op _ _
  | .compare _ op left right, h =>
    (analyzeExpr_within left h.2.1).bind fun _ _ =>
      (analyzeExpr_within right h.2.2).bind fun _ _ => resolveCompare_within h.1 op _ _
  | .unary _ op operand, h =>
    (analyzeExpr_within operand h.2).bind fun _ _ => checkedUnary_within h.1 op _
  | .call _ callee args, h =>
    (resolveCallee_within h.1 callee _).bind fun _ _ =>
      (analyzeArgs_within _ args h.2).bind fun _ _ => within_ok _

theorem analyzeArgs_within (recursive : Bool) :
    (gs : List Grammar.Expr) → Grammar.Expr.PlacedList P gs →
      (analyzeArgs env recursive gs).Within P
  | [], _ => within_ok _
  | g :: gs, h =>
    (analyzeExpr_within g h.1).bind fun _ he =>
      (checkArgument_within (analyzeExpr_loc he ▸ h.1.loc) recursive).bind fun _ _ =>
        (analyzeArgs_within recursive gs h.2).bind fun _ _ => within_ok _

theorem analyzeSegment_within : (s : Grammar.Segment) → s.Placed P → (analyzeSegment env s).Within P
  | .text _, _ => within_ok _
  | .embedded g, h => (analyzeExpr_within g h).bind fun _ _ => within_ok _

theorem analyzeSegments_within :
    (ss : List Grammar.Segment) → Grammar.Segment.PlacedList P ss →
      (analyzeSegments env ss).Within P
  | [], _ => within_ok _
  | s :: ss, h =>
    (analyzeSegment_within s h.1).bind fun _ _ =>
      (analyzeSegments_within ss h.2).bind fun _ _ => within_ok _

end

theorem resolveAssign_within {loc : Location} (h : P loc) (targetLoc : Location) (name : Bytes)
    (value : Expr) : (resolveAssign env loc targetLoc name value).Within P := by
  unfold resolveAssign
  simp only
  split
  · exact within_ok _
  · split
    · exact within_ok _
    · exact within_raise h
    · exact within_raise h
    all_goals exact within_ite (fun _ => within_raise h) fun _ => within_ok _

theorem defineParams_within {params : List Grammar.Param} (h : ∀ p ∈ params, P p.loc) :
    (defineParams env params).Within P := by
  induction params generalizing env with
  | nil => exact within_ok _
  | cons p ps ih =>
    obtain ⟨hp, hps⟩ := List.forall_mem_cons.mp h
    unfold defineParams
    exact within_ite (fun _ => within_raise hp) fun _ => ih hps

theorem checkBranches_within {loc : Location} (h : P loc) (chain : Alternate) :
    (checkBranches loc chain).Within P := by
  unfold checkBranches
  split
  · exact within_ok _
  · exact within_ite (fun _ => within_ok _) fun _ => within_raise h

theorem checkBound_within {loc : Location} (h : P loc) (bound : Expr) :
    (checkBound loc bound).Within P := by
  unfold checkBound
  refine within_ite (fun _ => within_raise h) fun _ => ?_
  exact within_ite (fun _ => within_raise h) fun _ => within_ok _

mutual

theorem analyzeStmt_within {env : Env} :
    (s : Grammar.Stmt) → s.Placed P → (analyzeStmt env s).Within P
  | .print _ value, h => (analyzeExpr_within value h.2).bind fun _ _ => within_ok _
  | .assign _ target value, h => by
    cases target with
    | identifier targetLoc name =>
      exact (analyzeExpr_within value h.2.2).bind fun _ _ => resolveAssign_within h.1 _ _ _
    | _ => exact within_raise h.2.1.loc
  | .function _ _ params _ body, h => by
    simp only [analyzeStmt]
    refine within_ite (fun _ => within_raise h.1) fun _ => ?_
    refine (defineParams_within h.2.1).bind fun _ _ => ?_
    exact (analyzeStmts_within body h.2.2.2).bind fun _ _ => within_ok _
  | .serve _ value, h => by
    simp only [analyzeStmt]
    refine within_ite (fun _ => ?_) fun _ => within_raise h.1
    exact (analyzeExpr_within value h.2).bind fun _ _ => within_ok _
  | .branch _ arms, h =>
    (analyzeArms_within arms h.2).bind fun _ _ =>
      (checkBranches_within h.1 _).bind fun _ _ => within_ok _
  | .loop _ counter _ bound _ body, h => by
    obtain ⟨-, hcounter, -, hbound, -, hbody⟩ := h
    cases counter with
    | identifier counterLoc name =>
      refine (analyzeExpr_within bound hbound).bind fun _ _ => ?_
      refine (checkBound_within hbound.loc _).bind fun _ _ => ?_
      exact (analyzeStmts_within body hbody).bind fun _ _ => within_ok _
    | _ => exact within_raise hcounter.loc
  | .leave _, h => by
    simp only [analyzeStmt]
    exact within_ite (fun _ => within_ok _) fun _ => within_raise h
  | .comment .., _ => within_ok _
  | .expression _ value, h => (analyzeExpr_within value h.2).bind fun _ _ => within_ok _

theorem analyzeArms_within {env : Env} :
    (arms : Grammar.Arms) → arms.Placed P → (analyzeArms env arms).Within P
  | .done, _ => within_ok _
  | .otherwise _ body, h => (analyzeStmts_within body h.2).bind fun _ _ => within_ok _
  | .arm _ condition _ body rest, h => by
    obtain ⟨-, hcondition, -, hbody, hrest⟩ := h
    refine (analyzeExpr_within condition hcondition).bind fun _ _ => ?_
    refine (analyzeStmts_within body hbody).bind fun _ _ => ?_
    exact (analyzeArms_within rest hrest).bind fun _ _ => within_ok _

theorem analyzeStmts_within {env : Env} :
    (ss : List Grammar.Stmt) → Grammar.Stmt.PlacedList P ss → (analyzeStmts env ss).Within P
  | [], _ => within_ok _
  | s :: ss, h =>
    (analyzeStmt_within s h.1).bind fun _ _ =>
      (analyzeStmts_within ss h.2).bind fun _ _ => within_ok _

end

end Roar
