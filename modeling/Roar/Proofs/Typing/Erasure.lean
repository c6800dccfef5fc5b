import Roar.Number.Arithmetic
import Roar.Proofs.Grammar.Soundness
import Roar.Proofs.Scoping.Analysis

/-!
# Analysis adds types and flags, and nothing else

`Untyped` programs say what a program says, with all its places, but without what analysis finds out:
types, what an assignment declares, which names are those of functions, and what a function returns.
`Program.untyped` leaves that out of a program. `Grammar.Tree.untyped` makes an untyped program of a
parse tree: the arms of a conditional are nested, the first outermost, and the texts of a string are
joined between its embedded expressions (`Untyped.Expr.ofPieces`). Of the tree it leaves out how
numbers are spelled and where parameters stand, and for a conditional it has the place of the first arm.
In a tree that has been parsed this is the place of the conditional itself (`Grammar.Tree.Aligned`).

For a tree that analysis accepts, the two are the same (`analyze_untyped`).
-/

namespace Roar

/-! ## Untyped programs -/

namespace Untyped

mutual

/-- An expression. -/
inductive Expr where
  | number (loc : Location) (value : Number)
  | string (loc : Location) (value : Bytes)
  | interpolated (loc : Location) (segments : List Segment)
  | boolean (loc : Location) (value : Bool)
  | identifier (loc : Location) (name : Bytes)
  | binary (loc : Location) (op : BinaryOp) (left right : Expr)
  | compare (loc : Location) (op : CompareOp) (left right : Expr)
  | unary (loc : Location) (op : UnaryOp) (operand : Expr)
  | call (loc : Location) (callee : Bytes) (args : List Expr)
  | range (loc : Location) (bound : Expr)

/-- A piece of a string. -/
inductive Segment where
  | text (value : Bytes)
  | embedded (value : Expr)

end

mutual

/-- A statement. What is assigned to and what a loop counts with are expressions here. -/
inductive Stmt where
  | block (loc : Location) (body : List Stmt)
  | assign (loc : Location) (target value : Expr)
  | print (loc : Location) (value : Expr)
  | function (loc : Location) (name : Bytes) (params : List Bytes) (bodyLoc : Location)
      (body : List Stmt)
  | serve (loc : Location) (value : Expr)
  | branch (loc : Location) (condition : Expr) (thenLoc : Location) (thenBody : List Stmt)
      (alternate : Alternate)
  | loop (loc : Location) (counter : Expr) (rangeLoc : Location) (bound : Expr)
      (bodyLoc : Location) (body : List Stmt)
  | leave (loc : Location)
  | comment (loc : Location) (text : Bytes)
  | expression (loc : Location) (value : Expr)

/-- What is done when a condition is false. -/
inductive Alternate where
  | none
  | block (loc : Location) (body : List Stmt)
  | branch (loc : Location) (condition : Expr) (thenLoc : Location) (thenBody : List Stmt)
      (alternate : Alternate)

end

/-! ### Strings -/

namespace Segment

/-- The text of a piece that is one. -/
def text? : Segment → Option Bytes
  | text value => some value
  | embedded _ => none

/-- A piece of text, unless it is empty. -/
def ofText (value : Bytes) : List Segment := if value = [] then [] else [text value]

/-- The pieces with the texts between two embedded expressions joined; `pending` is the text since
the last embedded expression. -/
def joined (pending : Bytes) : List Segment → List Segment
  | [] => ofText pending
  | text value :: rest => joined (pending ++ value) rest
  | embedded value :: rest => ofText pending ++ embedded value :: joined [] rest

end Segment

/-- The string of some pieces. Without an embedded expression it is a plain one. -/
def Expr.ofPieces (loc : Location) (pieces : List Segment) : Expr :=
  if pieces.all (·.text?.isSome) then .string loc (pieces.filterMap (·.text?)).flatten
  else .interpolated loc (Segment.joined [] pieces)

/-- A chain of conditions as a statement. One without a condition is its last block. -/
def Alternate.toStmt (loc : Location) : Alternate → Stmt
  | .none => .block loc []
  | .block loc body => .block loc body
  | .branch loc condition thenLoc thenBody alternate =>
    .branch loc condition thenLoc thenBody alternate

end Untyped

/-! ## Programs without what analysis adds -/

mutual

def Expr.untyped : Expr → Untyped.Expr
  | .number loc value => .number loc value
  | .string loc value => .string loc value
  | .interpolated loc segments => .interpolated loc (Segment.untypedList segments)
  | .boolean loc value => .boolean loc value
  | .identifier id => .identifier id.loc id.name
  | .binary loc op left right _ => .binary loc op left.untyped right.untyped
  | .compare loc op left right => .compare loc op left.untyped right.untyped
  | .unary loc op operand _ => .unary loc op operand.untyped
  | .call loc callee args _ _ => .call loc callee (Expr.untypedList args)
  | .range loc bound => .range loc bound.untyped

def Expr.untypedList : List Expr → List Untyped.Expr
  | [] => []
  | e :: es => e.untyped :: Expr.untypedList es

def Segment.untyped : Segment → Untyped.Segment
  | .text value => .text value
  | .embedded value => .embedded value.untyped

def Segment.untypedList : List Segment → List Untyped.Segment
  | [] => []
  | s :: ss => s.untyped :: Segment.untypedList ss

end

mutual

def Stmt.untyped : Stmt → Untyped.Stmt
  | .block loc body => .block loc (Stmt.untypedList body)
  | .assign loc target value _ => .assign loc (.identifier target.loc target.name) value.untyped
  | .print loc value => .print loc value.untyped
  | .function loc name params bodyLoc body _ =>
    .function loc name params bodyLoc (Stmt.untypedList body)
  | .serve loc value => .serve loc value.untyped
  | .branch loc condition thenLoc thenBody alternate =>
    .branch loc condition.untyped thenLoc (Stmt.untypedList thenBody) alternate.untyped
  | .loop loc counter rangeLoc bound bodyLoc body =>
    .loop loc (.identifier counter.loc counter.name) rangeLoc bound.untyped bodyLoc
      (Stmt.untypedList body)
  | .leave loc => .leave loc
  | .comment loc text => .comment loc text
  | .expression loc value => .expression loc value.untyped

def Alternate.untyped : Alternate → Untyped.Alternate
  | .none => .none
  | .block loc body => .block loc (Stmt.untypedList body)
  | .branch loc condition thenLoc thenBody alternate =>
    .branch loc condition.untyped thenLoc (Stmt.untypedList thenBody) alternate.untyped

def Stmt.untypedList : List Stmt → List Untyped.Stmt
  | [] => []
  | s :: ss => s.untyped :: Stmt.untypedList ss

end

/-- What a program says. -/
def Program.untyped (p : Program) : List Untyped.Stmt := Stmt.untypedList p.statements

/-! ## Parse trees as programs -/

namespace Grammar

mutual

def Expr.untyped : Expr → Untyped.Expr
  | .number loc value _ => .number loc value
  | .string loc value => .string loc value
  | .interpolated loc segments => .ofPieces loc (Segment.untypedList segments)
  | .boolean loc value => .boolean loc value
  | .identifier loc name => .identifier loc name
  | .binary loc op left right => .binary loc op left.untyped right.untyped
  | .compare loc op left right => .compare loc op left.untyped right.untyped
  | .unary loc op operand => .unary loc op operand.untyped
  | .call loc callee args => .call loc callee (Expr.untypedList args)

def Expr.untypedList : List Expr → List Untyped.Expr
  | [] => []
  | e :: es => e.untyped :: Expr.untypedList es

def Segment.untyped : Segment → Untyped.Segment
  | .text value => .text value
  | .embedded value => .embedded value.untyped

def Segment.untypedList : List Segment → List Untyped.Segment
  | [] => []
  | s :: ss => s.untyped :: Segment.untypedList ss

end

mutual

/-- A conditional stands where its first condition does. -/
def Stmt.untyped : Stmt → Untyped.Stmt
  | .print loc value => .print loc value.untyped
  | .assign loc target value => .assign loc target.untyped value.untyped
  | .function loc name params bodyLoc body =>
    .function loc name (params.map (·.name)) bodyLoc (Stmt.untypedList body)
  | .serve loc value => .serve loc value.untyped
  | .branch loc arms => arms.untyped.toStmt loc
  | .loop loc counter rangeLoc bound bodyLoc body =>
    .loop loc counter.untyped rangeLoc bound.untyped bodyLoc (Stmt.untypedList body)
  | .leave loc => .leave loc
  | .comment loc text => .comment loc text
  | .expression loc value => .expression loc value.untyped

/-- The arms of a conditional, each the alternate of the one before. -/
def Arms.untyped : Arms → Untyped.Alternate
  | .done => .none
  | .otherwise bodyLoc body => .block bodyLoc (Stmt.untypedList body)
  | .arm loc condition bodyLoc body rest =>
    .branch loc condition.untyped bodyLoc (Stmt.untypedList body) rest.untyped

def Stmt.untypedList : List Stmt → List Untyped.Stmt
  | [] => []
  | s :: ss => s.untyped :: Stmt.untypedList ss

end

/-- What a parse tree says. -/
def Tree.untyped (tree : Tree) : List Untyped.Stmt := Stmt.untypedList tree.statements

end Grammar

/-! ## Strings -/

namespace Untyped.Segment

/-- Pieces without an embedded expression are one text. -/
theorem joined_of_texts {pieces : List Segment} (h : pieces.all (·.text?.isSome))
    (pending : Bytes) :
    joined pending pieces = ofText (pending ++ (pieces.filterMap (·.text?)).flatten) := by
  induction pieces generalizing pending with
  | nil => simp [joined]
  | cons s rest ih =>
    rw [List.all_cons, Bool.and_eq_true] at h
    cases s with
    | text value => simp [joined, ih h.2, text?]
    | embedded value => cases h.1

/-- Embedded expressions stay. -/
theorem mem_joined {pieces : List Segment} {value : Expr} (h : embedded value ∈ pieces)
    (pending : Bytes) : embedded value ∈ joined pending pieces := by
  induction pieces generalizing pending with
  | nil => cases h
  | cons s rest ih =>
    cases s with
    | text t =>
      obtain h | h := List.mem_cons.mp h
      · cases h
      · exact ih h _
    | embedded e =>
      rw [joined, List.mem_append, List.mem_cons]
      exact .inr ((List.mem_cons.mp h).imp_right fun h => ih h [])

end Untyped.Segment

namespace Segment

/-- Two texts in front are merged as one. -/
theorem merge_text_text (t u : Bytes) (rest : List Segment) :
    merge (.text t :: .text u :: rest) = merge (.text (t ++ u) :: rest) := by
  by_cases ht : t = []
  · simp [merge, ht]
  · by_cases hu : u = []
    · simp [merge, hu]
    · simp only [merge, ht, hu, List.append_eq_nil_iff, false_and, if_false]
      obtain _ | ⟨_ | _, _⟩ := merge rest
      · rfl
      · simp
      · rfl

/-- Merging joins the texts between embedded expressions. -/
theorem untypedList_merge (pending : Bytes) (segments : List Segment) :
    untypedList (merge (.text pending :: segments)) =
      Untyped.Segment.joined pending (untypedList segments) := by
  induction segments generalizing pending with
  | nil =>
    simp only [merge, untypedList, Untyped.Segment.joined, Untyped.Segment.ofText]
    split <;> rfl
  | cons s rest ih =>
    cases s with
    | text t => rw [merge_text_text, ih, untypedList, untyped, Untyped.Segment.joined]
    | embedded e =>
      have hrest := ih []
      simp only [merge, if_true] at hrest
      simp only [merge, untypedList, untyped, Untyped.Segment.joined, Untyped.Segment.ofText,
        ← hrest]
      split <;> rfl

/-- Pieces that say one text are that text. -/
theorem eq_of_untypedList_ofText {segments : List Segment} {value : Bytes}
    (h : untypedList segments = Untyped.Segment.ofText value) :
    segments = if value = [] then [] else [.text value] := by
  unfold Untyped.Segment.ofText at h
  split at h <;> rename_i hvalue
  · rw [if_pos hvalue]
    cases segments with
    | nil => rfl
    | cons => cases h
  · rw [if_neg hvalue]
    obtain _ | ⟨_ | _, _ | _⟩ := segments <;> cases h
    rfl

end Segment

/-- The string of some pieces, by what they say. -/
theorem Expr.untyped_interpolate (loc : Location) (segments : List Segment) :
    (Expr.interpolate loc segments).untyped = .ofPieces loc (Segment.untypedList segments) := by
  have hmerge := Segment.untypedList_merge [] segments
  simp only [Segment.merge, if_true] at hmerge
  generalize Segment.untypedList segments = pieces at hmerge
  unfold Expr.interpolate Untyped.Expr.ofPieces
  by_cases htexts : pieces.all (·.text?.isSome)
  · rw [if_pos htexts]
    rw [Untyped.Segment.joined_of_texts htexts, List.nil_append] at hmerge
    rw [Segment.eq_of_untypedList_ofText hmerge]
    by_cases hvalue : (pieces.filterMap (·.text?)).flatten = []
    · rw [if_pos hvalue, hvalue]
      rfl
    · rw [if_neg hvalue]
      rfl
  · rw [if_neg htexts]
    obtain ⟨value, hvalue⟩ : ∃ value, Untyped.Segment.embedded value ∈ pieces := by
      obtain ⟨s, hs, htext⟩ := List.all_eq_false.mp (Bool.eq_false_iff.mpr htexts)
      cases s with
      | text => exact absurd rfl htext
      | embedded value => exact ⟨value, hs⟩
    have hmem := Untyped.Segment.mem_joined hvalue []
    rw [← hmerge] at hmem
    split <;> rename_i h
    · rw [h] at hmem
      cases hmem
    · rw [h] at hmem
      cases hmem with
      | tail _ hmem => cases hmem
    · rw [Expr.untyped, hmerge]

/-! ## Analysis -/

mutual

theorem untyped_of_analyzeExpr {env : Env} :
    (g : Grammar.Expr) → {e : Expr} → analyzeExpr env g = .ok e → e.untyped = g.untyped
  | .number .., _, h | .string .., _, h | .boolean .., _, h => by
    cases h
    rfl
  | .identifier loc name, _, h => by
    obtain ⟨m, type, -, rfl⟩ := resolveName_eq_ok h
    rfl
  | .interpolated loc segments, _, h => by
    obtain ⟨ss, hs, h⟩ := Analysed.exists_of_bind h
    cases h
    rw [Expr.untyped_interpolate, untyped_of_analyzeSegments segments hs, Grammar.Expr.untyped]
  | .binary loc op left right, _, h => by
    obtain ⟨l, hl, h⟩ := Analysed.exists_of_bind h
    obtain ⟨r, hr, h⟩ := Analysed.exists_of_bind h
    obtain ⟨type, rfl, -⟩ := checkedBinary_eq_ok h
    rw [Expr.untyped, Grammar.Expr.untyped, untyped_of_analyzeExpr left hl,
      untyped_of_analyzeExpr right hr]
  | .compare loc op left right, _, h => by
    obtain ⟨l, hl, h⟩ := Analysed.exists_of_bind h
    obtain ⟨r, hr, h⟩ := Analysed.exists_of_bind h
    obtain ⟨rfl, -⟩ := resolveCompare_eq_ok h
    rw [Expr.untyped, Grammar.Expr.untyped, untyped_of_analyzeExpr left hl,
      untyped_of_analyzeExpr right hr]
  | .unary loc op operand, _, h => by
    obtain ⟨e, he, h⟩ := Analysed.exists_of_bind h
    obtain ⟨type, rfl, -⟩ := checkedUnary_eq_ok h
    rw [Expr.untyped, Grammar.Expr.untyped, untyped_of_analyzeExpr operand he]
  | .call loc callee args, _, h => by
    obtain ⟨m, -, h⟩ := Analysed.exists_of_bind h
    obtain ⟨as, has, h⟩ := Analysed.exists_of_bind h
    cases h
    rw [Expr.untyped, Grammar.Expr.untyped, untyped_of_analyzeArgs _ args has]

theorem untyped_of_analyzeArgs {env : Env} (recursive : Bool) :
    (gs : List Grammar.Expr) → {es : List Expr} → analyzeArgs env recursive gs = .ok es →
      Expr.untypedList es = Grammar.Expr.untypedList gs
  | [], _, h => by
    cases h
    rfl
  | g :: gs, _, h => by
    obtain ⟨e, he, h⟩ := Analysed.exists_of_bind h
    obtain ⟨_, _, h⟩ := Analysed.exists_of_bind h
    obtain ⟨es, hes, h⟩ := Analysed.exists_of_bind h
    cases h
    rw [Expr.untypedList, Grammar.Expr.untypedList, untyped_of_analyzeExpr g he,
      untyped_of_analyzeArgs recursive gs hes]

theorem untyped_of_analyzeSegments {env : Env} :
    (gs : List Grammar.Segment) → {ss : List Segment} → analyzeSegments env gs = .ok ss →
      Segment.untypedList ss = Grammar.Segment.untypedList gs
  | [], _, h => by
    cases h
    rfl
  | .text t :: gs, _, h => by
    obtain ⟨s, hs, h⟩ := Analysed.exists_of_bind h
    obtain ⟨ss, hss, h⟩ := Analysed.exists_of_bind h
    cases h
    cases hs
    rw [Segment.untypedList, Grammar.Segment.untypedList, untyped_of_analyzeSegments gs hss,
      Segment.untyped, Grammar.Segment.untyped]
  | .embedded g :: gs, _, h => by
    obtain ⟨s, hs, h⟩ := Analysed.exists_of_bind h
    obtain ⟨ss, hss, h⟩ := Analysed.exists_of_bind h
    obtain ⟨e, he, hs⟩ := Analysed.exists_of_bind hs
    cases h
    cases hs
    rw [Segment.untypedList, Grammar.Segment.untypedList, untyped_of_analyzeSegments gs hss,
      Segment.untyped, Grammar.Segment.untyped, untyped_of_analyzeExpr g he]

end

theorem untyped_of_resolveAssign {env env' : Env} {loc targetLoc : Location} {name : Bytes}
    {value : Expr} {s : Stmt} (h : resolveAssign env loc targetLoc name value = .ok (s, env')) :
    s.untyped = .assign loc (.identifier targetLoc name) value.untyped := by
  obtain ⟨-, rfl, -⟩ | ⟨m, type, -, -, rfl, -⟩ := resolveAssign_eq_ok h
  · rfl
  · rfl

theorem Alternate.untyped_toStmt (loc : Location) (chain : Alternate) :
    (chain.toStmt loc).untyped = chain.untyped.toStmt loc := by
  cases chain <;> rfl

mutual

theorem untyped_of_analyzeStmt {env env' : Env} :
    (g : Grammar.Stmt) → {s : Stmt} → analyzeStmt env g = .ok (s, env') → s.untyped = g.untyped
  | .print loc value, _, h | .expression loc value, _, h => by
    obtain ⟨e, he, h⟩ := Analysed.exists_of_bind h
    cases h
    rw [Stmt.untyped, Grammar.Stmt.untyped, untyped_of_analyzeExpr value he]
  | .assign loc target value, _, h => by
    unfold analyzeStmt at h
    split at h
    · obtain ⟨e, he, h⟩ := Analysed.exists_of_bind h
      rw [untyped_of_resolveAssign h, Grammar.Stmt.untyped, Grammar.Expr.untyped,
        untyped_of_analyzeExpr value he]
    · cases h
  | .function loc name params bodyLoc body, _, h => by
    unfold analyzeStmt at h
    split at h
    · cases h
    · obtain ⟨inner, -, h⟩ := Analysed.exists_of_bind h
      obtain ⟨⟨ss, last⟩, hss, h⟩ := Analysed.exists_of_bind h
      cases h
      rw [Stmt.untyped, Grammar.Stmt.untyped, untyped_of_analyzeStmts body hss]
  | .serve loc value, _, h => by
    unfold analyzeStmt at h
    split at h
    · obtain ⟨e, he, h⟩ := Analysed.exists_of_bind h
      cases h
      rw [Stmt.untyped, Grammar.Stmt.untyped, untyped_of_analyzeExpr value he]
    · cases h
  | .branch loc arms, _, h => by
    obtain ⟨⟨chain, last⟩, hc, h⟩ := Analysed.exists_of_bind h
    obtain ⟨_, _, h⟩ := Analysed.exists_of_bind h
    cases h
    rw [Alternate.untyped_toStmt, Grammar.Stmt.untyped, untyped_of_analyzeArms arms hc]
  | .loop loc counter rangeLoc bound bodyLoc body, _, h => by
    unfold analyzeStmt at h
    split at h
    · obtain ⟨e, he, h⟩ := Analysed.exists_of_bind h
      obtain ⟨_, _, h⟩ := Analysed.exists_of_bind h
      obtain ⟨⟨ss, last⟩, hss, h⟩ := Analysed.exists_of_bind h
      cases h
      rw [Stmt.untyped, Grammar.Stmt.untyped, Grammar.Expr.untyped, untyped_of_analyzeExpr bound he,
        untyped_of_analyzeStmts body hss]
    · cases h
  | .leave loc, _, h => by
    unfold analyzeStmt at h
    split at h
    · cases h
      rfl
    · cases h
  | .comment .., _, h => by
    cases h
    rfl

theorem untyped_of_analyzeArms {env env' : Env} :
    (arms : Grammar.Arms) → {a : Alternate} → analyzeArms env arms = .ok (a, env') →
      a.untyped = arms.untyped
  | .done, _, h => by
    cases h
    rfl
  | .otherwise bodyLoc body, _, h => by
    obtain ⟨⟨ss, last⟩, hss, h⟩ := Analysed.exists_of_bind h
    cases h
    rw [Alternate.untyped, Grammar.Arms.untyped, untyped_of_analyzeStmts body hss]
  | .arm loc condition bodyLoc body rest, _, h => by
    obtain ⟨e, he, h⟩ := Analysed.exists_of_bind h
    obtain ⟨⟨ss, mid⟩, hss, h⟩ := Analysed.exists_of_bind h
    obtain ⟨⟨a, last⟩, ha, h⟩ := Analysed.exists_of_bind h
    cases h
    rw [Alternate.untyped, Grammar.Arms.untyped, untyped_of_analyzeExpr condition he,
      untyped_of_analyzeStmts body hss, untyped_of_analyzeArms rest ha]

theorem untyped_of_analyzeStmts {env env' : Env} :
    (gs : List Grammar.Stmt) → {ss : List Stmt} → analyzeStmts env gs = .ok (ss, env') →
      Stmt.untypedList ss = Grammar.Stmt.untypedList gs
  | [], _, h => by
    cases h
    rfl
  | g :: gs, _, h => by
    obtain ⟨⟨s, mid⟩, hs, h⟩ := Analysed.exists_of_bind h
    obtain ⟨⟨ss, last⟩, hss, h⟩ := Analysed.exists_of_bind h
    cases h
    rw [Stmt.untypedList, Grammar.Stmt.untypedList, untyped_of_analyzeStmt g hs,
      untyped_of_analyzeStmts gs hss]

end

/-- A program that analysis makes of a parse tree says what the tree says. If the tree has been parsed
from a source, the places of its conditionals are those of their first arms, so they are kept too. -/
theorem analyze_untyped (tree : Grammar.Tree) {p : Program} (h : analyze tree = .ok p) :
    p.untyped = tree.untyped ∧
      ∀ source file, Grammar.parse source file = .ok tree → tree.Aligned := by
  refine ⟨?_, fun _ _ hparse => Grammar.aligned_of_parse hparse⟩
  obtain ⟨env, hss⟩ := analyze_eq_ok h
  exact untyped_of_analyzeStmts _ hss

/-- A function with a conditional of three blocks, and a string of four pieces that embeds a call of
it. -/
def rankTree : Grammar.Tree :=
  ⟨0,
    [.function ⟨0, 1, 1⟩ (ascii "rank") [⟨ascii "n", ⟨0, 1, 13⟩⟩] ⟨0, 1, 16⟩
        [.branch ⟨0, 2, 3⟩
          (.arm ⟨0, 2, 3⟩ (.compare ⟨0, 2, 9⟩ .gt (.identifier ⟨0, 2, 7⟩ (ascii "n"))
              (.number ⟨0, 2, 11⟩ (.ofNat 9) (ascii "9.0"))) ⟨0, 2, 16⟩
            [.serve ⟨0, 3, 5⟩ (.number ⟨0, 3, 11⟩ (.ofNat 1) (ascii "1"))]
            (.arm ⟨0, 5, 3⟩ (.compare ⟨0, 5, 11⟩ .gt (.identifier ⟨0, 5, 9⟩ (ascii "n"))
                (.number ⟨0, 5, 13⟩ (.ofNat 4) (ascii "4"))) ⟨0, 5, 16⟩
              [.serve ⟨0, 6, 5⟩ (.number ⟨0, 6, 11⟩ (.ofNat 2) (ascii "2"))]
              (.otherwise ⟨0, 8, 13⟩
                [.serve ⟨0, 9, 5⟩ (.number ⟨0, 9, 11⟩ (.ofNat 3) (ascii "3"))])))],
      .print ⟨0, 12, 1⟩
        (.interpolated ⟨0, 12, 6⟩
          [.text (ascii "ra"), .text (ascii "nk "),
            .embedded (.call ⟨0, 12, 14⟩ (ascii "rank")
              [.number ⟨0, 12, 19⟩ (.ofNat 7) (ascii "7")]),
            .text []])]⟩

/-- The second condition of the function is the alternate of the first and has the last block as its
own, and the string is left with two pieces. -/
theorem rankTree_untyped :
    ∃ p, analyze rankTree = .ok p ∧ p.untyped = rankTree.untyped ∧
      p.untyped =
        [.function ⟨0, 1, 1⟩ (ascii "rank") [ascii "n"] ⟨0, 1, 16⟩
            [.branch ⟨0, 2, 3⟩
              (.compare ⟨0, 2, 9⟩ .gt (.identifier ⟨0, 2, 7⟩ (ascii "n"))
                (.number ⟨0, 2, 11⟩ (.ofNat 9))) ⟨0, 2, 16⟩
              [.serve ⟨0, 3, 5⟩ (.number ⟨0, 3, 11⟩ (.ofNat 1))]
              (.branch ⟨0, 5, 3⟩
                (.compare ⟨0, 5, 11⟩ .gt (.identifier ⟨0, 5, 9⟩ (ascii "n"))
                  (.number ⟨0, 5, 13⟩ (.ofNat 4))) ⟨0, 5, 16⟩
                [.serve ⟨0, 6, 5⟩ (.number ⟨0, 6, 11⟩ (.ofNat 2))]
                (.block ⟨0, 8, 13⟩ [.serve ⟨0, 9, 5⟩ (.number ⟨0, 9, 11⟩ (.ofNat 3))]))],
          .print ⟨0, 12, 1⟩
            (.interpolated ⟨0, 12, 6⟩
              [.text (ascii "rank "),
                .embedded (.call ⟨0, 12, 14⟩ (ascii "rank")
                  [.number ⟨0, 12, 19⟩ (.ofNat 7)])])] :=
  ⟨_, rfl, (analyze_untyped rankTree rfl).1, rfl⟩

end Roar
