import Roar.Program.Basic

/-!
# All expressions and statements of a program

`Expr.nodes` lists an expression and all its parts, and `Program.nodes` all expressions that a
program is made of, those inside strings, calls, blocks and functions included. Joining the texts of
a string changes nothing about them (`Segment.nodesList_merge`). `Program.parts` lists all statements
in the same way.
-/

namespace Roar

mutual

/-- An expression and all parts of it. -/
def Expr.nodes : Expr → List Expr
  | .number loc value => [.number loc value]
  | .string loc value => [.string loc value]
  | .interpolated loc segments => .interpolated loc segments :: Segment.nodesList segments
  | .boolean loc value => [.boolean loc value]
  | .identifier id => [.identifier id]
  | .binary loc op left right type => .binary loc op left right type :: (left.nodes ++ right.nodes)
  | .compare loc op left right => .compare loc op left right :: (left.nodes ++ right.nodes)
  | .unary loc op operand type => .unary loc op operand type :: operand.nodes
  | .call loc callee args type builtin =>
    .call loc callee args type builtin :: Expr.nodesList args
  | .range loc bound => .range loc bound :: bound.nodes

def Expr.nodesList : List Expr → List Expr
  | [] => []
  | e :: es => e.nodes ++ Expr.nodesList es

def Segment.nodesList : List Segment → List Expr
  | [] => []
  | .text _ :: ss => Segment.nodesList ss
  | .embedded e :: ss => e.nodes ++ Segment.nodesList ss

end

theorem Expr.self_mem_nodes (e : Expr) : e ∈ e.nodes := by
  cases e <;> exact List.mem_cons_self

theorem Expr.nodes_subset_nodesList {e : Expr} {es : List Expr} (h : e ∈ es) :
    e.nodes ⊆ Expr.nodesList es := by
  induction h with
  | head es => exact List.subset_append_left ..
  | tail e' _ ih => exact List.subset_append_of_subset_right _ ih

theorem Segment.nodes_subset_nodesList {e : Expr} {ss : List Segment} (h : .embedded e ∈ ss) :
    e.nodes ⊆ Segment.nodesList ss := by
  induction ss with
  | nil => exact absurd h List.not_mem_nil
  | cons s ss ih =>
    rcases List.mem_cons.mp h with rfl | hmem
    · exact List.subset_append_left ..
    · cases s with
      | text t => exact ih hmem
      | embedded e' => exact List.subset_append_of_subset_right _ (ih hmem)

theorem Segment.nodesList_merge (ss : List Segment) :
    Segment.nodesList (Segment.merge ss) = Segment.nodesList ss := by
  fun_induction Segment.merge ss with
  | case1 => rfl
  | case2 e rest ih => rw [Segment.nodesList, ih, Segment.nodesList]
  | case3 rest ih => rw [ih, Segment.nodesList]
  | case4 t rest ht u more hmore ih =>
    rw [hmore, Segment.nodesList] at ih
    rw [Segment.nodesList, ih, Segment.nodesList]
  | case5 t rest ht hmore ih => rw [Segment.nodesList, ih, Segment.nodesList]

mutual

/-- All expressions in a statement. The target of an assignment and the counter of a loop are
identifiers, and what a loop counts up to is a range. -/
def Stmt.nodes : Stmt → List Expr
  | .block _ body | .function _ _ _ _ body _ => Stmt.nodesList body
  | .assign _ target value _ => .identifier target :: value.nodes
  | .print _ value | .serve _ value | .expression _ value => value.nodes
  | .branch _ condition _ thenBody alternate =>
    condition.nodes ++ Stmt.nodesList thenBody ++ alternate.nodes
  | .loop _ counter rangeLoc bound _ body =>
    .identifier counter :: ((Expr.range rangeLoc bound).nodes ++ Stmt.nodesList body)
  | .leave _ | .comment .. => []

def Alternate.nodes : Alternate → List Expr
  | .none => []
  | .block _ body => Stmt.nodesList body
  | .branch _ condition _ thenBody alternate =>
    condition.nodes ++ Stmt.nodesList thenBody ++ alternate.nodes

def Stmt.nodesList : List Stmt → List Expr
  | [] => []
  | s :: ss => s.nodes ++ Stmt.nodesList ss

end

/-- All expressions in a program. -/
def Program.nodes (p : Program) : List Expr := Stmt.nodesList p.statements

theorem Stmt.nodesList_append (ss ts : List Stmt) :
    Stmt.nodesList (ss ++ ts) = Stmt.nodesList ss ++ Stmt.nodesList ts := by
  induction ss with
  | nil => rfl
  | cons s ss ih => rw [List.cons_append, Stmt.nodesList, Stmt.nodesList, ih, List.append_assoc]

mutual

/-- A statement and all statements in it. A further condition is a conditional of its own. -/
def Stmt.parts : Stmt → List Stmt
  | .block loc body => .block loc body :: Stmt.partsList body
  | .assign loc target value declares => [.assign loc target value declares]
  | .print loc value => [.print loc value]
  | .function loc name params bodyLoc body returns =>
    .function loc name params bodyLoc body returns :: Stmt.partsList body
  | .serve loc value => [.serve loc value]
  | .branch loc condition thenLoc thenBody alternate =>
    .branch loc condition thenLoc thenBody alternate ::
      (Stmt.partsList thenBody ++ alternate.parts)
  | .loop loc counter rangeLoc bound bodyLoc body =>
    .loop loc counter rangeLoc bound bodyLoc body :: Stmt.partsList body
  | .leave loc => [.leave loc]
  | .comment loc text => [.comment loc text]
  | .expression loc value => [.expression loc value]

def Alternate.parts : Alternate → List Stmt
  | .none => []
  | .block _ body => Stmt.partsList body
  | .branch loc condition thenLoc thenBody alternate =>
    .branch loc condition thenLoc thenBody alternate ::
      (Stmt.partsList thenBody ++ alternate.parts)

def Stmt.partsList : List Stmt → List Stmt
  | [] => []
  | s :: ss => s.parts ++ Stmt.partsList ss

end

/-- All statements in a program. -/
def Program.parts (p : Program) : List Stmt := Stmt.partsList p.statements

theorem Stmt.partsList_append (ss ts : List Stmt) :
    Stmt.partsList (ss ++ ts) = Stmt.partsList ss ++ Stmt.partsList ts := by
  induction ss with
  | nil => rfl
  | cons s ss ih => rw [List.cons_append, Stmt.partsList, Stmt.partsList, ih, List.append_assoc]

end Roar
