import Roar.Proofs.Scoping.References
import Roar.Target.Script

/-!
# The output with its names marked

`Stmt.pieces` writes a statement as `Stmt.script` does, but in pieces that say what stands where: a
declaration, the name under which a loop keeps its bound, or the mention of a name, with what the
scopes of the program and what the table of names make of it. Put together the pieces are the output
(`Program.render_annotated`), so what is said of the pieces is said of the output.

The table that goes along is a `Naming`: it remembers what each of its entries is for, and is the
table of the output without that (`Naming.names`).
-/

namespace Roar

open Script

/-! ## Tables that remember what their entries are for -/

/-- A declaration and the name that the output has for it. -/
structure Named where
  declaration : Declaration
  output : Bytes
deriving DecidableEq, Repr

/-- What an entry of a table is for: a declaration, or the bound of a loop. -/
inductive Item where
  | declared (named : Named)
  | bound (output : Bytes)
deriving DecidableEq, Repr

/-- The name in the output. -/
def Item.output : Item → Bytes
  | declared named => named.output
  | bound output => output

/-- The declaration, if the entry is for one. -/
def Item.named? : Item → Option Named
  | declared named => some named
  | bound _ => none

/-- The open scopes, the innermost first, each with its entries, the latest first; and the names that
cannot be handed out any more. -/
structure Naming where
  innermost : List (Bytes × Item) := []
  outer : Scopes Item := []
  used : List Bytes := reservedWords
deriving DecidableEq, Repr

namespace Naming

def scopes (st : Naming) : Scopes Item := st.innermost :: st.outer

/-- The table of the output. -/
def names (st : Naming) : Names where
  innermost := st.innermost.map fun e => (e.1, e.2.output)
  outer := st.outer.mapValues Item.output
  used := st.used

/-- The declarations of a scope. -/
def declaredIn (scope : List (Bytes × Item)) : List (Bytes × Named) :=
  scope.filterMap fun e => e.2.named?.map (e.1, ·)

/-- The built-in functions, which the output has under names of its own. -/
def builtins : List (Bytes × Named) :=
  builtinNames.map fun x => (x, ⟨⟨.builtin, x, {}⟩, builtinScript x⟩)

/-- The declarations in sight, as the program has them: without the bounds of loops, and with the
built-in functions around all. -/
def inSight (st : Naming) : Scopes Named := st.scopes.map declaredIn ++ [builtins]

/-- The names under which loops keep their bounds, of the loops around a place but not around the
declaration that a name means there. -/
def boundsPassed (x : Bytes) : Scopes Item → List Bytes
  | [] => []
  | scope :: outer =>
    if ((declaredIn scope).lookup x).isSome then []
    else (scope.filter (·.2.named?.isNone)).map (·.1) ++ boundsPassed x outer

/-- Hand out a name for an entry. -/
def add (st : Naming) (x : Bytes) (item : Bytes → Item) : Bytes × Naming :=
  let output := Names.fresh st.used x
  (output, { st with innermost := (x, item output) :: st.innermost, used := output :: st.used })

def declare (st : Naming) (d : Declaration) : Named × Naming :=
  let (output, st) := st.add d.name fun output => .declared ⟨d, output⟩
  (⟨d, output⟩, st)

/-- Declare one after the other. -/
def declareAll (st : Naming) : List Declaration → List Named × Naming
  | [] => ([], st)
  | d :: ds =>
    let (named, st) := st.declare d
    let (rest, st) := st.declareAll ds
    (named :: rest, st)

/-- Keep the bound of a loop whose counter has this name in the output. -/
def keepBound (st : Naming) (counter : Bytes) : Bytes × Naming :=
  st.add (limitName counter) .bound

def push (st : Naming) : Naming := { st with innermost := [], outer := st.scopes }

def pop (st : Naming) : Naming :=
  match st.outer with
  | [] => st
  | scope :: outer => { st with innermost := scope, outer }

end Naming

/-! ## Pieces -/

/-- A name where it is used, assigned to or called, with the table there and the text that it gets. -/
structure Mention where
  reference : Reference
  naming : Naming
  text : Bytes
deriving DecidableEq, Repr

namespace Mention

/-- What the name means in the scopes of the program, and its name in the output. -/
def meant (m : Mention) : Option Named := Scopes.lookup? m.naming.inSight m.reference.name

/-- The entry that the table has for the name. -/
def found (m : Mention) : Option Item := Scopes.lookup? m.naming.scopes m.reference.name

/-- The bounds of loops between the name and what it means. -/
def passed (m : Mention) : List Bytes := Naming.boundsPassed m.reference.name m.naming.scopes

end Mention

/-- A piece of output. The head of a loop uses the names that it introduces `again`. -/
inductive Piece where
  | plain (text : Bytes)
  | declared (named : Named)
  | bound (output : Bytes)
  | again (output : Bytes)
  | mention (m : Mention)
deriving DecidableEq, Repr

namespace Piece

def text : Piece → Bytes
  | plain text => text
  | declared named => named.output
  | bound output | again output => output
  | mention m => m.text

/-- The output that some pieces make. -/
def render (pieces : List Piece) : Bytes := pieces.flatMap text

/-- The piece introduces a name. -/
def introduces : Piece → Bool
  | declared _ | bound _ => true
  | _ => false

/-- The pieces that introduce names, in order. -/
def introducing (pieces : List Piece) : List Piece := pieces.filter introduces

def mention? : Piece → Option Mention
  | mention m => some m
  | _ => none

/-- The mentions of names, in order. -/
def mentions (pieces : List Piece) : List Mention := pieces.filterMap mention?

end Piece

open Piece (plain declared again render mentions)

/-! ### Expressions -/

def infixPieces (left : List Piece) (op : Bytes) (right : List Piece) : List Piece :=
  plain (ascii "(") :: left ++ plain (ascii " " ++ op ++ ascii " ") :: right ++ [plain (ascii ")")]

def prefixPieces (op : UnaryOp) (operand : List Piece) : List Piece :=
  if op == .neg && (render operand).head? == some (byte '-') then
    plain (ascii "(- ") :: operand ++ [plain (ascii ")")]
  else plain (ascii "(" ++ op.text) :: operand ++ [plain (ascii ")")]

/-- Lists of pieces with a comma between neighbours. -/
def commaPieces (lists : List (List Piece)) : List Piece := [plain (ascii ", ")].intercalate lists

mutual

/-- An expression in pieces. -/
def Expr.pieces (st : Naming) : Expr → List Piece
  | .number _ value => [plain value.text]
  | .string _ value => [plain (quote value)]
  | .interpolated _ segments =>
    plain (ascii "`") :: Segment.piecesList st segments ++ [plain (ascii "`")]
  | .boolean _ value => [plain (if value then ascii "true" else ascii "false")]
  | .identifier id => [.mention ⟨⟨.use, id.loc, id.name⟩, st, id.script st.names⟩]
  | .binary _ op left right _ => infixPieces (left.pieces st) op.script (right.pieces st)
  | .compare _ op left right => infixPieces (left.pieces st) op.script (right.pieces st)
  | .unary _ op operand _ => prefixPieces op (operand.pieces st)
  | .call loc callee args _ builtin =>
    .mention ⟨⟨.callee, loc, callee⟩, st, calleeScript st.names callee builtin⟩ ::
      plain (ascii "(") :: commaPieces (Expr.piecesList st args) ++ [plain (ascii ")")]
  | .range _ bound => bound.pieces st

/-- Expressions in pieces, one by one. -/
def Expr.piecesList (st : Naming) : List Expr → List (List Piece)
  | [] => []
  | e :: es => e.pieces st :: Expr.piecesList st es

/-- A piece of a string in pieces of output. -/
def Segment.pieces (st : Naming) : Segment → List Piece
  | .text value => [plain (templateText value)]
  | .embedded value => plain (ascii "$\x7b") :: value.pieces st ++ [plain (ascii "\x7d")]

def Segment.piecesList (st : Naming) : List Segment → List Piece
  | [] => []
  | s :: ss => s.pieces st ++ Segment.piecesList st ss

end

/-! ### Statements -/

/-- A line inside so many blocks. -/
def linePieces (depth : Nat) (pieces : List Piece) : List Piece := plain (line depth []) :: pieces

/-- A line without names. -/
def plainLine (depth : Nat) (text : Bytes) : List Piece := linePieces depth [plain text]

/-- The head of a loop, and the table with the names that it declares. -/
def loopHeadPieces (st : Naming) (counter : Identifier) (bound : Expr) : List Piece × Naming :=
  let limit := bound.pieces st
  let (c, st) := st.push.declare ⟨.loopVariable, counter.name, counter.loc⟩
  if isLiteralBound bound then
    (plain (ascii "for (let ") :: declared c :: plain (ascii " = 0; ") :: again c.output ::
        plain (ascii " < ") :: limit ++
        [plain (ascii "; "), again c.output, plain (ascii "++) \x7b")], st)
  else
    let (kept, st) := st.keepBound c.output
    (plain (ascii "for (let ") :: declared c :: plain (ascii " = 0, ") :: .bound kept ::
        plain (ascii " = ") :: limit ++
        [plain (ascii "; "), again c.output, plain (ascii " < "), again kept, plain (ascii "; "),
          again c.output, plain (ascii "++) \x7b")], st)

/-- The head of a function, and the table with its name outside and its parameters inside. -/
def functionHeadPieces (st : Naming) (loc : Location) (name : Bytes) (params : List Bytes) :
    List Piece × Naming :=
  let (f, st) := st.declare ⟨.function, name, loc⟩
  let (ps, st) := st.push.declareAll (params.map (⟨.parameter, ·, loc⟩))
  (plain (ascii "function ") :: declared f :: plain (ascii "(") ::
      commaPieces (ps.map fun p => [declared p]) ++ [plain (ascii ") \x7b")], st)

/-- An assignment, and the table after it. -/
def assignmentPieces (st : Naming) (target : Identifier) (value : Expr) (declares : Bool) :
    List Piece × Naming :=
  let value := value.pieces st
  if declares then
    let (x, st) := st.declare ⟨.assigned, target.name, target.loc⟩
    (plain (ascii "let ") :: declared x :: plain (ascii " = ") :: value ++ [plain (ascii ";")], st)
  else
    (.mention ⟨target.targetReference, st, target.script st.names⟩ :: plain (ascii " = ") :: value ++
      [plain (ascii ";")], st)

mutual

/-- A statement as lines of pieces, and the table after it. -/
def Stmt.pieces (depth : Nat) (st : Naming) : Stmt → List (List Piece) × Naming
  | .block _ body =>
    let (lines, st) := Stmt.piecesList (depth + 1) st.push body
    (plainLine depth (ascii "\x7b") :: lines ++ [plainLine depth (ascii "\x7d")], st.pop)
  | .assign _ target value declares =>
    let (text, st) := assignmentPieces st target value declares
    ([linePieces depth text], st)
  | .print _ value =>
    ([linePieces depth (plain (ascii "console.log(") :: value.pieces st ++ [plain (ascii ");")])], st)
  | .function loc name params _ body _ =>
    let (head, st) := functionHeadPieces st loc name params
    let (lines, st) := Stmt.piecesList (depth + 1) st body
    (linePieces depth head :: lines ++ [plainLine depth (ascii "\x7d")], st.pop)
  | .serve _ value =>
    ([linePieces depth (plain (ascii "return ") :: value.pieces st ++ [plain (ascii ";")])], st)
  | .branch _ condition _ thenBody alternate =>
    let head := plain (ascii "if (") :: condition.pieces st ++ [plain (ascii ") \x7b")]
    let (lines, st) := Stmt.piecesList (depth + 1) st.push thenBody
    let (rest, st) := alternate.pieces depth st.pop
    (linePieces depth head :: lines ++ rest, st)
  | .loop _ counter _ bound _ body =>
    let (head, st) := loopHeadPieces st counter bound
    let (lines, st) := Stmt.piecesList (depth + 1) st body
    (linePieces depth head :: lines ++ [plainLine depth (ascii "\x7d")], st.pop)
  | .leave _ => ([plainLine depth (ascii "break;")], st)
  | .comment _ text => ([plainLine depth (ascii "// " ++ text)], st)
  | .expression _ value => ([linePieces depth (value.pieces st ++ [plain (ascii ";")])], st)

/-- The rest of a conditional as lines of pieces, from the end of the block before on. -/
def Alternate.pieces (depth : Nat) (st : Naming) : Alternate → List (List Piece) × Naming
  | .none => ([plainLine depth (ascii "\x7d")], st)
  | .block _ body =>
    let (lines, st) := Stmt.piecesList (depth + 1) st.push body
    (plainLine depth (ascii "\x7d else \x7b") :: lines ++ [plainLine depth (ascii "\x7d")], st.pop)
  | .branch _ condition _ thenBody alternate =>
    let head := plain (ascii "\x7d else if (") :: condition.pieces st ++ [plain (ascii ") \x7b")]
    let (lines, st) := Stmt.piecesList (depth + 1) st.push thenBody
    let (rest, st) := alternate.pieces depth st.pop
    (linePieces depth head :: lines ++ rest, st)

/-- Statements as lines of pieces, one after the other. -/
def Stmt.piecesList (depth : Nat) (st : Naming) : List Stmt → List (List Piece) × Naming
  | [] => ([], st)
  | s :: ss =>
    let (lines, st) := s.pieces depth st
    let (rest, st) := Stmt.piecesList depth st ss
    (lines ++ rest, st)

end

/-- The lines of a program in pieces. -/
def Program.annotated (p : Program) : List (List Piece) := (Stmt.piecesList 0 {} p.statements).1

/-- The pieces of a program. -/
def Program.pieces (p : Program) : List Piece := p.annotated.flatten

/-- The mentions of names in a program, in order. -/
def Program.mentions (p : Program) : List Mention := Piece.mentions p.pieces

/-! ## The pieces are the output -/

@[simp] theorem render_nil : render [] = [] := rfl

@[simp] theorem render_cons (p : Piece) (ps : List Piece) : render (p :: ps) = p.text ++ render ps :=
  rfl

@[simp] theorem render_append (ps qs : List Piece) : render (ps ++ qs) = render ps ++ render qs :=
  List.flatMap_append

/-- What is collected from pieces, and not from commas. -/
theorem collect_commaPieces {α : Type} {f : List Piece → List α}
    (happend : ∀ ps qs, f (ps ++ qs) = f ps ++ f qs) (hnil : f [] = [])
    (hcomma : f [plain (ascii ", ")] = []) (lists : List (List Piece)) :
    f (commaPieces lists) = (lists.map f).flatten := by
  unfold commaPieces
  induction lists with
  | nil => exact hnil
  | cons ps lists ih =>
    cases lists with
    | nil => simp [List.intercalate]
    | cons qs lists =>
      simp only [List.intercalate, List.intersperse, List.map_cons, List.flatten_cons, happend]
        at ih ⊢
      rw [ih, hcomma, List.nil_append]

theorem render_commaPieces (lists : List (List Piece)) :
    render (commaPieces lists) = Bytes.join (ascii ", ") (lists.map render) := by
  unfold commaPieces Bytes.join
  induction lists with
  | nil => rfl
  | cons ps lists ih =>
    cases lists with
    | nil => simp [List.intercalate]
    | cons qs lists =>
      simp only [List.intercalate, List.intersperse, List.map_cons, List.flatten_cons, render_append]
        at ih ⊢
      rw [ih]
      simp [Piece.text]

theorem render_infixPieces (left : List Piece) (op : Bytes) (right : List Piece) :
    render (infixPieces left op right) = infixScript (render left) op (render right) := by
  simp [infixPieces, infixScript, Piece.text]

theorem render_prefixPieces (op : UnaryOp) (operand : List Piece) :
    render (prefixPieces op operand) = prefixScript op (render operand) := by
  unfold prefixPieces prefixScript
  split <;> simp [Piece.text]

theorem render_linePieces (depth : Nat) (pieces : List Piece) :
    render (linePieces depth pieces) = line depth (render pieces) := by
  simp [linePieces, line, Piece.text]

theorem render_plainLine (depth : Nat) (text : Bytes) :
    render (plainLine depth text) = line depth text := by
  simp [plainLine, render_linePieces, Piece.text]

mutual

theorem Expr.render_pieces (st : Naming) : (e : Expr) → render (e.pieces st) = e.script st.names
  | .number .. | .string .. | .boolean .. => by simp [Expr.pieces, Expr.script, Piece.text]
  | .identifier _ => by simp [Expr.pieces, Expr.script, Piece.text]
  | .interpolated _ segments => by
    simp [Expr.pieces, Expr.script, Piece.text, Segment.render_piecesList st segments]
  | .binary _ _ left right _ => by
    simp [Expr.pieces, Expr.script, render_infixPieces, left.render_pieces st,
      right.render_pieces st]
  | .compare _ _ left right => by
    simp [Expr.pieces, Expr.script, render_infixPieces, left.render_pieces st,
      right.render_pieces st]
  | .unary _ _ operand _ => by
    simp [Expr.pieces, Expr.script, render_prefixPieces, operand.render_pieces st]
  | .call _ _ args _ _ => by
    simp [Expr.pieces, Expr.script, Piece.text, render_commaPieces,
      Expr.render_piecesList st args]
  | .range _ bound => by simp [Expr.pieces, Expr.script, bound.render_pieces st]

theorem Expr.render_piecesList (st : Naming) :
    (es : List Expr) → (Expr.piecesList st es).map render = Expr.scriptList st.names es
  | [] => rfl
  | e :: es => by
    simp [Expr.piecesList, Expr.scriptList, e.render_pieces st, Expr.render_piecesList st es]

theorem Segment.render_piecesList (st : Naming) :
    (ss : List Segment) → render (Segment.piecesList st ss) = Segment.scriptList st.names ss
  | [] => rfl
  | .text _ :: ss => by
    simp [Segment.piecesList, Segment.pieces, Segment.scriptList, Segment.script, Piece.text,
      Segment.render_piecesList st ss]
  | .embedded value :: ss => by
    simp [Segment.piecesList, Segment.pieces, Segment.scriptList, Segment.script, Piece.text,
      value.render_pieces st, Segment.render_piecesList st ss]

end

namespace Naming

theorem names_declare (st : Naming) (d : Declaration) :
    st.names.declare d.name = ((st.declare d).1.output, (st.declare d).2.names) := rfl

theorem names_keepBound (st : Naming) (counter : Bytes) :
    st.names.declare (limitName counter) = ((st.keepBound counter).1, (st.keepBound counter).2.names) :=
  rfl

@[simp] theorem names_push (st : Naming) : st.push.names = st.names.push := rfl

@[simp] theorem names_pop (st : Naming) : st.pop.names = st.names.pop := by
  unfold pop
  split <;> rename_i h <;> simp [names, Names.pop, Scopes.mapValues, h]

private theorem names_declareAll (st : Naming) (ds : List Declaration) :
    st.names.declareAll (ds.map (·.name)) =
      ((st.declareAll ds).1.map (·.output), (st.declareAll ds).2.names) := by
  induction ds generalizing st with
  | nil => rfl
  | cons d ds ih => simp [Names.declareAll, declareAll, names_declare, ih]

end Naming

theorem functionHead_eq (st : Naming) (loc : Location) (name : Bytes) (params : List Bytes) :
    functionHead st.names name params =
      (render (functionHeadPieces st loc name params).1,
        (functionHeadPieces st loc name params).2.names) := by
  have hdeclare := st.names_declare ⟨.function, name, loc⟩
  have hparams := (st.declare ⟨.function, name, loc⟩).2.push.names_declareAll
    (params.map (⟨.parameter, ·, loc⟩))
  simp only [Naming.names_push, List.map_map, Function.comp_def, List.map_id'] at hparams
  simp [functionHead, functionHeadPieces, hdeclare, hparams, render_commaPieces, Piece.text,
    Function.comp_def]

theorem loopHead_eq (st : Naming) (counter : Identifier) (bound : Expr) :
    loopHead st.names counter.name bound =
      (render (loopHeadPieces st counter bound).1, (loopHeadPieces st counter bound).2.names) := by
  have hdeclare := st.push.names_declare ⟨.loopVariable, counter.name, counter.loc⟩
  simp only [loopHead, loopHeadPieces, ← Naming.names_push, hdeclare]
  split
  · simp [literalHead, Piece.text, bound.render_pieces st]
  · rw [Naming.names_keepBound]
    simp [namedHead, Piece.text, bound.render_pieces st]

theorem assignment_eq (st : Naming) (target : Identifier) (value : Expr) (declares : Bool) :
    assignment st.names target value declares =
      (render (assignmentPieces st target value declares).1,
        (assignmentPieces st target value declares).2.names) := by
  unfold assignment assignmentPieces
  split
  · have hdeclare := st.names_declare ⟨.assigned, target.name, target.loc⟩
    simp [hdeclare, Piece.text, value.render_pieces st]
  · simp [Piece.text, value.render_pieces st]

mutual

theorem Stmt.script_eq (depth : Nat) (st : Naming) :
    (s : Stmt) → s.script depth st.names =
      ((s.pieces depth st).1.map render, (s.pieces depth st).2.names)
  | .block _ body => by
    simp [Stmt.script, Stmt.pieces, ← Naming.names_push, Stmt.scriptList_eq _ _ body,
      render_plainLine]
  | .assign _ target value declares => by
    simp [Stmt.script, Stmt.pieces, assignment_eq, render_linePieces]
  | .print _ value | .serve _ value | .expression _ value => by
    simp [Stmt.script, Stmt.pieces, render_linePieces, Piece.text, value.render_pieces st]
  | .function loc name params _ body _ => by
    simp [Stmt.script, Stmt.pieces, functionHead_eq st loc, Stmt.scriptList_eq _ _ body,
      render_linePieces, render_plainLine]
  | .branch _ condition _ thenBody alternate => by
    simp [Stmt.script, Stmt.pieces, ← Naming.names_push, ← Naming.names_pop,
      Stmt.scriptList_eq _ _ thenBody, alternate.script_eq depth, render_linePieces, Piece.text,
      condition.render_pieces st]
  | .loop _ counter _ bound _ body => by
    simp [Stmt.script, Stmt.pieces, loopHead_eq, Stmt.scriptList_eq _ _ body, render_linePieces,
      render_plainLine]
  | .leave _ | .comment .. => by simp [Stmt.script, Stmt.pieces, render_plainLine]

theorem Alternate.script_eq (depth : Nat) (st : Naming) :
    (a : Alternate) → a.script depth st.names =
      ((a.pieces depth st).1.map render, (a.pieces depth st).2.names)
  | .none => by simp [Alternate.script, Alternate.pieces, render_plainLine]
  | .block _ body => by
    simp [Alternate.script, Alternate.pieces, ← Naming.names_push, Stmt.scriptList_eq _ _ body,
      render_plainLine]
  | .branch _ condition _ thenBody alternate => by
    simp [Alternate.script, Alternate.pieces, ← Naming.names_push, ← Naming.names_pop,
      Stmt.scriptList_eq _ _ thenBody, alternate.script_eq depth, render_linePieces, Piece.text,
      condition.render_pieces st]

theorem Stmt.scriptList_eq (depth : Nat) (st : Naming) :
    (ss : List Stmt) → Stmt.scriptList depth st.names ss =
      ((Stmt.piecesList depth st ss).1.map render, (Stmt.piecesList depth st ss).2.names)
  | [] => rfl
  | s :: ss => by
    simp [Stmt.scriptList, Stmt.piecesList, s.script_eq depth st, Stmt.scriptList_eq depth _ ss]

end

/-- The pieces of a program make its output. -/
theorem Program.render_annotated (p : Program) :
    p.script = Bytes.join (ascii "\n") (p.annotated.map render) := by
  have h := Stmt.scriptList_eq 0 {} p.statements
  have hstart : ({} : Naming).names = {} := rfl
  rw [hstart] at h
  rw [Program.script, h, Program.annotated]

end Roar
