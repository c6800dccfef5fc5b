import Roar.Compile
import Roar.Proofs.Bytes

/-!
# Comments in the output

A comment of the source is written on a line of its own behind `//`. Its text is written as it
stands, and it may hold line feeds: then only the first of its lines is behind `//`, and the others
are read as code.

- **Origins** (`Program.outputLines`): the lines of the output as a reader splits it, each with
  whether it comes from a comment or from another statement. `Stmt.sourced` pins them down: the
  lines that come from comments are those of the comments in their order, and the others are those
  of the program without its comments.
- **Marked comments** (`Program.CommentsMarked`): every line that comes from a comment begins with
  `//` behind its indentation. `commentsMarked_iff` says when: the lines of a comment after its
  first must themselves begin so. Exactly then are the comments deleted from the output by deleting
  those lines.
-/

namespace Roar

/-! ## Where the lines of the output come from -/

namespace Script

/-- What a line of the output comes from: a comment, or any other statement. -/
inductive Origin where
  | code
  | comment
deriving DecidableEq, Repr

/-- A line of the output and what it comes from. -/
structure OutputLine where
  origin : Origin
  text : Bytes
deriving DecidableEq, Repr

/-- The pieces of a line between its line feeds, all of its origin. -/
def OutputLine.pieces (l : OutputLine) : List OutputLine :=
  (Bytes.splitOn (byte '\n') l.text).map (OutputLine.mk l.origin)

/-- The texts of the lines of one origin. -/
def textsFrom (o : Origin) (lines : List OutputLine) : List Bytes :=
  (lines.filter (·.origin == o)).map (·.text)

/-- The line of a comment inside so many blocks. -/
def commentLine (comment : Nat × Bytes) : Bytes := line comment.1 (ascii "// " ++ comment.2)

end Script

open Script

mutual

/-- What each line of a statement comes from. -/
def Stmt.origins : Stmt → List Origin
  | .block _ body => .code :: Stmt.originsList body ++ [.code]
  | .function _ _ _ _ body _ => .code :: Stmt.originsList body ++ [.code]
  | .branch _ _ _ thenBody alternate => .code :: Stmt.originsList thenBody ++ alternate.origins
  | .loop _ _ _ _ _ body => .code :: Stmt.originsList body ++ [.code]
  | .comment .. => [.comment]
  | .assign .. | .print .. | .serve .. | .leave .. | .expression .. => [.code]

/-- What each line of the rest of a conditional comes from. -/
def Alternate.origins : Alternate → List Origin
  | .none => [.code]
  | .block _ body => .code :: Stmt.originsList body ++ [.code]
  | .branch _ _ _ thenBody alternate => .code :: Stmt.originsList thenBody ++ alternate.origins

/-- What each line of a list of statements comes from. -/
def Stmt.originsList : List Stmt → List Origin
  | [] => []
  | s :: ss => s.origins ++ Stmt.originsList ss

end

mutual

/-- The comments of a statement inside so many blocks, each with the number of blocks around it. -/
def Stmt.comments (depth : Nat) : Stmt → List (Nat × Bytes)
  | .block _ body => Stmt.commentsList (depth + 1) body
  | .function _ _ _ _ body _ => Stmt.commentsList (depth + 1) body
  | .branch _ _ _ thenBody alternate =>
    Stmt.commentsList (depth + 1) thenBody ++ alternate.comments depth
  | .loop _ _ _ _ _ body => Stmt.commentsList (depth + 1) body
  | .comment _ text => [(depth, text)]
  | .assign .. | .print .. | .serve .. | .leave .. | .expression .. => []

/-- The comments of the rest of a conditional. -/
def Alternate.comments (depth : Nat) : Alternate → List (Nat × Bytes)
  | .none => []
  | .block _ body => Stmt.commentsList (depth + 1) body
  | .branch _ _ _ thenBody alternate =>
    Stmt.commentsList (depth + 1) thenBody ++ alternate.comments depth

/-- The comments of a list of statements. -/
def Stmt.commentsList (depth : Nat) : List Stmt → List (Nat × Bytes)
  | [] => []
  | s :: ss => s.comments depth ++ Stmt.commentsList depth ss

end

mutual

/-- A statement without its comments: nothing is left of a comment. -/
def Stmt.withoutComments : Stmt → List Stmt
  | .block loc body => [.block loc (Stmt.withoutCommentsList body)]
  | .function loc name params types body result =>
    [.function loc name params types (Stmt.withoutCommentsList body) result]
  | .branch loc condition thenLoc thenBody alternate =>
    [.branch loc condition thenLoc (Stmt.withoutCommentsList thenBody) alternate.withoutComments]
  | .loop loc counter rangeLoc bound bodyLoc body =>
    [.loop loc counter rangeLoc bound bodyLoc (Stmt.withoutCommentsList body)]
  | .comment .. => []
  | s => [s]

/-- The rest of a conditional without its comments. -/
def Alternate.withoutComments : Alternate → Alternate
  | .none => .none
  | .block loc body => .block loc (Stmt.withoutCommentsList body)
  | .branch loc condition thenLoc thenBody alternate =>
    .branch loc condition thenLoc (Stmt.withoutCommentsList thenBody) alternate.withoutComments

/-- A list of statements without its comments. -/
def Stmt.withoutCommentsList : List Stmt → List Stmt
  | [] => []
  | s :: ss => s.withoutComments ++ Stmt.withoutCommentsList ss

end

namespace Program

/-- The comments of a program, each with the number of blocks around it. -/
def comments (p : Program) : List (Nat × Bytes) := Stmt.commentsList 0 p.statements

/-- A program without its comments. -/
def withoutComments (p : Program) : Program :=
  { p with statements := Stmt.withoutCommentsList p.statements }

/-- The lines of a program as they are written, each with what it comes from. -/
def writtenLines (p : Program) : List OutputLine :=
  List.zipWith OutputLine.mk (Stmt.originsList p.statements)
    (Stmt.scriptList 0 {} p.statements).1

/-- The lines of the output, each with what it comes from: those that are written, split at the
line feeds in them. -/
def outputLines (p : Program) : List OutputLine := p.writtenLines.flatMap OutputLine.pieces

end Program

namespace Script

/-- Lines come from code and comments as their origins say: those from code are `code`, those from
comments are the lines of `comments`, each in order. -/
structure Sourced (origins : List Origin) (lines code : List Bytes)
    (comments : List (Nat × Bytes)) : Prop where
  length_eq : origins.length = lines.length
  code_eq : textsFrom .code (List.zipWith OutputLine.mk origins lines) = code
  comments_eq :
    textsFrom .comment (List.zipWith OutputLine.mk origins lines) = comments.map commentLine

namespace Sourced

theorem nil : Sourced [] [] [] [] := ⟨rfl, rfl, rfl⟩

theorem code (l : Bytes) : Sourced [.code] [l] [l] [] := ⟨rfl, rfl, rfl⟩

theorem comment (depth : Nat) (text : Bytes) :
    Sourced [.comment] [commentLine (depth, text)] [] [(depth, text)] := ⟨rfl, rfl, rfl⟩

variable {origins origins' : List Origin} {lines lines' code code' : List Bytes}
  {comments comments' : List (Nat × Bytes)}

theorem append (h : Sourced origins lines code comments)
    (h' : Sourced origins' lines' code' comments') :
    Sourced (origins ++ origins') (lines ++ lines') (code ++ code') (comments ++ comments') := by
  refine ⟨by simp [h.length_eq, h'.length_eq], ?_, ?_⟩
  · rw [List.zipWith_append h.length_eq, ← h.code_eq, ← h'.code_eq]
    simp [textsFrom]
  · rw [List.zipWith_append h.length_eq, List.map_append, ← h.comments_eq, ← h'.comments_eq]
    simp [textsFrom]

/-- Lines between a head and whatever ends them. -/
theorem headed (head : Bytes) (h : Sourced origins lines code comments)
    (h' : Sourced origins' lines' code' comments') :
    Sourced (.code :: origins ++ origins') (head :: lines ++ lines') (head :: code ++ code')
      (comments ++ comments') :=
  ((Sourced.code head).append h).append h'

/-- Lines between a head and a closing line. -/
theorem enclosed (head last : Bytes) (h : Sourced origins lines code comments) :
    Sourced (.code :: origins ++ [.code]) (head :: lines ++ [last]) (head :: code ++ [last])
      comments := by
  simpa using headed head h (Sourced.code last)

end Sourced

end Script

theorem Stmt.scriptList_append (depth : Nat) (t : Names) (front rest : List Stmt) :
    Stmt.scriptList depth t (front ++ rest) =
      ((Stmt.scriptList depth t front).1 ++
          (Stmt.scriptList depth (Stmt.scriptList depth t front).2 rest).1,
        (Stmt.scriptList depth (Stmt.scriptList depth t front).2 rest).2) := by
  induction front generalizing t with
  | nil => rfl
  | cons s ss ih => simp [Stmt.scriptList, ih]

theorem Stmt.scriptList_singleton (depth : Nat) (t : Names) (s : Stmt) :
    Stmt.scriptList depth t [s] = s.script depth t := by
  simp [Stmt.scriptList]

mutual

/-- The lines of a statement come from its code and its comments, and without the comments the
names are spelled alike. -/
theorem Stmt.sourced (depth : Nat) (t : Names) : (s : Stmt) →
    Sourced s.origins (s.script depth t).1 (Stmt.scriptList depth t s.withoutComments).1
        (s.comments depth) ∧
      (Stmt.scriptList depth t s.withoutComments).2 = (s.script depth t).2
  | .block loc body => by
    obtain ⟨hlines, hnames⟩ := Stmt.sourcedList (depth + 1) t.push body
    rw [Stmt.withoutComments, Stmt.scriptList_singleton]
    exact ⟨hlines.enclosed _ _, congrArg Names.pop hnames⟩
  | .function loc name params types body result => by
    obtain ⟨hlines, hnames⟩ :=
      Stmt.sourcedList (depth + 1) (functionHead t name params).2 body
    rw [Stmt.withoutComments, Stmt.scriptList_singleton]
    exact ⟨hlines.enclosed _ _, congrArg Names.pop hnames⟩
  | .branch loc condition thenLoc thenBody alternate => by
    obtain ⟨hlines, hnames⟩ := Stmt.sourcedList (depth + 1) t.push thenBody
    -- Comments declare no names, so the rest begins with the same table.
    obtain ⟨hrest, hend⟩ :=
      alternate.sourced depth (Stmt.scriptList (depth + 1) t.push thenBody).2.pop
    rw [Stmt.withoutComments, Stmt.scriptList_singleton]
    simp only [Stmt.script, hnames]
    exact ⟨hlines.headed _ hrest, hend⟩
  | .loop loc counter rangeLoc bound bodyLoc body => by
    obtain ⟨hlines, hnames⟩ :=
      Stmt.sourcedList (depth + 1) (loopHead t counter.name bound).2 body
    rw [Stmt.withoutComments, Stmt.scriptList_singleton]
    exact ⟨hlines.enclosed _ _, congrArg Names.pop hnames⟩
  | .comment _ text => ⟨.comment depth text, rfl⟩
  | .assign .. | .print .. | .serve .. | .leave .. | .expression .. => by
    simp only [Stmt.withoutComments, Stmt.scriptList_singleton, and_true]
    exact .code _

theorem Alternate.sourced (depth : Nat) (t : Names) : (a : Alternate) →
    Sourced a.origins (a.script depth t).1 (a.withoutComments.script depth t).1
        (a.comments depth) ∧
      (a.withoutComments.script depth t).2 = (a.script depth t).2
  | .none => ⟨.code _, rfl⟩
  | .block loc body => by
    obtain ⟨hlines, hnames⟩ := Stmt.sourcedList (depth + 1) t.push body
    exact ⟨hlines.enclosed _ _, congrArg Names.pop hnames⟩
  | .branch loc condition thenLoc thenBody alternate => by
    obtain ⟨hlines, hnames⟩ := Stmt.sourcedList (depth + 1) t.push thenBody
    obtain ⟨hrest, hend⟩ :=
      alternate.sourced depth (Stmt.scriptList (depth + 1) t.push thenBody).2.pop
    simp only [Alternate.withoutComments, Alternate.script, hnames]
    exact ⟨hlines.headed _ hrest, hend⟩

theorem Stmt.sourcedList (depth : Nat) (t : Names) : (ss : List Stmt) →
    Sourced (Stmt.originsList ss) (Stmt.scriptList depth t ss).1
        (Stmt.scriptList depth t (Stmt.withoutCommentsList ss)).1 (Stmt.commentsList depth ss) ∧
      (Stmt.scriptList depth t (Stmt.withoutCommentsList ss)).2 = (Stmt.scriptList depth t ss).2
  | [] => ⟨.nil, rfl⟩
  | s :: ss => by
    obtain ⟨hfirst, hnames⟩ := s.sourced depth t
    obtain ⟨hrest, hend⟩ := Stmt.sourcedList depth (s.script depth t).2 ss
    rw [Stmt.withoutCommentsList, Stmt.scriptList_append, hnames]
    exact ⟨hfirst.append hrest, hend⟩

end

/-! ## The lines of the output -/

namespace Script

theorem map_text_pieces (l : OutputLine) :
    l.pieces.map (·.text) = Bytes.splitOn (byte '\n') l.text := by
  rw [OutputLine.pieces, List.map_map]
  exact List.map_id _

private theorem textsFrom_pieces (o : Origin) (l : OutputLine) :
    textsFrom o l.pieces = (textsFrom o [l]).flatMap (Bytes.splitOn (byte '\n')) := by
  have horigin : ∀ piece ∈ l.pieces, piece.origin = l.origin := by
    intro piece hp
    obtain ⟨_, -, rfl⟩ := List.mem_map.mp hp
    rfl
  by_cases h : l.origin = o
  · have hall : l.pieces.filter (·.origin == o) = l.pieces :=
      List.filter_eq_self.mpr fun piece hp => by simp [horigin piece hp, h]
    simp [textsFrom, hall, map_text_pieces, h]
  · have hnone : l.pieces.filter (·.origin == o) = [] :=
      List.filter_eq_nil_iff.mpr fun piece hp => by simp [horigin piece hp, h]
    simp [textsFrom, hnone, h]

/-- The lines of one origin are cut at their line feeds like all others. -/
theorem textsFrom_flatMap_pieces (o : Origin) (lines : List OutputLine) :
    textsFrom o (lines.flatMap OutputLine.pieces) =
      (textsFrom o lines).flatMap (Bytes.splitOn (byte '\n')) := by
  induction lines with
  | nil => rfl
  | cons l ls ih =>
    have happend : ∀ xs ys, textsFrom o (xs ++ ys) = textsFrom o xs ++ textsFrom o ys := by
      intro xs ys; simp [textsFrom]
    rw [List.flatMap_cons, happend, textsFrom_pieces, ih, ← List.flatMap_append, ← happend]
    rfl

theorem Sourced.map_text {origins : List Origin} {lines code : List Bytes}
    {comments : List (Nat × Bytes)} (h : Sourced origins lines code comments) :
    (List.zipWith OutputLine.mk origins lines).map (·.text) = lines := by
  rw [List.map_zipWith, ← List.map_uncurry_zip_eq_zipWith]
  exact List.map_snd_zip (Nat.le_of_eq h.length_eq.symm)

end Script

namespace Program

theorem sourced (p : Program) :
    Sourced (Stmt.originsList p.statements) (Stmt.scriptList 0 {} p.statements).1
      (Stmt.scriptList 0 {} p.withoutComments.statements).1 p.comments :=
  (Stmt.sourcedList 0 {} p.statements).1

theorem map_text_outputLines (p : Program) :
    p.outputLines.map (·.text) =
      (Stmt.scriptList 0 {} p.statements).1.flatMap (Bytes.splitOn (byte '\n')) := by
  rw [outputLines, List.map_flatMap]
  simp only [map_text_pieces]
  rw [← List.flatMap_map, writtenLines, p.sourced.map_text]

/-- The output is its lines, one below the other. -/
theorem script_eq_join (p : Program) :
    p.script = Bytes.join (ascii "\n") (p.outputLines.map (·.text)) := by
  rw [map_text_outputLines]
  exact (Bytes.join_flatMap_splitOn _ _).symm

theorem not_mem_of_mem_outputLines {p : Program} {l : OutputLine} (h : l ∈ p.outputLines) :
    byte '\n' ∉ l.text := by
  obtain ⟨_, -, hl⟩ := List.mem_flatMap.mp h
  obtain ⟨_, hpiece, rfl⟩ := List.mem_map.mp hl
  exact Bytes.not_mem_of_mem_splitOn hpiece

/-- The lines that come from code are those of the program without its comments. -/
theorem textsFrom_code (p : Program) :
    textsFrom .code p.outputLines = p.withoutComments.outputLines.map (·.text) := by
  rw [map_text_outputLines, ← p.sourced.code_eq]
  exact textsFrom_flatMap_pieces .code p.writtenLines

theorem textsFrom_comment (p : Program) :
    textsFrom .comment p.outputLines =
      (p.comments.map commentLine).flatMap (Bytes.splitOn (byte '\n')) := by
  rw [← p.sourced.comments_eq]
  exact textsFrom_flatMap_pieces .comment p.writtenLines

end Program

/-! ## Marked comments -/

namespace Script

/-- A byte that may indent a line. -/
def isIndentation (c : UInt8) : Bool := c == byte ' ' || c == byte '\t'

/-- A line that begins with `//` behind its indentation. -/
def isCommentLine (text : Bytes) : Bool := (ascii "//").isPrefixOf (text.dropWhile isIndentation)

/-- A line that comes from a comment and is read as one. -/
def OutputLine.isMarked (l : OutputLine) : Bool := l.origin == .comment && isCommentLine l.text

/-- Every line of a comment after its first one begins with `//` by itself. -/
def MarkedFurther (text : Bytes) : Prop :=
  ∀ l ∈ (Bytes.splitOn (byte '\n') text).tail, isCommentLine l = true

private theorem isCommentLine_commentLine (depth : Nat) (text : Bytes) :
    isCommentLine (commentLine (depth, text)) = true := by
  have hindent : ∀ c ∈ List.replicate (2 * depth) (byte ' '), isIndentation c = true := by
    intro c hc
    rw [List.eq_of_mem_replicate hc]; rfl
  rw [isCommentLine, commentLine, line, List.dropWhile_append_of_pos hindent]
  rfl

/-- The front of a comment's line joins the first line of its text. -/
theorem splitOn_commentLine (depth : Nat) (text : Bytes) :
    Bytes.splitOn (byte '\n') (commentLine (depth, text)) =
      (Bytes.splitOn (byte '\n') text).modifyHead fun first => commentLine (depth, first) := by
  have hfront : byte '\n' ∉ List.replicate (2 * depth) (byte ' ') ++ ascii "// " := by
    rw [List.mem_append, not_or]
    exact ⟨fun h => absurd (List.eq_of_mem_replicate h) (by decide), by decide⟩
  have hsplit := Bytes.splitOn_append hfront text
  simpa only [commentLine, line, List.append_assoc] using hsplit

theorem forall_splitOn_commentLine (comment : Nat × Bytes) :
    (∀ l ∈ Bytes.splitOn (byte '\n') (commentLine comment), isCommentLine l = true) ↔
      MarkedFurther comment.2 := by
  obtain ⟨depth, text⟩ := comment
  obtain ⟨first, rest, hs⟩ := List.exists_cons_of_ne_nil (Bytes.splitOn_ne_nil (byte '\n') text)
  rw [splitOn_commentLine, MarkedFurther, hs, List.modifyHead_cons, List.tail_cons,
    List.forall_mem_cons]
  exact and_iff_right (isCommentLine_commentLine depth first)

end Script

namespace Program

/-- Every line that comes from a comment begins with `//` behind its indentation. -/
def CommentsMarked (p : Program) : Prop :=
  ∀ l ∈ p.outputLines, l.origin = .comment → isCommentLine l.text = true

instance (p : Program) : Decidable p.CommentsMarked :=
  inferInstanceAs (Decidable (∀ l ∈ p.outputLines, l.origin = .comment → isCommentLine l.text = true))

theorem commentsMarked_iff_comments (p : Program) :
    p.CommentsMarked ↔ ∀ c ∈ p.comments, MarkedFurther c.2 := by
  have htexts : p.CommentsMarked ↔
      ∀ text ∈ textsFrom .comment p.outputLines, isCommentLine text = true := by
    simp only [textsFrom, List.forall_mem_map, List.mem_filter, beq_iff_eq, and_imp]
    rfl
  rw [htexts, textsFrom_comment]
  simp only [List.mem_flatMap, List.mem_map, ← forall_splitOn_commentLine]
  constructor
  · intro h c hc l hl
    exact h l ⟨_, ⟨c, hc, rfl⟩, hl⟩
  · rintro h l ⟨_, ⟨c, hc, rfl⟩, hl⟩
    exact h c hc l hl

/-- Deleting the comments deletes the lines that are read as comments, and no other, exactly if
every line that comes from a comment is read as one. -/
theorem commentsMarked_iff_lines (p : Program) :
    p.CommentsMarked ↔ p.withoutComments.outputLines.map (·.text) =
      (p.outputLines.filter (!·.isMarked)).map (·.text) := by
  rw [← textsFrom_code, textsFrom]
  constructor
  · intro h
    refine congrArg (List.map _) (List.filter_congr fun l hl => ?_)
    cases ho : l.origin with
    | code => simp [OutputLine.isMarked, ho]
    | comment => simp [OutputLine.isMarked, ho, h l hl ho]
  · intro h l hl ho
    -- The lines from code are among those that are not marked. As many, they are all of them.
    have hsub : p.outputLines.filter (·.origin == .code) =
        (p.outputLines.filter (!·.isMarked)).filter (·.origin == .code) := by
      rw [List.filter_filter]
      refine List.filter_congr fun l _ => ?_
      cases hc : l.origin <;> simp [OutputLine.isMarked, hc]
    have hlength := congrArg List.length h
    rw [List.length_map, List.length_map, hsub, List.length_filter_eq_length_iff] at hlength
    cases hmark : isCommentLine l.text with
    | true => rfl
    | false =>
      have hcode := hlength l (List.mem_filter.mpr ⟨hl, by simp [OutputLine.isMarked, hmark]⟩)
      rw [ho] at hcode
      cases hcode

end Program

/-- The output of a program is its lines, those from code being the lines of the program without
its comments. Every line from a comment begins with `//` if and only if every line after the first
one in the text of a comment does, and exactly then is the output without the lines that are read
as comments, line by line, the output of the program without its comments. -/
theorem commentsMarked_iff (p : Program) :
    (generate p (ascii "js") = .ok (Bytes.join (ascii "\n") (p.outputLines.map (·.text))) ∧
      (∀ l ∈ p.outputLines, byte '\n' ∉ l.text) ∧
      textsFrom .code p.outputLines = p.withoutComments.outputLines.map (·.text)) ∧
    (p.CommentsMarked ↔ ∀ c ∈ p.comments, MarkedFurther c.2) ∧
    (p.CommentsMarked ↔ p.withoutComments.outputLines.map (·.text) =
      (p.outputLines.filter (!·.isMarked)).map (·.text)) ∧
    (p.CommentsMarked → generate p.withoutComments (ascii "js") =
      .ok (Bytes.join (ascii "\n") ((p.outputLines.filter (!·.isMarked)).map (·.text)))) := by
  refine ⟨⟨?_, fun l => p.not_mem_of_mem_outputLines, p.textsFrom_code⟩,
    p.commentsMarked_iff_comments, p.commentsMarked_iff_lines, fun h => ?_⟩
  · exact congrArg Except.ok p.script_eq_join
  · rw [← p.commentsMarked_iff_lines.mp h]
    exact congrArg Except.ok p.withoutComments.script_eq_join

/-- A comment over two lines, and a statement. -/
def commentOverLines : Bytes := ascii "~ a\nb ~\nroar 1\n"

/-- The second line of the comment is no comment in the output. -/
theorem commentOverLines_not_marked :
    ¬ ∀ (source : Bytes) (file : Nat) (p : Program),
      analyzeSource source file = .ok p → p.CommentsMarked := by
  intro h
  have hfails : (analyzeSource commentOverLines 0).toOption.any (!decide ·.CommentsMarked) := by
    decide +kernel
  cases hp : analyzeSource commentOverLines 0 with
  | ok p =>
    rw [hp] at hfails
    exact absurd (h _ _ p hp) (by simpa [Except.toOption] using hfails)
  | error d => rw [hp] at hfails; cases hfails

end Roar
