import Roar.Proofs.Grammar.Accepting

/-!
# Statements that are written are read

Statements have no separator. What can follow a statement (`endsStatement`) never goes on with it: no
operator, no assignment and no further arm of a conditional statement. So every statement is read up
to its end (`Stmt.accepts`), and the comments between statements are found before the token behind
them (`Stmt.acceptsList`).
-/

namespace Roar.Grammar

open Parse
open Roar.Grammar.Parser (Sees)

/-! ## Sizes and ends -/

/-- How many tokens stand on lines. -/
def size : List Line → Nat
  | [] => 0
  | .atom _ :: lines => size lines + 1
  | .comment _ :: lines => size lines

@[simp] theorem size_nil : size [] = 0 := rfl

@[simp] theorem size_atom (a : Atom) (lines : List Line) : size (.atom a :: lines) = size lines + 1 :=
  rfl

@[simp] theorem size_comment (text : Bytes) (lines : List Line) :
    size (.comment text :: lines) = size lines := rfl

@[simp] theorem size_append (lines lines' : List Line) :
    size (lines ++ lines') = size lines + size lines' := by
  induction lines with
  | nil => simp
  | cons line lines ih =>
    cases line with
    | atom a =>
      simp only [List.cons_append, size_atom, ih]
      omega
    | comment text => simp only [List.cons_append, size_comment, ih]

@[simp] theorem size_word (k : Keyword) (lines : List Line) : size (word k :: lines) = size lines + 1 :=
  size_atom _ lines

@[simp] theorem size_sign (s : Symbol) (lines : List Line) : size (sign s :: lines) = size lines + 1 :=
  size_atom _ lines

@[simp] theorem size_map_atom (atoms : List Atom) : size (atoms.map .atom) = atoms.length := by
  induction atoms with
  | nil => rfl
  | cons a atoms ih => simp [ih]

@[simp] theorem size_lines (e : Expr) : size e.lines = e.lines.length := by
  simp [Expr.lines]

@[simp] theorem size_block (lines : List Line) : size (blockLines lines) = size lines + 2 := by
  simp [blockLines]

theorem length_views (lines : List Line) : (views lines).length = size lines + 1 := by
  induction lines with
  | nil => rfl
  | cons line lines ih =>
    cases line with
    | atom a => simp [views, ih]
    | comment text => simp [views, ih]

/-- A lexeme that can stand behind a statement. -/
def endsStatement : Lexeme → Bool
  | .endOfInput | .symbol .bar | .symbol .openParen | .keyword .roar | .keyword .ignite
  | .keyword .serve | .keyword .prowl | .keyword .ifWord | .keyword .breakWord => true
  | _ => false

theorem strength_of_endsStatement {x : Lexeme} (h : endsStatement x) : Parse.strength x = 0 := by
  unfold endsStatement at h
  split at h
  case h_10 => cases h
  all_goals rfl

theorem not_assign_of_endsStatement {x : Lexeme} (h : endsStatement x) :
    (x == .symbol .assign) = false := by
  rw [beq_eq_false_iff_ne]
  rintro rfl
  cases h

/-- What stands behind a list of statements: nothing, or a bar. -/
inductive Stops : List Line → Prop
  | nil : Stops []
  | bar (lines : List Line) : Stops (sign .bar :: lines)

theorem Stops.endsStatement {lines : List Line} (h : Stops lines) :
    endsStatement (firstLexeme lines) := by
  cases h <;> rfl

theorem endsStatement_linesList {ss : List Stmt} (h : Stmt.WritableList ss) {more : List Line}
    (hmore : endsStatement (firstLexeme more)) :
    endsStatement (firstLexeme (Stmt.linesList ss ++ more)) := by
  induction ss with
  | nil => exact hmore
  | cons s ss ih =>
    cases s with
    | comment _ text => exact ih h.2
    | branch _ arms =>
      cases arms with
      | arm _ condition _ body rest => rfl
      | _ => cases h.1.1
    | _ => rfl

/-! ## Statements -/

/-- The same statement, perhaps at another place. -/
def SameStmt (s s' : Stmt) : Prop := s'.unplaced = s.unplaced

def SameStmts (ss ss' : List Stmt) : Prop := Stmt.unplacedList ss' = Stmt.unplacedList ss

def SameArms (arms arms' : Arms) : Prop := arms'.unplaced = arms.unplaced

def SameParams (ps ps' : List Param) : Prop := ps'.map Param.unplaced = ps.map Param.unplaced

theorem accepts_paramList {ps : List Param} (hne : ps ≠ []) {more : List Line} {n : Nat}
    (hn : (paramAtoms ps).length ≤ n) :
    Accepts (paramList n) ((paramAtoms ps).map .atom ++ sign .closeParen :: more) more
      (SameParams ps) := by
  induction ps generalizing n with
  | nil => exact absurd rfl hne
  | cons p ps ih =>
    cases ps with
    | nil =>
      simp only [paramAtoms, List.length_cons, List.length_nil] at hn
      obtain ⟨n, rfl⟩ : ∃ m, n = m + 1 := ⟨n - 1, by omega⟩
      rw [paramList]
      refine (accepts_name .parameterName p.name _).bind fun t ht => ?_
      refine (accepts_at? .comma _).bind fun b hb => ?_
      obtain rfl : b = false := hb
      refine (accepts_expect .closeParen more).bind fun _ _ => accepts_pure ?_
      simp [SameParams, Param.unplaced, ht]
    | cons q ps =>
      simp only [paramAtoms, List.length_cons] at hn
      obtain ⟨n, rfl⟩ : ∃ m, n = m + 1 := ⟨n - 1, by omega⟩
      rw [paramList]
      refine (accepts_name .parameterName p.name _).bind fun t ht => ?_
      refine (accepts_at? .comma _).bind fun b hb => ?_
      obtain rfl : b = true := hb
      refine (accepts_advance (.symbol .comma) _).bind fun _ _ => ?_
      refine (ih (by simp) (by omega)).bind fun ps' hps' => accepts_pure ?_
      simp only [SameParams, List.map_cons, Param.unplaced, ht] at hps' ⊢
      rw [hps']

theorem accepts_params {ps : List Param} {more : List Line} {n : Nat}
    (hn : (paramAtoms ps).length ≤ n) :
    Accepts (params n) ((paramAtoms ps).map .atom ++ sign .closeParen :: more) more
      (SameParams ps) := by
  rw [params]
  refine (accepts_at? .closeParen _).bind fun b hb => ?_
  match ps with
  | [] =>
    obtain rfl : b = true := hb
    exact (accepts_advance (.symbol .closeParen) more).bind fun _ _ => accepts_pure rfl
  | [p] =>
    obtain rfl : b = false := hb
    exact accepts_paramList (by simp) hn
  | p :: q :: ps =>
    obtain rfl : b = false := hb
    exact accepts_paramList (by simp) hn

/-- An expression in parentheses, in a rule that goes on behind it. -/
theorem accepts_enclosed {β : Type} {e : Expr} (h : e.Writable) {more after : List Line} {n : Nat}
    {next : Expr → Parse β} {result : β → Prop} (hn : 16 * e.lines.length ≤ n)
    (hnext : ∀ e', SameExpr e e' → Accepts (next e') more after result) :
    Accepts (do expect .openParen; let e ← expression n; expect .closeParen; next e : Parse β)
      (e.lines ++ more) after result := by
  rw [Expr.lines, List.length_map, length_enclosed] at hn
  rw [Expr.lines, map_enclosed_append]
  refine (accepts_expect .openParen _).bind fun _ _ => ?_
  refine ((e.accepted h).expression (by omega) rfl (firstLexeme_sign_ne (by decide) _)).bind
    fun e' he' => ?_
  exact (accepts_expect .closeParen more).bind fun _ _ => hnext e' he'

theorem accepts_expressionStatement {e : Expr} {loc : Location} (h : e.Writable) {more : List Line}
    {n : Nat} (hn : 16 * e.lines.length ≤ n + 1) (hmore : endsStatement (firstLexeme more)) :
    Accepts (expressionStatement n) (e.lines ++ more) more (SameStmt (.expression loc e)) := by
  rw [expressionStatement]
  refine (accepts_look _).bind fun t _ => ?_
  refine (Expr.accepts_lines h (by omega) (strength_of_endsStatement hmore)).bind fun e' he' => ?_
  refine (accepts_at? .assign more).bind fun b hb => ?_
  obtain rfl : b = false := hb.trans (not_assign_of_endsStatement hmore)
  refine accepts_pure ?_
  rw [SameStmt, Stmt.unplaced, Stmt.unplaced, he']

theorem accepts_assignment {target value : Expr} {loc : Location} (htarget : target.Writable)
    (hvalue : value.Writable) {more : List Line} {n : Nat}
    (hn : 16 * (target.lines.length + value.lines.length) ≤ n)
    (hmore : endsStatement (firstLexeme more)) :
    Accepts (expressionStatement n) (target.lines ++ sign .assign :: (value.lines ++ more)) more
      (SameStmt (.assign loc target value)) := by
  rw [expressionStatement]
  refine (accepts_look _).bind fun t _ => ?_
  refine (Expr.accepts_lines htarget (by omega) rfl).bind fun e he => ?_
  refine (accepts_at? .assign _).bind fun b hb => ?_
  obtain rfl : b = true := hb
  refine (accepts_advance (.symbol .assign) _).bind fun _ _ => ?_
  refine (Expr.accepts_lines hvalue (by omega) (strength_of_endsStatement hmore)).bind fun e' he' => ?_
  refine accepts_pure ?_
  rw [SameStmt, Stmt.unplaced, Stmt.unplaced, he, he']

/-- A word and an expression behind it. -/
theorem accepts_wordExpression {k : Keyword} {s : Stmt} {value : Expr} {make : Expr → Stmt}
    (h : value.Writable) {more : List Line} {n : Nat} (hn : 16 * value.lines.length ≤ n + 1)
    (hmore : endsStatement (firstLexeme more))
    (hmake : ∀ value', SameExpr value value' → SameStmt s (make value')) :
    Accepts (do let _ ← advance; let e ← expression n; pure (make e) : Parse Stmt)
      (word k :: (value.lines ++ more)) more (SameStmt s) := by
  refine (accepts_advance (.keyword k) _).bind fun _ _ => ?_
  refine (Expr.accepts_lines h hn (strength_of_endsStatement hmore)).bind fun e he => ?_
  exact accepts_pure (hmake e he)

/-! ### Blocks behind a head -/

/-- The statements of a block are read, whatever stands behind it. -/
def BodyAccepted (body : List Stmt) : Prop :=
  ∀ n more, 16 * size (Stmt.linesList body) < n →
    Accepts (statements n) (Stmt.linesList body ++ sign .bar :: more) (sign .bar :: more)
      (SameStmts body)

/-- A block whose statements are read is read. -/
theorem BodyAccepted.block {body : List Stmt} (h : BodyAccepted body) {more : List Line} {n : Nat}
    (hn : 16 * (size (Stmt.linesList body) + 2) ≤ n) :
    Accepts (block n) (blockLines (Stmt.linesList body) ++ more) more
      fun b => SameStmts body b.2 := by
  obtain ⟨n, rfl⟩ : ∃ m, n = m + 1 := ⟨n - 1, by omega⟩
  have hlines : blockLines (Stmt.linesList body) ++ more =
      sign .bar :: (Stmt.linesList body ++ sign .bar :: more) := by
    simp [blockLines]
  rw [Parse.block, hlines]
  refine (accepts_look _).bind fun t _ => ?_
  refine (accepts_expect .bar _).bind fun _ _ => ?_
  refine (h n more (by omega)).bind fun ss hss => ?_
  exact (accepts_expect .bar more).bind fun _ _ => accepts_pure hss

theorem accepts_function {loc bodyLoc : Location} {name : Bytes} {ps : List Param}
    {body : List Stmt} (hbody : BodyAccepted body) {more : List Line} {n : Nat}
    (hn : 16 * size (Stmt.function loc name ps bodyLoc body).lines ≤ n + 1) :
    Accepts (statement (n + 1)) ((Stmt.function loc name ps bodyLoc body).lines ++ more) more
      (SameStmt (.function loc name ps bodyLoc body)) := by
  simp only [Stmt.lines, List.cons_append, List.append_assoc, map_enclosed_append, size_word,
    size_atom, size_sign, size_append, size_map_atom, size_block] at hn ⊢
  rw [statement]
  refine (accepts_current (.keyword .ignite) _).bind fun t ht => ?_
  simp only [ht.lexeme, Atom.lexeme]
  refine (accepts_advance _ _).bind fun _ _ => ?_
  refine (accepts_name .functionName name _).bind fun f hf => ?_
  refine (accepts_expect .openParen _).bind fun _ _ => ?_
  refine (accepts_params (by omega)).bind fun ps' hps => ?_
  refine (hbody.block (by omega)).bind fun b hb => accepts_pure ?_
  rw [SameStmt, Stmt.unplaced, Stmt.unplaced, hf, hps, hb]

theorem accepts_loop {loc rangeLoc bodyLoc : Location} {counter bound : Expr} {body : List Stmt}
    (hcounter : counter.Writable) (hbound : bound.Writable) (hbody : BodyAccepted body)
    {more : List Line} {n : Nat}
    (hn : 16 * size (Stmt.loop loc counter rangeLoc bound bodyLoc body).lines ≤ n + 1) :
    Accepts (statement (n + 1)) ((Stmt.loop loc counter rangeLoc bound bodyLoc body).lines ++ more)
      more (SameStmt (.loop loc counter rangeLoc bound bodyLoc body)) := by
  simp only [Stmt.lines, List.cons_append, List.append_assoc, size_word, size_append, size_lines,
    size_block] at hn ⊢
  rw [statement]
  refine (accepts_current (.keyword .prowl) _).bind fun t ht => ?_
  simp only [ht.lexeme, Atom.lexeme]
  refine (accepts_advance _ _).bind fun _ _ => ?_
  refine (Expr.accepts_primary hcounter (by omega) rfl).bind fun c hc => ?_
  refine (accepts_expectKeyword .inWord _).bind fun _ _ => ?_
  refine (accepts_look _).bind fun range _ => ?_
  refine (accepts_expectKeyword .range _).bind fun _ _ => ?_
  refine accepts_enclosed hbound (by omega) fun e he => ?_
  refine (hbody.block (by omega)).bind fun b hb => accepts_pure ?_
  rw [SameStmt, Stmt.unplaced, Stmt.unplaced, hc, he, hb]

/-! ### Conditional statements -/

theorem accepts_done {more : List Line} (hmore : endsStatement (firstLexeme more)) (n : Nat) :
    Accepts (moreArms (n + 1)) more more (SameArms .done) := by
  rw [moreArms]
  refine (accepts_look more).bind fun t ht => ?_
  split
  · rename_i helse
    rw [← ht, helse] at hmore
    cases hmore
  · rename_i hotherwise
    rw [← ht, hotherwise] at hmore
    cases hmore
  · exact accepts_pure rfl

/-- An arm, if the statements of its block and the arms behind it are read. -/
theorem accepts_arm {loc bodyLoc : Location} {condition : Expr} {body : List Stmt} {rest : Arms}
    {first : Keyword} {more : List Line} {n : Nat} (hcondition : condition.Writable)
    (hn : 16 * size ((Arms.arm loc condition bodyLoc body rest).lines first) ≤ n + 1)
    (hbody : BodyAccepted body)
    (hrest : ∀ m, 16 * size (rest.lines .elseWord) < m →
      Accepts (moreArms m) (rest.lines .elseWord ++ more) more (SameArms rest)) :
    Accepts (arm n) ((Arms.arm loc condition bodyLoc body rest).lines first ++ more) more
      (SameArms (.arm loc condition bodyLoc body rest)) := by
  simp only [Arms.lines, List.cons_append, List.append_assoc, size_word, size_append, size_lines,
    size_block] at hn ⊢
  obtain ⟨n, rfl⟩ : ∃ m, n = m + 1 := ⟨n - 1, by omega⟩
  rw [arm]
  refine (accepts_advance (.keyword first) _).bind fun t _ => ?_
  refine accepts_enclosed hcondition (by omega) fun e he => ?_
  refine (hbody.block (by omega)).bind fun b hb => ?_
  refine (hrest n (by omega)).bind fun arms harms => accepts_pure ?_
  rw [SameArms, Arms.unplaced, Arms.unplaced, he, hb, harms]

/-! ### Comments -/

/-- A comment in front belongs to the current token. -/
theorem Parser.Sees.exists_comment {p : Parser} {text : Bytes} {lines : List Line}
    (h : p.Sees (.comment text :: lines)) :
    ∃ c cs, p.current.comments = c :: cs ∧ c.text = text ∧
      Sees { p with current := { p.current with comments := cs } } lines := by
  obtain ⟨htokens, hfailed, herrors⟩ := h
  obtain ⟨v, vs, hviews, -⟩ := exists_views lines
  simp only [List.map_cons, views, hviews, List.modifyHead_cons, List.cons.injEq] at htokens
  obtain ⟨hcurrent, hahead⟩ := htokens
  have hcomments : p.current.comments.map (·.text) = text :: v.comments :=
    congrArg View.comments hcurrent
  obtain ⟨c, cs, hcs, hc, hrest⟩ := List.map_eq_cons_iff.mp hcomments
  refine ⟨c, cs, hcs, hc, ?_, hfailed, herrors⟩
  have hv : ({ p.current with comments := cs } : Token).view = v := by
    rw [Token.view, hrest, show p.current.lexeme = v.lexeme from congrArg View.lexeme hcurrent,
      show p.current.text = v.text from congrArg View.text hcurrent]
  rw [List.map_cons, hv, hahead, hviews]

/-- Statements with one more comment in front. -/
theorem statements_push {n : Nat} {p q : Parser} {c : Comment} {cs : List Comment} {ss : List Stmt}
    (hcomments : p.current.comments = c :: cs)
    (h : statements n { p with current := { p.current with comments := cs } } = (some ss, q)) :
    statements n p = (some (.comment c.location c.text :: ss), q) := by
  cases n with
  | zero => cases h
  | succ n =>
    -- both parsers take their comments first, and then they are the same
    simp only [statements, takeComments_bind, current_bind] at h ⊢
    rw [hcomments]
    split at h
    · rename_i hstarts
      obtain ⟨s, r, hs, h⟩ := exists_of_bind h
      obtain ⟨rest, r', hrest, h⟩ := exists_of_bind h
      cases h
      rw [if_pos hstarts]
      simp only [Bind.bind, hs, hrest]
      rfl
    · rename_i hstarts
      obtain ⟨_, r, hsound, h⟩ := exists_of_bind h
      cases h
      rw [if_neg hstarts]
      simp only [Bind.bind, hsound]
      rfl

/-- Without a comment in front there is none to take. -/
theorem accepts_takeComments {lines : List Line} (h : ∀ text more, lines ≠ .comment text :: more) :
    Accepts takeComments lines lines fun comments => comments = [] := by
  intro p hp
  have hnone : p.current.comments = [] := by
    have hfirst := congrArg List.head? hp.tokens
    cases lines with
    | nil =>
      simp only [List.map_cons, views, List.head?_cons, Option.some.injEq] at hfirst
      exact List.map_eq_nil_iff.mp (congrArg View.comments hfirst)
    | cons line lines =>
      cases line with
      | atom a =>
        simp only [List.map_cons, views, List.head?_cons, Option.some.injEq] at hfirst
        exact List.map_eq_nil_iff.mp (congrArg View.comments hfirst)
      | comment text => exact absurd rfl (h text lines)
  have hsame : { p with current := { p.current with comments := [] } } = p := by rw [← hnone]
  exact ⟨[], p, by rw [takeComments, hsame, hnone], rfl, hp⟩

/-! ### Lists of statements -/

def Stmt.isNote : Stmt → Bool
  | .comment .. => true
  | _ => false

/-- A statement that is no comment begins with a token that begins a statement. -/
theorem exists_start {s : Stmt} (h : s.Writable) (hnote : s.isNote = false) :
    ∃ a lines, s.lines = .atom a :: lines ∧ startsStatement a.lexeme := by
  cases s with
  | comment _ text => cases hnote
  | branch _ arms =>
    cases arms with
    | arm _ condition _ body rest => exact ⟨_, _, rfl, rfl⟩
    | _ => cases h.1
  | _ => exact ⟨_, _, rfl, rfl⟩

theorem exists_armLines {arms : Arms} (h : arms.hasArm) (first : Keyword) :
    ∃ lines, arms.lines first = word first :: lines := by
  cases arms with
  | arm _ condition _ body rest => exact ⟨_, rfl⟩
  | _ => cases h

theorem accepts_nil {more : List Line} (hmore : Stops more) (n : Nat) :
    Accepts (statements (n + 1)) more more (SameStmts []) := by
  rw [statements]
  refine (accepts_takeComments (by intro text rest h; cases hmore <;> cases h)).bind fun cs hcs => ?_
  refine (accepts_look more).bind fun t ht => ?_
  have hstop : startsStatement t.lexeme = false := by
    rw [ht]
    cases hmore <;> rfl
  simp only [hstop, Bool.false_eq_true, if_false, hcs]
  exact (accepts_sound more).bind fun _ _ => accepts_pure rfl

/-- A comment in front of statements that are read. -/
theorem accepts_note {loc : Location} {text : Bytes} {ss : List Stmt} {lines more : List Line} {n : Nat}
    (h : Accepts (statements n) lines more (SameStmts ss)) :
    Accepts (statements n) (.comment text :: lines) more (SameStmts (.comment loc text :: ss)) := by
  intro p hp
  obtain ⟨c, cs, hcomments, htext, hrest⟩ := hp.exists_comment
  obtain ⟨ss', q, hss', hsame, hq⟩ := h _ hrest
  refine ⟨_, q, statements_push hcomments hss', ?_, hq⟩
  rw [SameStmts, Stmt.unplacedList, Stmt.unplacedList, Stmt.unplaced, Stmt.unplaced, htext, hsame]

/-- A statement in front of statements that are read. -/
theorem accepts_cons {s : Stmt} {ss : List Stmt} {lines more : List Line} {n : Nat} (h : s.Writable)
    (hnote : s.isNote = false) (hs : Accepts (statement n) (s.lines ++ lines) lines (SameStmt s))
    (hss : Accepts (statements n) lines more (SameStmts ss)) :
    Accepts (statements (n + 1)) (s.lines ++ lines) more (SameStmts (s :: ss)) := by
  obtain ⟨a, rest, hlines, hstarts⟩ := exists_start h hnote
  rw [statements]
  refine (accepts_takeComments (by intro text rest; simp [hlines])).bind fun cs hcs => ?_
  refine (accepts_look _).bind fun t ht => ?_
  have hstart : startsStatement t.lexeme := by
    rw [ht, hlines]
    exact hstarts
  simp only [hstart, if_true, hcs]
  refine hs.bind fun s' hs' => ?_
  refine hss.bind fun ss' hss' => accepts_pure ?_
  rw [SameStmts, List.map_nil, List.nil_append, Stmt.unplacedList, Stmt.unplacedList, hs', hss']

mutual

theorem Stmt.accepts (s : Stmt) (h : s.Writable) (hnote : s.isNote = false) {more : List Line}
    {n : Nat} (hn : 16 * size s.lines ≤ n) (hmore : endsStatement (firstLexeme more)) :
    Accepts (statement n) (s.lines ++ more) more (SameStmt s) := by
  have hpos : 0 < size s.lines := by
    obtain ⟨a, lines, hlines, -⟩ := exists_start h hnote
    simp [hlines]
  obtain ⟨n, rfl⟩ : ∃ m, n = m + 1 := ⟨n - 1, by omega⟩
  cases s with
  | comment _ text => cases hnote
  | print _ value =>
    simp only [Stmt.lines, size_word, size_lines] at hn
    rw [statement]
    refine (accepts_current (.keyword .roar) _).bind fun t ht => ?_
    simp only [ht.lexeme, Atom.lexeme]
    refine accepts_wordExpression h (by omega) hmore fun e he => ?_
    rw [SameStmt, Stmt.unplaced, Stmt.unplaced, he]
  | serve _ value =>
    simp only [Stmt.lines, size_word, size_lines] at hn
    rw [statement]
    refine (accepts_current (.keyword .serve) _).bind fun t ht => ?_
    simp only [ht.lexeme, Atom.lexeme]
    refine accepts_wordExpression h (by omega) hmore fun e he => ?_
    rw [SameStmt, Stmt.unplaced, Stmt.unplaced, he]
  | leave _ =>
    rw [statement]
    refine (accepts_current (.keyword .breakWord) _).bind fun t ht => ?_
    simp only [ht.lexeme, Atom.lexeme]
    exact (accepts_advance _ _).bind fun _ _ => accepts_pure rfl
  | expression _ value =>
    simp only [Stmt.lines, size_lines] at hn
    rw [statement]
    refine (accepts_current (.symbol .openParen) _).bind fun t ht => ?_
    simp only [ht.lexeme, Atom.lexeme]
    exact accepts_expressionStatement h (by omega) hmore
  | assign loc target value =>
    simp only [Stmt.lines, size_append, size_sign, size_lines] at hn
    have hlines : (Stmt.assign loc target value).lines ++ more =
        target.lines ++ sign .assign :: (value.lines ++ more) := by
      simp [Stmt.lines]
    rw [statement, hlines]
    refine (accepts_current (.symbol .openParen) _).bind fun t ht => ?_
    simp only [ht.lexeme, Atom.lexeme]
    exact accepts_assignment h.1 h.2 (by omega) hmore
  | function _ name params _ body =>
    obtain ⟨-, -, hbody⟩ := h
    exact accepts_function (fun _ more hm => Stmt.acceptsList body hbody hm (.bar more)) hn
  | branch _ arms =>
    obtain ⟨harm, harms⟩ := h
    simp only [Stmt.lines] at hn ⊢
    have haccepts := (arms.accepts harms hmore).1 .ifWord n harm hn
    obtain ⟨lines, hlines⟩ := exists_armLines harm .ifWord
    rw [hlines] at haccepts ⊢
    rw [statement]
    refine (accepts_current (.keyword .ifWord) _).bind fun t ht => ?_
    simp only [ht.lexeme, Atom.lexeme]
    refine haccepts.bind fun arms' harms' => accepts_pure ?_
    rw [SameStmt, Stmt.unplaced, Stmt.unplaced, harms']
  | loop _ counter _ bound _ body =>
    obtain ⟨hcounter, hbound, hbody⟩ := h
    exact accepts_loop hcounter hbound
      (fun _ more hm => Stmt.acceptsList body hbody hm (.bar more)) hn

theorem Arms.accepts (arms : Arms) (h : arms.Writable) {more : List Line}
    (hmore : endsStatement (firstLexeme more)) :
    (∀ first n, arms.hasArm → 16 * size (arms.lines first) ≤ n + 1 →
      Accepts (arm n) (arms.lines first ++ more) more (SameArms arms)) ∧
    ∀ n, 16 * size (arms.lines .elseWord) < n →
      Accepts (moreArms n) (arms.lines .elseWord ++ more) more (SameArms arms) := by
  cases arms with
  | done =>
    refine ⟨fun _ _ harm => (by cases harm), fun n hn => ?_⟩
    obtain ⟨n, rfl⟩ : ∃ m, n = m + 1 := ⟨n - 1, by omega⟩
    exact accepts_done hmore n
  | otherwise _ body =>
    refine ⟨fun _ _ harm => (by cases harm), fun n hn => ?_⟩
    simp only [Arms.lines, size_word, size_block] at hn
    obtain ⟨n, rfl⟩ : ∃ m, n = m + 1 := ⟨n - 1, by omega⟩
    rw [moreArms]
    refine (accepts_current (.keyword .otherwise) _).bind fun t ht => ?_
    simp only [ht.lexeme, Atom.lexeme]
    refine (accepts_advance _ _).bind fun _ _ => ?_
    have hbody : BodyAccepted body := fun _ more hm => Stmt.acceptsList body h hm (.bar more)
    refine (hbody.block (by omega)).bind fun b hb => accepts_pure ?_
    rw [SameArms, Arms.unplaced, Arms.unplaced, hb]
  | arm loc condition bodyLoc body rest =>
    obtain ⟨hcondition, hbody, hrest⟩ := h
    have harm (first : Keyword) (n : Nat)
        (hn : 16 * size ((Arms.arm loc condition bodyLoc body rest).lines first) ≤ n + 1) :=
      accepts_arm hcondition hn (fun _ more hm => Stmt.acceptsList body hbody hm (.bar more))
        (rest.accepts hrest hmore).2
    refine ⟨fun first n _ hn => harm first n hn, fun n hn => ?_⟩
    obtain ⟨n, rfl⟩ : ∃ m, n = m + 1 := ⟨n - 1, by omega⟩
    rw [moreArms]
    refine (accepts_current (.keyword .elseWord) _).bind fun t ht => ?_
    simp only [ht.lexeme, Atom.lexeme]
    exact harm .elseWord n (by omega)

theorem Stmt.acceptsList (ss : List Stmt) (h : Stmt.WritableList ss) {more : List Line} {n : Nat}
    (hn : 16 * size (Stmt.linesList ss) < n) (hmore : Stops more) :
    Accepts (statements n) (Stmt.linesList ss ++ more) more (SameStmts ss) := by
  match ss with
  | [] =>
    obtain ⟨n, rfl⟩ : ∃ m, n = m + 1 := ⟨n - 1, by omega⟩
    exact accepts_nil hmore n
  | s :: ss =>
    simp only [Stmt.linesList, List.append_assoc, size_append] at hn ⊢
    by_cases hnote : s.isNote
    · obtain ⟨loc, text, rfl⟩ : ∃ loc text, s = .comment loc text := by
        cases s with
        | comment loc text => exact ⟨loc, text, rfl⟩
        | _ => cases hnote
      -- the comment is taken by the round for the statement behind it, so it needs no fuel
      exact accepts_note (Stmt.acceptsList ss h.2 (by omega) hmore)
    · rw [Bool.not_eq_true] at hnote
      have hpos : 0 < size s.lines := by
        obtain ⟨a, lines, hlines, -⟩ := exists_start h.1 hnote
        simp [hlines]
      obtain ⟨n, rfl⟩ : ∃ m, n = m + 1 := ⟨n - 1, by omega⟩
      exact accepts_cons h.1 hnote
        (s.accepts h.1 hnote (by omega) (endsStatement_linesList h.2 hmore.endsStatement))
        (Stmt.acceptsList ss h.2 (by omega) hmore)

end

/-! ## Sources -/

/-- A parser of a source with legible lines sees them. -/
theorem start_sees {lines : List Line} (h : ∀ line ∈ lines, line.Valid) (hlegible : Legible false lines)
    (file : Nat) : (Parser.start (source lines) file).Sees lines := by
  have hviews := Scanner.readable_source h hlegible file
  obtain ⟨v, vs, hcons, hv⟩ := exists_views lines
  rw [Parser.start]
  cases hts : Scanner.readable (source lines) file with
  | nil => simp [hts, hcons] at hviews
  | cons t ts =>
    rw [hts] at hviews
    have hfirst : t.view = v := by simpa [hcons] using congrArg List.head? hviews
    have ht : t.lexeme.isFault = false := by
      rw [show t.lexeme = firstLexeme lines by rw [← hv, ← hfirst]; rfl]
      exact isFault_firstLexeme lines
    refine ⟨hviews, rfl, ?_⟩
    rw [Parser.ofTokens, noteFault_eq ht]
    rfl

theorem accepts_program {ss : List Stmt} (h : Stmt.WritableList ss) {n : Nat}
    (hn : 16 * size (Stmt.linesList ss) < n) :
    Accepts (program n) (Stmt.linesList ss) [] fun tree => SameStmts ss tree.statements := by
  have hstatements := Stmt.acceptsList ss h hn .nil
  rw [List.append_nil] at hstatements
  rw [program]
  refine (accepts_look _).bind fun t _ => ?_
  refine hstatements.bind fun ss' hss' => ?_
  refine (accepts_look []).bind fun stop hstop => ?_
  have hend : stop.lexeme.isEnd := by
    rw [hstop]
    rfl
  rw [if_pos hend]
  exact accepts_pure hss'

/-- Statements whose lines are legible are read back. -/
theorem exists_parse_render {ss : List Stmt} (h : Stmt.WritableList ss)
    (hlegible : Legible false (Stmt.linesList ss)) (file : Nat) :
    ∃ tree, parse (render ss) file = .ok tree ∧ SameStmts ss tree.statements := by
  have hsees := start_sees (Stmt.reachesList ss h).valid hlegible file
  -- the depth of the rules is 16 for each token and more
  have hdepth : 16 * size (Stmt.linesList ss) < (Parser.start (render ss) file).depth := by
    have hlength := congrArg List.length hsees.tokens
    rw [List.length_map, List.length_cons, length_views] at hlength
    simp only [Parser.depth, render]
    omega
  obtain ⟨tree, q, hprogram, hsame, hq⟩ := accepts_program h hdepth _ hsees
  refine ⟨tree, ?_, hsame⟩
  have hresult : (Parser.start (render ss) file).program = (some tree, q) := hprogram
  simp only [parse, hresult, hq.errors, if_true]

end Roar.Grammar
