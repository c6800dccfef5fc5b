import Roar.Proofs.Grammar.Completeness
import Roar.Proofs.Grammar.Soundness

/-!
# Writing and reading

Statements that are written and read again are the same but for their places, if and only if no
comparison phrase stands right before a string (`parse_render_iff`). If none does, the lines are
legible and the parser accepts them (`exists_parse_render`).

For the other direction, suppose that the statements are read back. A derivation has the tokens that
its tree is written with, apart from parentheses (`Derives.Statements.words`). So the scanner has found
the lexemes that were written, and it does that on legible lines only (`legible_of_parse`).
-/

namespace Roar.Grammar

/-! ## Places do not matter -/

theorem Expr.strength_unplaced (e : Expr) : e.unplaced.strength = e.strength := by
  cases e <;> rfl

mutual

theorem Expr.atoms_unplaced (e : Expr) : e.unplaced.atoms = e.atoms := by
  cases e with
  | binary _ op left right =>
    simp only [Expr.unplaced, Expr.atoms, left.atoms_unplaced, right.atoms_unplaced,
      Expr.strength_unplaced]
  | compare _ op left right =>
    simp only [Expr.unplaced, Expr.atoms, left.atoms_unplaced, right.atoms_unplaced,
      Expr.strength_unplaced]
  | unary _ op operand =>
    simp only [Expr.unplaced, Expr.atoms, operand.atoms_unplaced, Expr.strength_unplaced]
  | call _ callee args => simp only [Expr.unplaced, Expr.atoms, Expr.atomsList_unplaced args]
  | number _ _ _ | string _ _ | interpolated _ _ | boolean _ _ | identifier _ _ => rfl

theorem Expr.atomsList_unplaced (es : List Expr) :
    Expr.atomsList (Expr.unplacedList es) = Expr.atomsList es := by
  match es with
  | [] => rfl
  | [e] => exact e.atoms_unplaced
  | e :: f :: es =>
    have hrest := Expr.atomsList_unplaced (f :: es)
    simp only [Expr.unplacedList, Expr.atomsList, e.atoms_unplaced] at hrest ⊢
    rw [hrest]

end

mutual

theorem Expr.writable_unplaced (e : Expr) : e.unplaced.Writable ↔ e.Writable := by
  cases e with
  | binary _ op left right =>
    simp only [Expr.unplaced, Expr.Writable, left.writable_unplaced, right.writable_unplaced]
  | compare _ op left right =>
    simp only [Expr.unplaced, Expr.Writable, left.writable_unplaced, right.writable_unplaced]
  | unary _ op operand => exact operand.writable_unplaced
  | call _ callee args =>
    simp only [Expr.unplaced, Expr.Writable, Expr.writableList_unplaced args]
  | number _ _ _ | string _ _ | interpolated _ _ | boolean _ _ | identifier _ _ => exact Iff.rfl

theorem Expr.writableList_unplaced (es : List Expr) :
    Expr.WritableList (Expr.unplacedList es) ↔ Expr.WritableList es := by
  match es with
  | [] => exact Iff.rfl
  | e :: es =>
    simp only [Expr.unplacedList, Expr.WritableList, e.writable_unplaced,
      Expr.writableList_unplaced es]

end

theorem Expr.lines_unplaced (e : Expr) : e.unplaced.lines = e.lines := by
  rw [Expr.lines, e.atoms_unplaced, Expr.lines]

private theorem paramAtoms_unplaced (ps : List Param) :
    paramAtoms (ps.map Param.unplaced) = paramAtoms ps := by
  match ps with
  | [] | [p] => rfl
  | p :: q :: ps =>
    have hrest := paramAtoms_unplaced (q :: ps)
    simp only [List.map_cons, paramAtoms, Param.unplaced] at hrest ⊢
    rw [hrest]

theorem Arms.hasArm_unplaced (arms : Arms) : arms.unplaced.hasArm = arms.hasArm := by
  cases arms <;> rfl

mutual

theorem Stmt.lines_unplaced (s : Stmt) : s.unplaced.lines = s.lines := by
  cases s with
  | function _ name params _ body =>
    simp only [Stmt.unplaced, Stmt.lines, paramAtoms_unplaced, Stmt.linesList_unplaced body]
  | branch _ arms => exact arms.lines_unplaced .ifWord
  | loop _ counter _ bound _ body =>
    simp only [Stmt.unplaced, Stmt.lines, Expr.lines_unplaced, Stmt.linesList_unplaced body]
  | print _ _ | assign _ _ _ | serve _ _ | expression _ _ =>
    simp only [Stmt.unplaced, Stmt.lines, Expr.lines_unplaced]
  | leave _ | comment _ _ => rfl

theorem Arms.lines_unplaced (first : Keyword) (arms : Arms) :
    arms.unplaced.lines first = arms.lines first := by
  cases arms with
  | done => rfl
  | otherwise _ body => simp only [Arms.unplaced, Arms.lines, Stmt.linesList_unplaced body]
  | arm _ condition _ body rest =>
    simp only [Arms.unplaced, Arms.lines, Expr.lines_unplaced, Stmt.linesList_unplaced body,
      rest.lines_unplaced]

theorem Stmt.linesList_unplaced (ss : List Stmt) :
    Stmt.linesList (Stmt.unplacedList ss) = Stmt.linesList ss := by
  match ss with
  | [] => rfl
  | s :: ss =>
    simp only [Stmt.unplacedList, Stmt.linesList, s.lines_unplaced, Stmt.linesList_unplaced ss]

end

mutual

theorem Stmt.writable_unplaced (s : Stmt) : s.unplaced.Writable ↔ s.Writable := by
  cases s with
  | function _ name params _ body =>
    simp only [Stmt.unplaced, Stmt.Writable, Stmt.writableList_unplaced body, List.forall_mem_map,
      Param.unplaced]
  | branch _ arms =>
    simp only [Stmt.unplaced, Stmt.Writable, arms.writable_unplaced, Arms.hasArm_unplaced]
  | loop _ counter _ bound _ body =>
    simp only [Stmt.unplaced, Stmt.Writable, Expr.writable_unplaced, Stmt.writableList_unplaced body]
  | print _ _ | assign _ _ _ | serve _ _ | expression _ _ =>
    simp only [Stmt.unplaced, Stmt.Writable, Expr.writable_unplaced]
  | leave _ | comment _ _ => exact Iff.rfl

theorem Arms.writable_unplaced (arms : Arms) : arms.unplaced.Writable ↔ arms.Writable := by
  cases arms with
  | done => exact Iff.rfl
  | otherwise _ body => exact Stmt.writableList_unplaced body
  | arm _ condition _ body rest =>
    simp only [Arms.unplaced, Arms.Writable, Expr.writable_unplaced, Stmt.writableList_unplaced body,
      rest.writable_unplaced]

theorem Stmt.writableList_unplaced (ss : List Stmt) :
    Stmt.WritableList (Stmt.unplacedList ss) ↔ Stmt.WritableList ss := by
  match ss with
  | [] => exact Iff.rfl
  | s :: ss =>
    simp only [Stmt.unplacedList, Stmt.WritableList, s.writable_unplaced, Stmt.writableList_unplaced ss]

end

/-! ## What a derivation says of its tokens -/

theorem ungrouped_append (xs ys : List Lexeme) :
    ungrouped (xs ++ ys) = ungrouped xs ++ ungrouped ys :=
  List.filter_append xs ys

/-- The lexemes of tokens, without the parentheses. -/
def tokenWords (ts : List Token) : List Lexeme := ungrouped (ts.map (·.lexeme))

/-- The lexemes of atoms, without the parentheses. -/
def atomWords (atoms : List Atom) : List Lexeme := ungrouped (atoms.map (·.lexeme))

theorem tokenWords_append (ts us : List Token) :
    tokenWords (ts ++ us) = tokenWords ts ++ tokenWords us := by
  simp only [tokenWords, List.map_append, ungrouped_append]

theorem tokenWords_cons (t : Token) (ts : List Token) :
    tokenWords (t :: ts) = ungrouped [t.lexeme] ++ tokenWords ts :=
  tokenWords_append [t] ts

theorem atomWords_append (ps qs : List Atom) :
    atomWords (ps ++ qs) = atomWords ps ++ atomWords qs := by
  simp only [atomWords, List.map_append, ungrouped_append]

theorem atomWords_cons (a : Atom) (atoms : List Atom) :
    atomWords (a :: atoms) = ungrouped [a.lexeme] ++ atomWords atoms :=
  atomWords_append [a] atoms

theorem atomWords_enclosed (atoms : List Atom) : atomWords (enclosed atoms) = atomWords atoms := by
  rw [enclosed, atomWords_append, atomWords_cons]
  exact List.append_nil _

theorem atomWords_grouped (weak : Bool) (atoms : List Atom) :
    atomWords (grouped weak atoms) = atomWords atoms := by
  cases weak with
  | false => rfl
  | true => exact atomWords_enclosed atoms

theorem tokenWords_enclosed {opening closing : Token} {ts : List Token}
    (left : opening.lexeme = .symbol .openParen) (right : closing.lexeme = .symbol .closeParen) :
    tokenWords (opening :: ts ++ [closing]) = tokenWords ts := by
  rw [tokenWords_append, tokenWords_cons, tokenWords_cons, left, right]
  exact List.append_nil _

/-- A binary operator is one lexeme. -/
theorem atomWords_operator {x : Lexeme} {op : BinaryOp}
    (h : (x, op) ∈ Derives.disjunctionSigns ++ Derives.conjunctionSigns ++ Derives.additionSigns ++
      Derives.productSigns) : atomWords op.atoms = ungrouped [x] := by
  revert h
  have hall : ∀ sign ∈ Derives.disjunctionSigns ++ Derives.conjunctionSigns ++
      Derives.additionSigns ++ Derives.productSigns,
      atomWords sign.2.atoms = ungrouped [sign.1] := by decide
  exact hall (x, op)

theorem atomWords_comparator {ts : List Token} {op : CompareOp} (h : Derives.Comparator ts op) :
    atomWords op.atoms = tokenWords ts := by
  cases h with
  | @sign t op sign =>
    have hall : ∀ sign ∈ Derives.comparisonSigns, atomWords sign.2.atoms = ungrouped [sign.1] := by
      decide
    exact hall (t.lexeme, op) sign
  | @phrase t u v first second op start firstWord secondWord phrase =>
    -- the words of a phrase are identifiers, whichever they are
    have hall : ∀ phrase ∈ Derives.comparisonPhrases, atomWords phrase.2.2.atoms =
        ungrouped [.keyword .isWord, .identifier, .identifier] := by decide
    rw [hall (first, second, op) phrase, tokenWords, List.map_cons, List.map_cons, List.map_cons, start,
      firstWord.lexeme, secondWord.lexeme, List.map_nil]

theorem words_binary {ts us : List Token} {t : Token} {op : BinaryOp} {left right : Expr}
    {loc : Location} (hleft : tokenWords ts = atomWords left.atoms)
    (hop : (t.lexeme, op) ∈ Derives.disjunctionSigns ++ Derives.conjunctionSigns ++
      Derives.additionSigns ++ Derives.productSigns)
    (hright : tokenWords us = atomWords right.atoms) :
    tokenWords (ts ++ t :: us) = atomWords (Expr.binary loc op left right).atoms := by
  rw [Expr.atoms, tokenWords_append, tokenWords_cons, atomWords_append, atomWords_append,
    atomWords_grouped, atomWords_grouped, atomWords_operator hop, hleft, hright, List.append_assoc]

namespace Derives

theorem ArgumentList.exists_cons {ts : List Token} {es : List Expr} (h : ArgumentList ts es) :
    ∃ f fs, es = f :: fs := by
  cases h <;> exact ⟨_, _, rfl⟩

mutual

theorem Expression.words {ts : List Token} {e : Expr} (h : Expression ts e) (hw : e.Writable) :
    tokenWords ts = atomWords e.atoms :=
  match h with
  | .operand operand => operand.words hw
  | .more first sign last =>
    words_binary (first.words hw.2.2.1) (by simp [sign]) (last.words hw.2.2.2)

theorem Conjunction.words {ts : List Token} {e : Expr} (h : Conjunction ts e) (hw : e.Writable) :
    tokenWords ts = atomWords e.atoms :=
  match h with
  | .operand operand => operand.words hw
  | .more first sign last =>
    words_binary (first.words hw.2.2.1) (by simp [sign]) (last.words hw.2.2.2)

theorem Comparison.words {ts : List Token} {e : Expr} (h : Comparison ts e) (hw : e.Writable) :
    tokenWords ts = atomWords e.atoms :=
  match h with
  | .operand operand => operand.words hw
  | .compare first sign last => by
    rw [Expr.atoms, tokenWords_append, tokenWords_append, atomWords_append, atomWords_append,
      atomWords_grouped, atomWords_grouped, atomWords_comparator sign, first.words hw.1,
      last.words hw.2]

theorem Addition.words {ts : List Token} {e : Expr} (h : Addition ts e) (hw : e.Writable) :
    tokenWords ts = atomWords e.atoms :=
  match h with
  | .operand operand => operand.words hw
  | .more first sign last =>
    words_binary (first.words hw.2.2.1) (by simp [sign]) (last.words hw.2.2.2)

theorem Product.words {ts : List Token} {e : Expr} (h : Product ts e) (hw : e.Writable) :
    tokenWords ts = atomWords e.atoms :=
  match h with
  | .operand operand => operand.words hw
  | .more first sign last =>
    words_binary (first.words hw.2.2.1) (by simp [sign]) (last.words hw.2.2.2)

theorem Unary.words {ts : List Token} {e : Expr} (h : Unary ts e) (hw : e.Writable) :
    tokenWords ts = atomWords e.atoms :=
  match h with
  | .operand operand => operand.words hw
  | @Unary.sign _ t op _ sign operand => by
    have hall : ∀ sign ∈ unarySigns, sign.2.atom.lexeme = sign.1 := by decide
    rw [Expr.atoms, tokenWords_cons, atomWords_cons, atomWords_grouped, hall (t.lexeme, op) sign,
      operand.words hw]

theorem Primary.words {ts : List Token} {e : Expr} (h : Primary ts e) (hw : e.Writable) :
    tokenWords ts = atomWords e.atoms :=
  match h with
  | .number lexeme => by
    rw [tokenWords_cons, lexeme, hw.2]
    rfl
  | .string lexeme | .yes lexeme | .no lexeme | .name lexeme => by
    rw [tokenWords_cons, lexeme]
    rfl
  | .interpolated _ _ _ => hw.elim
  | .call lexeme left arguments right => by
    rw [Expr.atoms, List.cons_append, tokenWords_cons, tokenWords_enclosed left right, lexeme,
      atomWords_cons, atomWords_enclosed, arguments.words hw.2]
    rfl
  | .group left inner right => (tokenWords_enclosed left right).trans (inner.words hw)

theorem Arguments.words {ts : List Token} {es : List Expr} (h : Arguments ts es)
    (hw : Expr.WritableList es) : tokenWords ts = atomWords (Expr.atomsList es) :=
  match h with
  | .none => rfl
  | .some list => list.words hw

theorem ArgumentList.words {ts : List Token} {es : List Expr} (h : ArgumentList ts es)
    (hw : Expr.WritableList es) : tokenWords ts = atomWords (Expr.atomsList es) :=
  match h with
  | .one argument => argument.words hw.1
  | .more first sign rest => by
    have hfirst := first.words hw.1
    have hrest := rest.words hw.2
    obtain ⟨f, es, rfl⟩ := rest.exists_cons
    rw [Expr.atomsList, tokenWords_append, tokenWords_cons, hfirst, hrest, sign, atomWords_append,
      atomWords_cons]
    · rfl
    · nofun

end

theorem ParamList.exists_cons {ts : List Token} {ps : List Param} (h : ParamList ts ps) :
    ∃ p qs, ps = p :: qs := by
  cases h <;> exact ⟨_, _, rfl⟩

theorem ParamList.words {ts : List Token} {ps : List Param} (h : ParamList ts ps) :
    tokenWords ts = atomWords (paramAtoms ps) := by
  induction h with
  | one lexeme =>
    rw [tokenWords_cons, lexeme]
    rfl
  | @more t comma ts ps lexeme sign rest ih =>
    obtain ⟨q, qs, rfl⟩ := rest.exists_cons
    have hatoms : paramAtoms (⟨t.text, t.location⟩ :: q :: qs) =
        .name t.text :: .symbol .comma :: paramAtoms (q :: qs) := rfl
    rw [tokenWords_cons, tokenWords_cons, lexeme, sign, ih, hatoms, atomWords_cons, atomWords_cons]
    rfl

theorem Params.words {ts : List Token} {ps : List Param} (h : Params ts ps) :
    tokenWords ts = atomWords (paramAtoms ps) := by
  cases h with
  | none => rfl
  | some list => exact list.words

end Derives

/-- The lexemes on lines, without the parentheses. -/
def lineWords (lines : List Line) : List Lexeme := ungrouped (lexemes lines)

private theorem lexemes_append (lines lines' : List Line) :
    lexemes (lines ++ lines') = lexemes lines ++ lexemes lines' := by
  induction lines with
  | nil => rfl
  | cons line lines ih => cases line <;> simp [lexemes, ih]

theorem lineWords_append (lines lines' : List Line) :
    lineWords (lines ++ lines') = lineWords lines ++ lineWords lines' := by
  simp only [lineWords, lexemes_append, ungrouped_append]

theorem lineWords_cons (a : Atom) (lines : List Line) :
    lineWords (.atom a :: lines) = ungrouped [a.lexeme] ++ lineWords lines :=
  lineWords_append [.atom a] lines

theorem lineWords_word (k : Keyword) (lines : List Line) :
    lineWords (word k :: lines) = ungrouped [.keyword k] ++ lineWords lines :=
  lineWords_cons _ lines

theorem lineWords_sign (s : Symbol) (lines : List Line) :
    lineWords (sign s :: lines) = ungrouped [.symbol s] ++ lineWords lines :=
  lineWords_cons _ lines

theorem lineWords_map (atoms : List Atom) : lineWords (atoms.map .atom) = atomWords atoms := by
  have hlexemes : lexemes (atoms.map .atom) = atoms.map (·.lexeme) := by
    induction atoms with
    | nil => rfl
    | cons a atoms ih => simp [lexemes, ih]
  rw [lineWords, hlexemes, atomWords]

theorem lineWords_lines (e : Expr) : lineWords e.lines = atomWords e.atoms := by
  rw [Expr.lines, lineWords_map, atomWords_enclosed]

theorem lineWords_block (lines : List Line) :
    lineWords (blockLines lines) =
      ungrouped [.symbol .bar] ++ lineWords lines ++ ungrouped [.symbol .bar] := by
  rw [blockLines, lineWords_append, lineWords_sign, lineWords_sign]
  rfl

theorem linesList_append (ss ss' : List Stmt) :
    Stmt.linesList (ss ++ ss') = Stmt.linesList ss ++ Stmt.linesList ss' := by
  induction ss with
  | nil => rfl
  | cons s ss ih => simp [Stmt.linesList, ih]

theorem writableList_append {ss ss' : List Stmt} :
    Stmt.WritableList (ss ++ ss') ↔ Stmt.WritableList ss ∧ Stmt.WritableList ss' := by
  induction ss with
  | nil => simp [Stmt.WritableList]
  | cons s ss ih => simp [Stmt.WritableList, ih, and_assoc]

/-- Comments are no lexemes. -/
theorem lineWords_notes (t : Token) : lineWords (Stmt.linesList (Derives.notes t)) = [] := by
  have hlexemes (cs : List Comment) :
      lexemes (Stmt.linesList (cs.map fun c => .comment c.location c.text)) = [] := by
    induction cs with
    | nil => rfl
    | cons c cs ih => simpa [Stmt.linesList, Stmt.lines, lexemes] using ih
  rw [lineWords, Derives.notes, hlexemes]
  rfl

namespace Derives

theorem Enclosed.words {ts : List Token} {e : Expr} (h : Enclosed ts e) (hw : e.Writable) :
    tokenWords ts = lineWords e.lines := by
  obtain ⟨left, inner, right⟩ := h
  rw [tokenWords_enclosed left right, inner.words hw, lineWords_lines]

theorem Expression.lineWords {ts : List Token} {e : Expr} (h : Expression ts e) (hw : e.Writable) :
    tokenWords ts = lineWords e.lines := by
  rw [h.words hw, lineWords_lines]

mutual

theorem Statement.words {ts : List Token} {s : Stmt} (h : Statement ts s) (hw : s.Writable) :
    tokenWords ts = lineWords s.lines :=
  match h with
  | .print word value => by
    rw [Stmt.lines, lineWords_word, tokenWords_cons, word, value.lineWords hw]
  | .serve word value => by
    rw [Stmt.lines, lineWords_word, tokenWords_cons, word, value.lineWords hw]
  | .expression value => value.lineWords hw
  | .assign target sign value => by
    rw [Stmt.lines, lineWords_append, lineWords_sign, tokenWords_append, target.lineWords hw.1,
      tokenWords_cons, sign, value.lineWords hw.2]
  | .leave word => by
    rw [Stmt.lines, lineWords_word, tokenWords_cons, word]
    rfl
  | @Statement.function t name opening closing ts us _ _ _ word lexeme left params right block => by
    have hlist : t :: name :: opening :: ts ++ closing :: us =
        t :: name :: (opening :: ts ++ [closing] ++ us) := by simp
    rw [hlist, tokenWords_cons, tokenWords_cons, tokenWords_append, tokenWords_enclosed left right,
      word, lexeme, params.words, block.words hw.2.2, Stmt.lines, lineWords_append, lineWords_word,
      lineWords_cons, lineWords_map, atomWords_enclosed, List.append_assoc, List.append_assoc]
    rfl
  | .loop word counter second third bound block => by
    obtain ⟨hcounter, hbound, hbody⟩ := hw
    rw [tokenWords_append, tokenWords_append, tokenWords_cons, tokenWords_cons, tokenWords_cons, word,
      counter.words hcounter, second, third, bound.words hbound, block.words hbody, Stmt.lines,
      lineWords_append, lineWords_append, lineWords_word, lineWords_word, lineWords_word,
      lineWords_lines, lineWords_lines]
  | .branch word arm => by
    rw [Stmt.lines, arm.words hw.2, tokenWords_cons, word]

theorem Statements.words {stop : Token} {ts : List Token} {ss : List Stmt}
    (h : Statements stop ts ss) (hw : Stmt.WritableList ss) :
    tokenWords ts = lineWords (Stmt.linesList ss) :=
  match h with
  | .nil => (lineWords_notes stop).symm
  | .cons first rest => by
    obtain ⟨-, hs, hss⟩ := writableList_append.mp hw
    rw [linesList_append, lineWords_append, lineWords_notes, Stmt.linesList, lineWords_append,
      tokenWords_append, first.words hs, rest.words hss]
    rfl

theorem Block.words {ts : List Token} {loc : Location} {body : List Stmt} (h : Block ts loc body)
    (hw : Stmt.WritableList body) : tokenWords ts = lineWords (blockLines (Stmt.linesList body)) :=
  match h with
  | .block left inner right => by
    rw [lineWords_block, tokenWords_append, tokenWords_cons, tokenWords_cons, left, right,
      inner.words hw]
    rfl

theorem Arm.words {ts : List Token} {loc : Location} {arms : Arms} (h : Arm ts loc arms)
    (hw : arms.Writable) {first : Keyword} :
    lineWords (arms.lines first) = ungrouped [.keyword first] ++ tokenWords ts :=
  match h with
  | .arm condition block rest => by
    obtain ⟨hcondition, hbody, hrest⟩ := hw
    rw [Arms.lines, lineWords_append, lineWords_append, lineWords_word, tokenWords_append,
      tokenWords_append, condition.words hcondition, block.words hbody, rest.words hrest,
      List.append_assoc, List.append_assoc, List.append_assoc]

theorem MoreArms.words {ts : List Token} {arms : Arms} (h : MoreArms ts arms) (hw : arms.Writable) :
    tokenWords ts = lineWords (arms.lines .elseWord) :=
  match h with
  | .done => rfl
  | .otherwise word block => by
    rw [Arms.lines, lineWords_word, tokenWords_cons, word, block.words hw]
  | .arm word arm => by
    rw [arm.words hw, tokenWords_cons, word]

end

end Derives

/-! ## Sources -/

/-- Statements that are read back have legible lines. -/
theorem legible_of_parse {ss : List Stmt} (h : Stmt.WritableList ss) {file : Nat} {tree : Tree}
    (hparse : parse (render ss) file = .ok tree) (hsame : SameStmts ss tree.statements) :
    Legible false (Stmt.linesList ss) := by
  obtain ⟨q, hprogram⟩ := program_of_parse hparse
  obtain ⟨-, ts, stop, hts, hstop, hderives⟩ :=
    Parse.program_reads (start_at (render ss) file) hprogram
  -- the tree is written as the statements are
  have hlines : Stmt.linesList tree.statements = Stmt.linesList ss := by
    rw [← Stmt.linesList_unplaced, hsame, Stmt.linesList_unplaced]
  have hwritable : Stmt.WritableList tree.statements := by
    rw [← Stmt.writableList_unplaced, hsame, Stmt.writableList_unplaced]
    exact h
  have hwords := hderives.words hwritable
  rw [hlines] at hwords
  have htokens : Scanner.readable (source (Stmt.linesList ss)) file = ts ++ [stop] := hts
  refine Scanner.legible_of_readable (Stmt.reachesList ss h).valid file ?_
  rw [htokens, List.map_append, ungrouped_append, ungrouped_append, List.map_cons, List.map_nil,
    isEnd_iff.mp hstop]
  exact congrArg (· ++ ungrouped [.endOfInput]) hwords

/-- Statements are read back as they were written, but for their places, if no comparison phrase
stands right before a string, and only then. -/
theorem parse_render_iff {ss : List Stmt} (h : Stmt.WritableList ss) (file : Nat) :
    (∃ tree, parse (render ss) file = .ok tree ∧
      Stmt.unplacedList tree.statements = Stmt.unplacedList ss) ↔ Stmt.PhrasesApartList ss := by
  rw [← legible_linesList h]
  constructor
  · rintro ⟨tree, hparse, hsame⟩
    exact legible_of_parse h hparse hsame
  · intro hlegible
    exact exists_parse_render h hlegible file

/-- A comment, a function, an assignment, a loop and a conditional statement, with a string that is
full of escapes, a phrase before a string in parentheses and operands that need them. -/
def notedStatements : List Stmt :=
  let x : Expr := .identifier {} (ascii "x")
  let text : Expr := .string {} (ascii "a-$b\\\n~")
  let half : Expr :=
    .number {} (Number.ofDecimal (Decimal.ofNumeral (ascii "0.5"))) (ascii "0.5")
  [.comment {} (ascii "half of it"),
    .function {} (ascii "f") [⟨ascii "x", {}⟩, ⟨ascii "y", {}⟩] {}
      [.serve {} (.binary {} .sub half (.binary {} .sub x (.unary {} .neg half)))],
    .assign {} x text,
    .loop {} (.identifier {} (ascii "i")) {} half {} [.leave {}, .comment {} []],
    .branch {} (.arm {} (.compare {} .isEqualTo text (.compare {} .eq text x)) {} []
      (.otherwise {} [.expression {} (.call {} (ascii "f") [x, .boolean {} true])]))]

theorem notedStatements_readBack :
    Stmt.WritableList notedStatements ∧ Stmt.PhrasesApartList notedStatements ∧
      ∃ tree, parse (render notedStatements) 0 = .ok tree ∧
        Stmt.unplacedList tree.statements = Stmt.unplacedList notedStatements := by
  have hf : IsIdentifier (ascii "f") := by decide
  have hi : IsIdentifier (ascii "i") := by decide
  have hx : IsIdentifier (ascii "x") := by decide
  have hy : IsIdentifier (ascii "y") := by decide
  have hhalf : IsNumeral ([byte '0'] ++ byte '.' :: [byte '5']) :=
    .fraction ⟨by decide, List.all_eq_true.mp rfl⟩ ⟨by decide, List.all_eq_true.mp rfl⟩
  have htext : byte '\r' ∉ ascii "a-$b\\\n~" := by decide
  have hwritable : Stmt.WritableList notedStatements :=
    ⟨⟨by decide, by decide⟩,
      ⟨hf, by simp [hx, hy],
        ⟨nofun, nofun, ⟨hhalf, rfl⟩, nofun, nofun, hx, hhalf, rfl⟩, trivial⟩,
      ⟨hx, htext⟩,
      ⟨hi, ⟨hhalf, rfl⟩, trivial, ⟨by decide, by decide⟩, trivial⟩,
      ⟨rfl, ⟨htext, htext, hx⟩, trivial, ⟨hf, hx, trivial, trivial⟩, trivial⟩, trivial⟩
  have hapart : Stmt.PhrasesApartList notedStatements :=
    ⟨trivial, ⟨⟨trivial, trivial, trivial⟩, trivial⟩, ⟨trivial, trivial⟩,
      ⟨trivial, trivial, trivial, trivial, trivial⟩,
      ⟨⟨trivial, ⟨trivial, trivial, nofun⟩, fun _ => rfl⟩, trivial, ⟨trivial, trivial, trivial⟩,
        trivial⟩,
      trivial⟩
  exact ⟨hwritable, hapart, (parse_render_iff hwritable 0).mpr hapart⟩

/-- The comparison of a name with a text. -/
def textCompared : List Stmt :=
  [.print {} (.compare {} .isEqualTo (.identifier {} (ascii "x")) (.string {} (ascii "b")))]

/-- Behind a comparison phrase a string is not read as one. -/
theorem textCompared_not_readBack :
    Stmt.WritableList textCompared ∧ ∀ tree, parse (render textCompared) 0 ≠ .ok tree := by
  have hname : IsIdentifier (ascii "x") := by decide
  have htext : byte '\r' ∉ ascii "b" := by decide
  refine ⟨⟨⟨hname, htext⟩, trivial⟩, ?_⟩
  have herror : (parse (render textCompared) 0).isOk = false := by decide +kernel
  intro tree htree
  rw [htree] at herror
  cases herror

end Roar.Grammar
