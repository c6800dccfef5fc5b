import Roar.Proofs.Grammar.Expressions
import Roar.Proofs.Token.Progress

/-!
# What the parser reads is derived

The rules for statements read what they derive, as those for expressions do (`statementRules`). A list
of statements stops before a token whose comments it has taken, and a whole source stops at the end of
input. The tokens of a source end, and a parser sees all of them if there is no fault among them, so
the tree of a source is derived from all of its tokens (`parse_derives`).
-/

namespace Roar.Grammar

open Roar.Grammar.Parser (At Near)

namespace Parse

variable {β : Type} {p p' : Parser} {ts : List Token}

/-! ## Statements -/

/-- A parameter is a word. -/
theorem parameter_reads :
    Reads (name .parameterName) fun us t => ∃ u, us = [u] ∧ u.lexeme = .identifier ∧ SameToken u t := by
  intro p ts t p' hp hr
  obtain ⟨u, rest, rfl, hu, hsame, hp'⟩ := name_reads hp hr
  exact ⟨[u], rest, rfl, by simp, ⟨u, rfl, hu, hsame⟩, hp'⟩

theorem paramList_reads : (n : Nat) → Reads (paramList n) (Ended Derives.ParamList)
  | 0 => reads_stop _
  | n + 1 => by
    refine commaList_reads (f := fun t => ⟨t.text, t.location⟩) parameter_reads (paramList_reads n)
      ?_ ?_
    · rintro _ t ⟨u, rfl, hu, hsame⟩
      rw [← hsame.text, ← hsame.location]
      exact .one hu
    · rintro _ comma vs t params ⟨u, rfl, hu, hsame⟩ hsign hrest
      rw [← hsame.text, ← hsame.location]
      exact .more hu hsign hrest

theorem params_reads (n : Nat) : Reads (params n) (Ended Derives.Params) :=
  optionalList_reads (paramList_reads n) .none fun _ _ => .some

theorem expressionStatement_reads (n : Nat) :
    Reads (expressionStatement n) Derives.Statement := by
  intro p ts s p' hp hr
  rw [expressionStatement, current_bind] at hr
  obtain ⟨target, q, htarget, hr⟩ := exists_of_bind hr
  obtain ⟨us, rest, rfl, hne, hus, hq⟩ := (expressionRules n).expression hp htarget
  obtain ⟨t, us, rfl, hsame⟩ := exists_cons_of_near hp hne
  rw [at?_bind] at hr
  split at hr
  · rename_i hassign
    rw [advance_bind] at hr
    obtain ⟨value, q', hvalue, hr⟩ := exists_of_bind hr
    cases hr
    obtain ⟨u, vs, rfl, hu, -, hat⟩ := take_of_lexeme hq.near (by simpa using hassign) rfl
    obtain ⟨vs, rest, rfl, -, hvs, hp'⟩ := (expressionRules n).expression hat.near hvalue
    rw [← hsame.location]
    exact ⟨t :: us ++ u :: vs, rest, by simp, by simp, .assign hus hu hvs, hp'⟩
  · cases hr
    rw [← hsame.location]
    exact ⟨t :: us, rest, rfl, by simp, .expression hus, hq⟩

/-- With so much fuel every rule for statements reads what it derives. The comments before the token
that ends a list of statements have been taken. -/
structure StatementRules (n : Nat) : Prop where
  statements ⦃p : Parser⦄ ⦃ts : List Token⦄ ⦃ss : List Stmt⦄ ⦃p' : Parser⦄ (hp : At p ts)
    (hr : statements n p = (some ss, p')) :
    ∃ used stop rest, ts = used ++ stop :: rest ∧ Derives.Statements stop used ss ∧
      Near p' (stop :: rest)
  block : Reads (block n) fun us b => Derives.Block us b.1 b.2
  statement : Reads (statement n) Derives.Statement
  arm ⦃p : Parser⦄ ⦃ts : List Token⦄ ⦃arms : Arms⦄ ⦃p' : Parser⦄ (hp : Near p ts)
    (hopen : isFinal p.current.lexeme = false) (hr : arm n p = (some arms, p')) :
    ∃ t used rest, ts = t :: used ++ rest ∧ SameToken t p.current ∧
      Derives.Arm used t.location arms ∧ At p' rest
  moreArms : ReadsOn (moreArms n) Derives.MoreArms

/-- An expression in parentheses, in a rule that goes on with it. -/
theorem enclosed_reads {n : Nat} {next : Expr → Parse β} {b : β} (hp : Near p ts)
    (hr : (do expect .openParen; let e ← expression n; expect .closeParen; next e : Parse β) p =
      (some b, p')) :
    ∃ e used rest q, ts = used ++ rest ∧ Derives.Enclosed used e ∧ At q rest ∧
      next e q = (some b, p') := by
  obtain ⟨_, q, hopen, hr⟩ := exists_of_bind hr
  obtain ⟨opening, ts, rfl, hopening, -, hq⟩ := expect_reads hp hopen
  obtain ⟨e, q', he, hr⟩ := exists_of_bind hr
  obtain ⟨us, rest, rfl, -, hus, hq'⟩ := (expressionRules n).expression hq.near he
  obtain ⟨_, q'', hclose, hr⟩ := exists_of_bind hr
  obtain ⟨closing, rest, rfl, hclosing, -, hq''⟩ := expect_reads hq'.near hclose
  exact ⟨e, opening :: us ++ [closing], rest, q'', by simp, .parens hopening hus hclosing, hq'', hr⟩

/-- A reserved word and an expression. -/
theorem wordExpression_reads {n : Nat} {word : Keyword} {f : Expr → Stmt} {s : Stmt} (hp : Near p ts)
    (hx : p.current.lexeme = .keyword word)
    (hr : (do let _ ← advance; let value ← expression n; pure (f value) : Parse Stmt) p =
      (some s, p')) :
    ∃ t used value rest, ts = t :: used ++ rest ∧ t.lexeme = .keyword word ∧
      SameToken t p.current ∧ Derives.Expression used value ∧ At p' rest ∧ s = f value := by
  rw [advance_bind] at hr
  obtain ⟨value, q, hvalue, hr⟩ := exists_of_bind hr
  cases hr
  obtain ⟨t, ts, rfl, ht, hsame, hat⟩ := take_of_lexeme hp hx rfl
  obtain ⟨us, rest, rfl, -, hus, hp'⟩ := (expressionRules n).expression hat.near hvalue
  exact ⟨t, us, value, rest, rfl, ht, hsame, hus, hp', rfl⟩

namespace StatementRules

variable {n : Nat}

theorem statements_succ (h : StatementRules n) {ss : List Stmt} (hp : At p ts)
    (hr : Parse.statements (n + 1) p = (some ss, p')) :
    ∃ used stop rest, ts = used ++ stop :: rest ∧ Derives.Statements stop used ss ∧
      Near p' (stop :: rest) := by
  simp only [Parse.statements, takeComments_bind, current_bind] at hr
  -- the current token has lost its comments, which are statements now
  have hbare : Near { p with current := { p.current with comments := [] } } ts :=
    ⟨⟨p.current, hp.tokens.symm, rfl, rfl, rfl⟩, hp.closed⟩
  split at hr
  · obtain ⟨s, q, hs, hr⟩ := exists_of_bind hr
    obtain ⟨us, rest, rfl, hne, hus, hq⟩ := h.statement hbare hs
    obtain ⟨rest', q', hrest, hr⟩ := exists_of_bind hr
    cases hr
    obtain ⟨vs, stop, rest, rfl, hvs, hp'⟩ := h.statements hq hrest
    obtain ⟨t, us, rfl⟩ := List.exists_cons_of_ne_nil hne
    obtain ⟨rfl, -⟩ : p.current = t ∧ _ := by simpa using hp.tokens
    exact ⟨p.current :: us ++ vs, stop, rest, by simp, .cons hus hvs, hp'⟩
  · obtain ⟨_, q, hsound, hr⟩ := exists_of_bind hr
    obtain rfl := sound_eq hsound
    cases hr
    obtain ⟨rfl, -⟩ := hp
    exact ⟨[], p.current, p.ahead, rfl, .nil, hbare⟩

theorem block_succ (h : StatementRules n) :
    Reads (Parse.block (n + 1)) fun us b => Derives.Block us b.1 b.2 := by
  intro p ts b p' hp hr
  rw [Parse.block, current_bind] at hr
  obtain ⟨_, q, hopen, hr⟩ := exists_of_bind hr
  obtain ⟨opening, ts, rfl, hopening, hsame, hq⟩ := expect_reads hp hopen
  obtain ⟨body, q', hbody, hr⟩ := exists_of_bind hr
  obtain ⟨us, stop, rest, rfl, hus, hq'⟩ := h.statements hq hbody
  obtain ⟨_, q'', hclose, hr⟩ := exists_of_bind hr
  cases hr
  obtain ⟨closing, rest, hcons, hclosing, -, hp'⟩ := expect_reads hq' hclose
  cases hcons
  refine ⟨opening :: us ++ [stop], rest, by simp, by simp, ?_, hp'⟩
  rw [← hsame.location]
  exact .block hopening hus hclosing

theorem arm_succ (h : StatementRules n) {arms : Arms} (hp : Near p ts)
    (hopen : isFinal p.current.lexeme = false) (hr : Parse.arm (n + 1) p = (some arms, p')) :
    ∃ t used rest, ts = t :: used ++ rest ∧ SameToken t p.current ∧
      Derives.Arm used t.location arms ∧ At p' rest := by
  rw [Parse.arm, advance_bind] at hr
  obtain ⟨t, ts, rfl, -, hsame, hat⟩ := take_of_lexeme hp rfl hopen
  obtain ⟨e, us, rest, q, rfl, hus, hq, hr⟩ := enclosed_reads hat.near hr
  obtain ⟨⟨bodyLoc, body⟩, q', hblock, hr⟩ := exists_of_bind hr
  obtain ⟨vs, rest, rfl, -, hvs, hq'⟩ := h.block hq.near hblock
  obtain ⟨more, q'', hmore, hr⟩ := exists_of_bind hr
  cases hr
  obtain ⟨ws, rest, rfl, hws, hp'⟩ := h.moreArms hq' hmore
  rw [← hsame.location]
  exact ⟨t, us ++ vs ++ ws, rest, by simp, hsame, .arm hus hvs hws, hp'⟩

theorem moreArms_succ (h : StatementRules n) :
    ReadsOn (Parse.moreArms (n + 1)) Derives.MoreArms := by
  intro p ts arms p' hp hr
  simp only [Parse.moreArms, current_bind] at hr
  generalize hx : p.current.lexeme = x at hr
  split at hr
  · obtain ⟨t, us, rest, rfl, hsame, hus, hp'⟩ := h.arm hp.near (by rw [hx]; rfl) hr
    exact ⟨t :: us, rest, rfl, .arm (hsame.lexeme.trans hx) hus, hp'⟩
  · rw [advance_bind] at hr
    obtain ⟨⟨bodyLoc, body⟩, q, hblock, hr⟩ := exists_of_bind hr
    cases hr
    obtain ⟨t, ts, rfl, ht, -, hat⟩ := take_of_lexeme hp.near hx rfl
    obtain ⟨us, rest, rfl, -, hus, hp'⟩ := h.block hat.near hblock
    exact ⟨t :: us, rest, rfl, .otherwise ht hus, hp'⟩
  · cases hr
    exact ⟨[], ts, rfl, .done, hp⟩

theorem statement_succ (h : StatementRules n) :
    Reads (Parse.statement (n + 1)) Derives.Statement := by
  intro p ts s p' hp hr
  simp only [Parse.statement, current_bind] at hr
  generalize hx : p.current.lexeme = x at hr
  split at hr
  · obtain ⟨t, us, value, rest, rfl, ht, hsame, hus, hp', rfl⟩ := wordExpression_reads hp hx hr
    rw [← hsame.location]
    exact ⟨t :: us, rest, rfl, by simp, .print ht hus, hp'⟩
  · obtain ⟨t, ts, rfl, ht, hsame, hat⟩ := take_of_lexeme hp hx rfl
    rw [advance_bind] at hr
    obtain ⟨f, q, hf, hr⟩ := exists_of_bind hr
    obtain ⟨f', ts, rfl, hname, hsameName, hq⟩ := name_reads hat.near hf
    obtain ⟨_, q', hopen, hr⟩ := exists_of_bind hr
    obtain ⟨opening, ts, rfl, hopening, -, hq'⟩ := expect_reads hq.near hopen
    obtain ⟨params, q'', hparams, hr⟩ := exists_of_bind hr
    obtain ⟨us, rest, rfl, -, hus, hq''⟩ := params_reads n hq'.near hparams
    obtain @⟨us, closing, _, hinner, hclosing⟩ := hus
    obtain ⟨⟨bodyLoc, body⟩, q₃, hblock, hr⟩ := exists_of_bind hr
    cases hr
    obtain ⟨vs, rest, rfl, -, hvs, hp'⟩ := h.block hq''.near hblock
    rw [← hsame.location, ← hsameName.text]
    exact ⟨t :: f' :: opening :: us ++ closing :: vs, rest, by simp, by simp,
      .function ht hname hopening hinner hclosing hvs, hp'⟩
  · obtain ⟨t, us, value, rest, rfl, ht, hsame, hus, hp', rfl⟩ := wordExpression_reads hp hx hr
    rw [← hsame.location]
    exact ⟨t :: us, rest, rfl, by simp, .serve ht hus, hp'⟩
  · obtain ⟨t, ts, rfl, ht, hsame, hat⟩ := take_of_lexeme hp hx rfl
    rw [advance_bind] at hr
    obtain ⟨counter, q, hcounter, hr⟩ := exists_of_bind hr
    obtain ⟨us, rest, rfl, -, hus, hq⟩ := (expressionRules n).primary hat.near hcounter
    obtain ⟨_, q', hin, hr⟩ := exists_of_bind hr
    obtain ⟨inWord, rest, rfl, hinWord, -, hq'⟩ := expectKeyword_reads hq.near hin
    rw [current_bind] at hr
    obtain ⟨_, q'', hrange, hr⟩ := exists_of_bind hr
    obtain ⟨range, rest, rfl, hrangeWord, hsameRange, hq''⟩ := expectKeyword_reads hq'.near hrange
    obtain ⟨bound, vs, rest, q₃, rfl, hvs, hq₃, hr⟩ := enclosed_reads hq''.near hr
    obtain ⟨⟨bodyLoc, body⟩, q₄, hblock, hr⟩ := exists_of_bind hr
    cases hr
    obtain ⟨ws, rest, rfl, -, hws, hp'⟩ := h.block hq₃.near hblock
    rw [← hsame.location, ← hsameRange.location]
    exact ⟨t :: us ++ inWord :: range :: vs ++ ws, rest, by simp, by simp,
      .loop ht hus hinWord hrangeWord hvs hws, hp'⟩
  · obtain ⟨arms, q, harms, hr⟩ := exists_of_bind hr
    cases hr
    obtain ⟨t, us, rest, rfl, hsame, hus, hp'⟩ := h.arm hp (by rw [hx]; rfl) harms
    rw [← hsame.location]
    exact ⟨t :: us, rest, rfl, by simp, .branch (hsame.lexeme.trans hx) hus, hp'⟩
  · cases hr
    refine single_reads hp hx rfl fun t ht hsame => ?_
    rw [← hsame.location]
    exact .leave ht
  · split at hr
    · exact expressionStatement_reads n hp hr
    · cases hr

end StatementRules

theorem statementRules : (n : Nat) → StatementRules n
  | 0 =>
    { statements := fun _ _ _ _ _ hr => by cases hr
      block := reads_stop _
      statement := reads_stop _
      arm := fun _ _ _ _ _ _ hr => by cases hr
      moreArms := readsOn_stop _ }
  | n + 1 =>
    have h := statementRules n
    { statements := fun _ _ _ _ => h.statements_succ
      block := h.block_succ
      statement := h.statement_succ
      arm := fun _ _ _ _ => h.arm_succ
      moreArms := h.moreArms_succ }

/-- A program uses all tokens up to the end of input. -/
theorem program_reads {n : Nat} {tree : Tree} (hp : At p ts)
    (hr : program n p = (some tree, p')) :
    tree.file = p.current.location.file ∧
      ∃ us stop, ts = us ++ [stop] ∧ stop.lexeme.isEnd ∧
        Derives.Statements stop us tree.statements := by
  rw [program, current_bind] at hr
  obtain ⟨body, q, hbody, hr⟩ := exists_of_bind hr
  obtain ⟨us, stop, rest, rfl, hus, hq⟩ := (statementRules n).statements hp hbody
  simp only [current_bind] at hr
  split at hr
  · rename_i hend
    cases hr
    obtain ⟨⟨t, hcons, hsame⟩, hclosed⟩ := hq
    cases hcons
    rw [← hsame.lexeme] at hend
    have hrest := hclosed.eq_nil (by simp [isFinal, hend])
    exact ⟨rfl, us, stop, by rw [hrest], hend, hus⟩
  · cases hr

end Parse

/-! ## Sources -/

theorem isEnd_iff {x : Lexeme} : x.isEnd ↔ x = .endOfInput := by
  cases x <;> simp [Lexeme.isEnd]

theorem closed_readable (source : Bytes) (file : Nat) : Closed (Scanner.readable source file) := by
  obtain ⟨ts, t, hts, ht, hnot⟩ : ∃ ts t, Scanner.readable source file = ts ++ [t] ∧
      isFinal t.lexeme ∧ ∀ u ∈ ts, ¬ isFinal u.lexeme :=
    Scanner.collect_ends rfl (by simp [Scanner.weight_start, Scanner.tokenLimit])
  rw [hts]
  clear hts
  induction ts with
  | nil => exact .last ht
  | cons u ts ih =>
    obtain ⟨hu, hnot⟩ := List.forall_mem_cons.mp hnot
    exact .cons hu (ih hnot)

theorem start_at (source : Bytes) (file : Nat) :
    At (Parser.start source file) (Scanner.readable source file) := by
  have hclosed := closed_readable source file
  refine ⟨?_, hclosed⟩
  unfold Parser.start
  cases hts : Scanner.readable source file with
  | nil =>
    rw [hts] at hclosed
    cases hclosed
  | cons t ts => rfl

/-- A parser of a source begins in its file. -/
theorem start_file (source : Bytes) (file : Nat) :
    (Parser.start source file).current.location.file = file := by
  have hfirst : (Parser.start source file).current = (Scanner.start source file).next.1 := by
    simp only [Parser.start, Scanner.readable, Scanner.tokenLimit, Scanner.collect]
    split <;> rfl
  rw [hfirst, Scanner.file_next]
  rfl

/-- Up to the end of input there is no fault, so these are all tokens. -/
theorem tokens_eq_of_readable {source : Bytes} {file : Nat} {ts : List Token} {stop : Token}
    (h : Scanner.readable source file = ts ++ [stop]) (hstop : stop.lexeme.isEnd) :
    Scanner.tokens source file = ts ++ [stop] := by
  have himp (x : Lexeme) (hx : x.isEnd) : isFinal x := by simp [isFinal, hx]
  exact Scanner.collect_eq_of_imp himp h hstop

/-- A source that is parsed is read by the rule for whole sources. -/
theorem program_of_parse {text : Bytes} {file : Nat} {tree : Tree} (h : parse text file = .ok tree) :
    ∃ q, Parse.program (Parser.start text file).depth (Parser.start text file) = (some tree, q) := by
  simp only [parse] at h
  split at h
  · rename_i result hresult
    split at h
    · cases h
      exact ⟨_, Prod.ext hresult rfl⟩
    · cases h
  · cases h

/-- In a tree that has been parsed every conditional stands where its first arm does. -/
theorem aligned_of_parse {source : Bytes} {file : Nat} {tree : Tree}
    (h : parse source file = .ok tree) : tree.Aligned := by
  obtain ⟨q, hprogram⟩ := program_of_parse h
  obtain ⟨-, ts, stop, -, -, hderives⟩ := Parse.program_reads (start_at source file) hprogram
  exact hderives.aligned

/-- A source that is parsed is derived: its tokens, each used once and in order, stand for the
statements of its tree. -/
theorem parse_derives {source : Bytes} {file : Nat} {tree : Tree}
    (h : parse source file = .ok tree) :
    tree.file = file ∧ Derives.Program (Scanner.tokens source file) tree.statements := by
  simp only [parse] at h
  split at h
  · rename_i result hresult
    split at h
    · cases h
      have hprogram : Parse.program (Parser.start source file).depth (Parser.start source file) =
          (some tree, (Parser.start source file).program.2) := Prod.ext hresult rfl
      obtain ⟨hfile, ts, stop, hts, hstop, hderives⟩ :=
        Parse.program_reads (start_at source file) hprogram
      refine ⟨hfile.trans (start_file source file), ?_⟩
      rw [tokens_eq_of_readable hts hstop]
      exact .program hderives (isEnd_iff.mp hstop)
    · cases h
  · cases h

/-- A product in a sum, a group, a phrase beside `or`, an embedded name, a comment before a statement
and one before the end of a block. -/
def sumSource : Bytes :=
  ascii "~sum~ s = a + b * (c - d)\nif (s is less than a or !t) |\n  roar -v $s- ~last~\n|\n"

theorem sumSource_derives :
    ∃ tree, parse sumSource 3 = .ok tree ∧ tree.file = 3 ∧
      Derives.Program (Scanner.tokens sumSource 3) tree.statements := by
  have hok : (parse sumSource 3).isOk := by decide +kernel
  cases hparse : parse sumSource 3 with
  | ok tree => exact ⟨tree, rfl, parse_derives hparse⟩
  | error d => simp [hparse, Except.isOk, Except.toBool] at hok

end Roar.Grammar
