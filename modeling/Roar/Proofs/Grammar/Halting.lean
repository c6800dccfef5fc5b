import Roar.Proofs.Grammar.Calls

/-!
# Reading comes to an end

The tokens of a source end, and every rule of the grammar comes to a result of its own: with more fuel
than a parser gives it, a rule does the same (`Outcome.eq`). A rule that gives a node has taken a token
(`Parse.NodeRule`), so a parser takes no more of them than the source can have, whatever it is asked
for (`Parser.after_ahead`). The result is `reading_terminates`.
-/

namespace Roar.Grammar

open Roar.Grammar.Parser (Alike AlikeAhead Goes)

namespace Parser

variable {d e : Nat} {p q : Parser}

theorem AlikeAhead.unique {x : Lexeme} {ts us : List Token} (h : AlikeAhead d x ts us)
    (h' : AlikeAhead e x us ts) : d = e := by
  induction h generalizing e with
  | final final => exact (h'.eq_zero final).symm
  | next passed _ ih =>
    cases h' with
    | final final => simp [passed] at final
    | next _ rest => rw [ih rest]

theorem Goes.ahead_eq {k : Nat} (h : Goes k p q) : q.ahead = p.ahead.drop k := by
  induction h with
  | refl => rfl
  | uncomment _ ih => exact ih
  | @advance k p q _ _ more ih =>
    obtain ⟨current, ahead, failed, report⟩ := q
    cases ahead with
    | nil => exact absurd rfl more
    | cons t us =>
      replace ih : t :: us = p.ahead.drop k := ih
      exact (drop_succ ih.symm).symm

/-- A final token lies ahead, or is the current one. -/
def InSight (p : Parser) : Prop := ∃ t ∈ p.current :: p.ahead, isFinal t.lexeme

theorem exists_alikeAhead (t : Token) {ts : List Token} (h : ∃ u ∈ t :: ts, isFinal u.lexeme) :
    ∃ d, AlikeAhead d t.lexeme ts ts := by
  induction ts generalizing t with
  | nil =>
    obtain ⟨u, hu, hfinal⟩ := h
    rw [List.mem_singleton] at hu
    exact ⟨0, .final (hu ▸ hfinal)⟩
  | cons v ts ih =>
    by_cases hfinal : isFinal t.lexeme
    · exact ⟨0, .final hfinal⟩
    · obtain ⟨u, hu, hu'⟩ := h
      have hlater : u ∈ v :: ts := by
        obtain rfl | hlater := List.mem_cons.mp hu
        · exact absurd hu' hfinal
        · exact hlater
      obtain ⟨d, halike⟩ := ih v ⟨u, hlater, hu'⟩
      exact ⟨d + 1, .next (Bool.not_eq_true _ ▸ hfinal) halike⟩

theorem AlikeAhead.exists_final {t : Token} {ts us : List Token} (h : AlikeAhead d t.lexeme ts us) :
    ∃ u ∈ t :: ts, isFinal u.lexeme := by
  generalize hx : t.lexeme = x at h
  induction h generalizing t with
  | final final => exact ⟨t, List.mem_cons_self, hx ▸ final⟩
  | @next _ _ v _ _ _ _ ih =>
    obtain ⟨u, hu, hfinal⟩ := ih (t := v) rfl
    exact ⟨u, List.mem_cons_of_mem t hu, hfinal⟩

theorem Alike.inSight (h : Alike d p q) : InSight p := h.ahead.exists_final

theorem InSight.alike (h : InSight p) : ∃ d, Alike d p p := by
  obtain ⟨d, halike⟩ := exists_alikeAhead p.current h
  exact ⟨d, rfl, rfl, rfl, halike⟩

end Parser

/-! ## Fuel -/

namespace Outcome

variable {α : Type} {least d : Nat} {p : Parser} {x y : Option α × Parser}

/-- How far a parser has gone. -/
theorem ahead_eq (h : Outcome least d p x y) :
    ∃ k e, e + k = d ∧ x.2.ahead = p.ahead.drop k ∧ Alike e x.2 y.2 := by
  cases h with
  | done moved _ left alike => exact ⟨_, _, left, moved.ahead_eq, alike⟩
  | missed moved left alike =>
    exact ⟨_, _, left, (Parser.ahead_miss _ _).trans moved.ahead_eq, alike.miss _⟩
  | halted moved left alike => exact ⟨_, _, left, moved.ahead_eq, alike⟩

/-- Two runs that begin at one parser do the same. -/
theorem eq (h : Outcome least d p x y) (h' : Outcome least d p y x) : x = y := by
  obtain ⟨k, e, hk, hx, halike⟩ := h.ahead_eq
  obtain ⟨j, i, hj, hy, halike'⟩ := h'.ahead_eq
  have hanswer := h.answers_eq
  obtain ⟨a, ⟨current, ahead, failed, report⟩⟩ := x
  obtain ⟨b, ⟨current', ahead', failed', report'⟩⟩ := y
  obtain ⟨rfl, rfl, rfl, hahead⟩ := halike
  obtain rfl : e = i := hahead.unique halike'.ahead
  obtain rfl : k = j := by omega
  obtain rfl : ahead = ahead' := hx.trans hy.symm
  obtain rfl : a = b := hanswer
  rfl

end Outcome

namespace Parse

/-- The words that arms begin with. -/
def startsArm (x : Lexeme) : Bool := x == .keyword .ifWord || x == .keyword .elseWord

/-- The rules that give a node of the tree, or the block or the arms of one, and the lexemes at which
they are asked to begin. -/
inductive NodeRule : {α : Type} → (Lexeme → Bool) → (Nat → Parse α) → Prop
  | expression : NodeRule (fun _ => true) expression
  | chain (level : Level) : NodeRule (fun _ => true) (chain · level)
  | operand (level : Level) : NodeRule (fun _ => true) (operand · level)
  | comparison : NodeRule (fun _ => true) comparison
  | unary : NodeRule (fun _ => true) unary
  | primary : NodeRule (fun _ => true) primary
  | expressionStatement : NodeRule (fun _ => true) expressionStatement
  | statement : NodeRule (fun _ => true) statement
  | block : NodeRule (fun _ => true) block
  | arm : NodeRule startsArm arm

private theorem isFinal_of_startsArm {x : Lexeme} (h : startsArm x) : isFinal x = false := by
  simp only [startsArm, Bool.or_eq_true, beq_iff_eq] at h
  obtain rfl | rfl := h
  · rfl
  · rfl

theorem Level.need_le (level : Level) : level.need ≤ 10 := by
  cases level <;> decide

theorem NodeRule.outcome {α : Type} {starts : Lexeme → Bool} {rule : Nat → Parse α}
    (h : NodeRule starts rule) {d n n' : Nat} {p q : Parser} (halike : Alike d p q)
    (hstarts : starts p.current.lexeme) (hn : 16 * d + 16 ≤ n) (hn' : 16 * d + 16 ≤ n') :
    Outcome 1 d p (rule n p) (rule n' q) := by
  have he := expressionsAgree n n'
  have hs := statementsAgree n n'
  cases h with
  | expression => exact he.expression (by omega) (by omega) halike
  | chain level =>
    have := level.need_le
    exact he.chain level (by omega) (by omega) halike
  | operand level =>
    have := level.need_le
    exact he.operand level (by omega) (by omega) halike
  | comparison => exact he.comparison (by omega) (by omega) halike
  | unary => exact he.unary (by omega) (by omega) halike
  | primary => exact he.primary (by omega) (by omega) halike
  | expressionStatement => exact expressionStatement_agree n n' (by omega) (by omega) halike
  | statement => exact hs.statement (by omega) (by omega) halike
  | block => exact hs.block (by omega) (by omega) halike
  | arm => exact hs.arm (by omega) (by omega) halike (isFinal_of_startsArm hstarts)

/-- A rule that gives a node needs no more fuel than sixteen units for a token and for the end. It gives
none only for lack of something in the source, and if it gives one it has taken a token. -/
theorem NodeRule.halts {α : Type} {starts : Lexeme → Bool} {rule : Nat → Parse α}
    (h : NodeRule starts rule) {p : Parser} (hsight : p.InSight)
    (hstarts : starts p.current.lexeme) {n : Nat} (hn : 16 * (p.ahead.length + 1) ≤ n) :
    rule n p = rule p.depth p ∧ ((rule n p).1 = none → (rule n p).2.failed) ∧
      ((rule n p).1 ≠ none → (rule n p).2.ahead.length < p.ahead.length) := by
  obtain ⟨d, halike⟩ := hsight.alike
  obtain ⟨hdepth, -⟩ := halike.fuel 16 (by decide)
  obtain ⟨hd, -⟩ := halike.ahead.le_length
  have henough : 16 * d + 16 ≤ n := by omega
  have hrun := h.outcome halike hstarts henough hdepth
  refine ⟨hrun.eq (h.outcome halike hstarts hdepth henough), hrun.failed_of_none, fun hsome => ?_⟩
  obtain ⟨a, ha⟩ := Option.ne_none_iff_exists'.mp hsome
  exact hrun.shorter_of_some ha

end Parse

namespace Parser

theorem program_halts (source : Bytes) (file : Nat) :
    (∀ fuel, (start source file).depth ≤ fuel →
      Parse.program fuel (start source file) = (start source file).program) ∧
    ((start source file).program.1 = none → (start source file).program.2.failed) := by
  obtain ⟨d, halike, -⟩ := start_alike source file
  obtain ⟨hdepth, -⟩ := halike.fuel 14 (by decide)
  refine ⟨fun fuel hfuel => ?_, ?_⟩
  · have henough := Nat.le_trans hdepth hfuel
    exact (Parse.program_agree _ _ henough hdepth halike).eq
      (Parse.program_agree _ _ hdepth henough halike)
  · exact (Parse.program_agree _ _ hdepth hdepth halike).failed_of_none

/-- How far a parser of a source has gone after some calls. -/
theorem after_ahead (source : Bytes) (file extra : Nat) (calls : List Call) :
    ∃ k ≤ 2 * source.length, (after source file extra calls).InSight ∧
      (after source file extra calls).ahead = (live source file extra).ahead.drop k ∧
      (after source file extra calls).ahead.length + k = (live source file extra).ahead.length := by
  obtain ⟨d, hd, halike, hbehind⟩ := live_alike source file extra
  obtain ⟨k, e, own, he, hafter, halike', -⟩ := hbehind.performAll halike calls
  rw [Nat.zero_add] at hafter
  obtain ⟨t, ht, -⟩ := hbehind.tokens
  obtain ⟨u, hu, -⟩ := hafter.tokens
  rw [List.drop_zero] at ht
  rw [ht] at hu
  have hahead : (live source file extra).ahead.drop k = (after source file extra calls).ahead :=
    drop_succ hu
  have hlength := congrArg List.length hu
  simp only [List.length_drop, List.length_cons] at hlength
  exact ⟨k, by omega, halike'.inSight, hahead.symm, by unfold after; omega⟩

end Parser

/-- Every source is read to its end. A reader that is asked for tokens gives the end of input after
twice as many as there are bytes, or before, and from then on it gives nothing else and stays as it is.
A parser reads the whole source with the fuel that it has, and more makes no difference. The same is so
of the rules for nodes wherever a final token is in sight, and one that gives a node has taken a token.
Whatever a parser is asked for, and with whatever tokens behind a fault or the end, it takes no more
tokens than twice the number of bytes. -/
theorem reading_terminates (source : Bytes) (file extra : Nat) :
    (∃ k ≤ 2 * source.length, (Reader.taken k (.start source file)).next.1.lexeme.isEnd) ∧
    (∀ k, (Reader.taken k (.start source file)).next.1.lexeme.isEnd → ∀ j, k < j →
      Reader.taken j (.start source file) = Reader.taken (k + 1) (.start source file) ∧
      (Reader.taken j (.start source file)).next =
        (⟨.endOfInput, [], (Reader.taken j (.start source file)).scanner.location, []⟩,
          Reader.taken j (.start source file))) ∧
    (∀ fuel, (Parser.start source file).depth ≤ fuel →
      Parse.program fuel (Parser.start source file) = (Parser.start source file).program) ∧
    ((Parser.start source file).program.1 = none → (Parser.start source file).program.2.failed) ∧
    (∀ (α : Type) (starts : Lexeme → Bool) (rule : Nat → Parse α), Parse.NodeRule starts rule →
      ∀ p : Parser, p.InSight → starts p.current.lexeme → ∀ n, 16 * (p.ahead.length + 1) ≤ n →
        rule n p = rule p.depth p ∧ ((rule n p).1 = none → (rule n p).2.failed) ∧
          ((rule n p).1 ≠ none → (rule n p).2.ahead.length < p.ahead.length)) ∧
    (∀ calls, ∃ k ≤ 2 * source.length, (Parser.after source file extra calls).InSight ∧
      (Parser.after source file extra calls).ahead = (Parser.live source file extra).ahead.drop k ∧
      (Parser.after source file extra calls).ahead.length + k =
        (Parser.live source file extra).ahead.length) := by
  obtain ⟨hprogram, hfailed⟩ := Parser.program_halts source file
  refine ⟨?_, ?_, hprogram, hfailed, ?_, Parser.after_ahead source file extra⟩
  · exact Reader.exists_end (r := .start source file) rfl
  · intro k hend j hj
    exact Reader.taken_of_end rfl hend hj
  · intro α starts rule hrule p hsight hstarts n hn
    exact hrule.halts hsight hstarts hn

end Roar.Grammar
