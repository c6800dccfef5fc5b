import Roar.Proofs.Grammar.Expressions

/-!
# What a rule does to a parser

A rule takes tokens and comments (`Parser.Goes`), and no token that is final: the end of input and a
fault stay where they are, also if more tokens follow them. Two parsers are alike if they differ only
behind the first final token (`Parser.Alike`).

`Outcome` compares two runs of a rule, on parsers that are alike and with fuel of their own. They give
the same: both succeed, both miss something where they stand, or both halt because something was
missing before they began. So neither the fuel nor what lies behind a final token makes a difference.
Outcomes are put together along a rule by `Outcome.bind`.
-/

namespace Roar.Grammar

namespace Parser

/-! ## Moves -/

/-- The parser `q` is `p` after `k` tokens were taken, none of them final, and perhaps comments. -/
inductive Goes : Nat → Parser → Parser → Prop
  | refl (p : Parser) : Goes 0 p p
  | uncomment {k : Nat} {p q : Parser} (moved : Goes k p q) :
      Goes k p { q with current := { q.current with comments := [] } }
  | advance {k : Nat} {p q : Parser} (moved : Goes k p q)
      (passed : isFinal q.current.lexeme = false) (more : q.ahead ≠ []) : Goes (k + 1) p q.advance

theorem Goes.trans {k j : Nat} {p q r : Parser} (h : Goes k p q) (h' : Goes j q r) :
    Goes (k + j) p r := by
  induction h' with
  | refl => exact h
  | uncomment _ ih => exact (ih h).uncomment
  | advance _ passed more ih => exact (ih h).advance passed more

/-! ## Parsers that are alike -/

/-- The tokens ahead of a lexeme are the same up to a final one, which is `d` tokens ahead. -/
inductive AlikeAhead : Nat → Lexeme → List Token → List Token → Prop
  | final {x : Lexeme} {ts us : List Token} (final : isFinal x) : AlikeAhead 0 x ts us
  | next {d : Nat} {x : Lexeme} {t : Token} {ts us : List Token} (passed : isFinal x = false)
      (rest : AlikeAhead d t.lexeme ts us) : AlikeAhead (d + 1) x (t :: ts) (t :: us)

/-- The parsers differ only behind the first final token, which is `d` tokens ahead. -/
structure Alike (d : Nat) (p q : Parser) : Prop where
  current : p.current = q.current
  failed : p.failed = q.failed
  report : p.report = q.report
  ahead : AlikeAhead d p.current.lexeme p.ahead q.ahead

variable {d : Nat} {p q : Parser}

theorem AlikeAhead.self {x : Lexeme} {ts us : List Token} (h : AlikeAhead d x ts us) :
    AlikeAhead d x ts ts := by
  induction h with
  | final final => exact .final final
  | next passed _ ih => exact .next passed ih

theorem AlikeAhead.symm {x : Lexeme} {ts us : List Token} (h : AlikeAhead d x ts us) :
    AlikeAhead d x us ts := by
  induction h with
  | final final => exact .final final
  | next passed _ ih => exact .next passed ih

theorem Alike.symm (h : Alike d p q) : Alike d q p :=
  ⟨h.current.symm, h.failed.symm, h.report.symm, h.current ▸ h.ahead.symm⟩

theorem Alike.self (h : Alike d p q) : Alike d p p := ⟨rfl, rfl, rfl, h.ahead.self⟩

theorem Alike.uncomment (h : Alike d p q) :
    Alike d { p with current := { p.current with comments := [] } }
      { q with current := { q.current with comments := [] } } := by
  obtain ⟨hcurrent, hfailed, hreport, hahead⟩ := h
  exact ⟨by simp only [hcurrent], hfailed, hreport, hahead⟩

theorem Alike.advance (h : Alike d p q) (hpassed : isFinal p.current.lexeme = false) :
    ∃ e, e + 1 = d ∧ Goes 1 p p.advance ∧ Alike e p.advance q.advance := by
  obtain ⟨current, ahead, failed, report⟩ := p
  obtain ⟨current', ahead', failed', report'⟩ := q
  obtain ⟨rfl, rfl, rfl, hahead⟩ := h
  cases hahead with
  | final final => simp [hpassed] at final
  | next _ rest =>
    exact ⟨_, rfl, (Goes.refl _).advance hpassed (List.cons_ne_nil _ _), rfl, rfl, rfl, rest⟩

theorem Alike.miss (h : Alike d p q) (what : Expected) : Alike d (p.miss what) (q.miss what) := by
  obtain ⟨current, ahead, failed, report⟩ := p
  obtain ⟨current', ahead', failed', report'⟩ := q
  obtain ⟨rfl, rfl, rfl, hahead⟩ := h
  unfold Parser.miss
  split
  · exact ⟨rfl, rfl, rfl, hahead⟩
  · exact ⟨rfl, rfl, rfl, hahead⟩

end Parser

open Roar.Grammar.Parser (Goes Alike)

/-! ## Outcomes -/

/-- What two runs of a rule give, the first of which begins at `p`, with `d` tokens left to take: they
both succeed after `least` tokens or more, both miss something, or both halt. -/
inductive Outcome {α : Type} (least d : Nat) (p : Parser) :
    Option α × Parser → Option α × Parser → Prop
  | done {a : α} {k e : Nat} {p' q' : Parser} (moved : Goes k p p') (enough : least ≤ k)
      (left : e + k = d) (alike : Alike e p' q') : Outcome least d p (some a, p') (some a, q')
  | missed {k e : Nat} {p' q' : Parser} {what : Expected} (moved : Goes k p p') (left : e + k = d)
      (alike : Alike e p' q') : Outcome least d p (none, p'.miss what) (none, q'.miss what)
  | halted {k e : Nat} {p' q' : Parser} (moved : Goes k p p') (left : e + k = d)
      (alike : Alike e p' q') (failed : p'.failed) : Outcome least d p (none, p') (none, q')

namespace Parse

variable {α β : Type} {p p' : Parser} {rule : Parse α} {next : α → Parse β}

theorem bind_some {a : α} (h : rule p = (some a, p')) : (rule >>= next) p = next a p' := by
  simp only [Bind.bind, h]

private theorem bind_none (h : rule p = (none, p')) : (rule >>= next) p = (none, p') := by
  simp only [Bind.bind, h]

end Parse

namespace Outcome

variable {α β : Type} {least least' d : Nat} {p q : Parser}

theorem mono {x y : Option α × Parser} (h : Outcome least d p x y) (hle : least' ≤ least) :
    Outcome least' d p x y := by
  cases h with
  | done moved enough left alike => exact .done moved (Nat.le_trans hle enough) left alike
  | missed moved left alike => exact .missed moved left alike
  | halted moved left alike failed => exact .halted moved left alike failed

/-- What is done before. -/
theorem after {k e : Nat} {p' : Parser} {x y : Option α × Parser} (h : Outcome least e p' x y)
    (hmoved : Goes k p p') (hleft : e + k = d) : Outcome (k + least) d p x y := by
  cases h with
  | done moved enough left alike =>
    exact .done (hmoved.trans moved) (Nat.add_le_add_left enough k) (by omega) alike
  | missed moved left alike => exact .missed (hmoved.trans moved) (by omega) alike
  | halted moved left alike failed => exact .halted (hmoved.trans moved) (by omega) alike failed

/-- Two rules take at least what the first of them does. -/
theorem bind_first {rule rule' : Parse α} {next next' : α → Parse β}
    (h : Outcome least d p (rule p) (rule' q))
    (hnext : ∀ a k e p' q', least ≤ k → e + k = d → Alike e p' q' →
      Outcome 0 e p' (next a p') (next' a q')) :
    Outcome least d p ((rule >>= next) p) ((rule' >>= next') q) := by
  generalize hx : rule p = x at h
  generalize hy : rule' q = y at h
  cases h with
  | done moved enough left alike =>
    rw [Parse.bind_some hx, Parse.bind_some hy]
    exact ((hnext _ _ _ _ _ enough left alike).after moved left).mono enough
  | missed moved left alike =>
    rw [Parse.bind_none hx, Parse.bind_none hy]
    exact .missed moved left alike
  | halted moved left alike failed =>
    rw [Parse.bind_none hx, Parse.bind_none hy]
    exact .halted moved left alike failed

theorem bind {rule rule' : Parse α} {next next' : α → Parse β}
    (h : Outcome least d p (rule p) (rule' q))
    (hnext : ∀ a k e p' q', least ≤ k → e + k = d → Alike e p' q' →
      Outcome 0 e p' (next a p') (next' a q')) :
    Outcome 0 d p ((rule >>= next) p) ((rule' >>= next') q) :=
  (h.bind_first hnext).mono (Nat.zero_le least)

/-! ### Single steps -/

theorem pure {a : α} (h : Alike d p q) :
    Outcome 0 d p ((Pure.pure a : Parse α) p) ((Pure.pure a : Parse α) q) :=
  .done (.refl p) (Nat.le_refl 0) rfl h

theorem fail (h : Alike d p q) (what : Expected) :
    Outcome least d p ((Parse.fail what : Parse α) p) ((Parse.fail what : Parse α) q) :=
  .missed (.refl p) rfl h

theorem advance_first {next next' : Token → Parse α} (h : Alike d p q)
    (hpassed : isFinal p.current.lexeme = false)
    (hnext : ∀ e p' q', e + 1 = d → Alike e p' q' →
      Outcome 0 e p' (next p.current p') (next' p.current q')) :
    Outcome 1 d p ((Parse.advance >>= next) p) ((Parse.advance >>= next') q) := by
  obtain ⟨e, he, hgoes, halike⟩ := h.advance hpassed
  rw [Parse.advance_bind, Parse.advance_bind, ← h.current]
  exact (hnext e _ _ he halike).after hgoes he

theorem advance {next next' : Token → Parse α} (h : Alike d p q)
    (hpassed : isFinal p.current.lexeme = false)
    (hnext : ∀ e p' q', e + 1 = d → Alike e p' q' →
      Outcome 0 e p' (next p.current p') (next' p.current q')) :
    Outcome 0 d p ((Parse.advance >>= next) p) ((Parse.advance >>= next') q) :=
  (advance_first h hpassed hnext).mono (Nat.zero_le 1)

theorem current {next next' : Token → Parse α} (h : Alike d p q)
    (hnext : Outcome least d p (next p.current p) (next' p.current q)) :
    Outcome least d p ((Parse.current >>= next) p) ((Parse.current >>= next') q) := by
  rw [Parse.current_bind, Parse.current_bind, ← h.current]
  exact hnext

/-- A choice that the current token decides. -/
theorem ite {c : Prop} [Decidable c] {yes no yes' no' : Parse α}
    (hyes : c → Outcome least d p (yes p) (yes' q)) (hno : ¬ c → Outcome least d p (no p) (no' q)) :
    Outcome least d p ((if c then yes else no) p) ((if c then yes' else no') q) := by
  split
  · rename_i hc
    exact hyes hc
  · rename_i hc
    exact hno hc

theorem sign {s : Symbol} {yes no yes' no' : Parse α} (h : Alike d p q)
    (hyes : p.current.lexeme = .symbol s → Outcome least d p (yes p) (yes' q))
    (hno : Outcome least d p (no p) (no' q)) :
    Outcome least d p ((do if ← Parse.at? s then yes else no : Parse α) p)
      ((do if ← Parse.at? s then yes' else no' : Parse α) q) := by
  rw [Parse.at?_bind, Parse.at?_bind, ← h.current]
  exact ite (fun hc => hyes (by simpa using hc)) fun _ => hno

/-- A token that passes a test is taken, and missed if it does not. -/
theorem takeIf (test : Token → Bool) (f : Token → α) {what : Expected} (h : Alike d p q)
    (htest : ∀ t, test t → isFinal t.lexeme = false) :
    Outcome 1 d p
      (if test p.current then (some (f p.current), p.advance) else (none, p.miss what))
      (if test q.current then (some (f q.current), q.advance) else (none, q.miss what)) := by
  rw [← h.current]
  split
  · rename_i hc
    obtain ⟨e, he, hgoes, halike⟩ := h.advance (htest _ hc)
    exact .done hgoes (Nat.le_refl 1) he halike
  · exact .missed (.refl p) rfl h

theorem expect (h : Alike d p q) (s : Symbol) :
    Outcome 1 d p (Parse.expect s p) (Parse.expect s q) := by
  refine takeIf (fun t => t.lexeme == .symbol s) (fun _ => ()) h fun t ht => ?_
  rw [beq_iff_eq.mp ht]
  rfl

theorem expectKeyword (h : Alike d p q) (word : Keyword) :
    Outcome 1 d p (Parse.expectKeyword word p) (Parse.expectKeyword word q) := by
  refine takeIf (fun t => t.lexeme == .keyword word) (fun _ => ()) h fun t ht => ?_
  rw [beq_iff_eq.mp ht]
  rfl

theorem isFinal_of_isWord {t : Token} {text : Bytes} (h : Parse.isWord t text) :
    isFinal t.lexeme = false := by
  rw [(Parse.isWord_iff.mp h).lexeme]
  rfl

theorem expectWord (h : Alike d p q) (text : Bytes) :
    Outcome 1 d p (Parse.expectWord text p) (Parse.expectWord text q) :=
  takeIf (Parse.isWord · text) (fun _ => ()) h fun _ => isFinal_of_isWord

theorem name (h : Alike d p q) (what : Expected) :
    Outcome 1 d p (Parse.name what p) (Parse.name what q) := by
  refine takeIf (fun t => t.lexeme == .identifier) (fun t => t) h fun t ht => ?_
  rw [beq_iff_eq.mp ht]
  rfl

/-- Something was missing before, or nothing happens. -/
theorem sound (h : Alike d p q) : Outcome 0 d p (Parse.sound p) (Parse.sound q) := by
  unfold Parse.sound
  rw [← h.failed]
  split
  · rename_i hfailed
    exact .halted (.refl p) rfl h hfailed
  · exact .done (.refl p) (Nat.le_refl 0) rfl h

theorem takeComments {next next' : List Comment → Parse α} (h : Alike d p q)
    (hnext : ∀ p' q', Alike d p' q' →
      Outcome least d p' (next p.current.comments p') (next' p.current.comments q')) :
    Outcome least d p ((Parse.takeComments >>= next) p) ((Parse.takeComments >>= next') q) := by
  rw [Parse.takeComments_bind, Parse.takeComments_bind]
  have hbare := hnext _ _ h.uncomment
  rw [← h.current] at hbare ⊢
  exact (hbare.after (Goes.refl p).uncomment rfl).mono (by omega)

end Outcome

end Roar.Grammar
