import Roar.Grammar.Parser
import Roar.Proofs.Grammar.Reading
import Roar.Proofs.Grammar.Rendering

/-!
# Expressions that are written are read

A parser sees lines if its tokens say what stands on them (`Parser.Sees`). A rule accepts lines if it
succeeds whenever a parser sees them, whatever their places (`Parse.Accepts`).

Every expression is accepted by the rule for its strength (`Expr.accepted`), and in parentheses, or as
it is if it is strong enough, by every other rule (`Expr.Accepted.written`). The rules associate to the
left: an operand on the left of its operator is read by the rule that reads the whole, which goes on
behind it (`Leads`).

The rule for strength `k` needs fuel of 16 for each atom, less `2 * k + 1`: from one strength to the
next the rules go down one or two steps.
-/

namespace Roar.Grammar

/-! ## Where a parser stands -/

/-- The first lexeme on lines. -/
def firstLexeme : List Line → Lexeme
  | [] => .endOfInput
  | .atom p :: _ => p.lexeme
  | .comment _ :: lines => firstLexeme lines

/-- The tokens before the parser say what stands on the lines, and nothing was missing so far. -/
structure Parser.Sees (p : Parser) (lines : List Line) : Prop where
  tokens : (p.current :: p.ahead).map Token.view = views lines
  failed : p.failed = false
  errors : p.report.errors = 0

theorem exists_views (lines : List Line) :
    ∃ v vs, views lines = v :: vs ∧ v.lexeme = firstLexeme lines := by
  induction lines with
  | nil => exact ⟨_, _, rfl, rfl⟩
  | cons line lines ih =>
    cases line with
    | atom p => exact ⟨_, _, rfl, rfl⟩
    | comment text =>
      obtain ⟨v, vs, hviews, hv⟩ := ih
      exact ⟨v.push text, vs, by rw [views, hviews]; rfl, hv⟩

theorem isFault_firstLexeme (lines : List Line) : (firstLexeme lines).isFault = false := by
  induction lines with
  | nil => rfl
  | cons line lines ih =>
    cases line with
    | atom p => cases p <;> rfl
    | comment text => exact ih

theorem firstLexeme_sign_ne {s : Symbol} (h : s ≠ .openParen) (lines : List Line) :
    firstLexeme (sign s :: lines) ≠ .symbol .openParen := by
  simpa [firstLexeme, sign, Atom.lexeme] using h

/-- The token says what the atom does. -/
structure IsAtom (t : Token) (a : Atom) : Prop where
  lexeme : t.lexeme = a.lexeme
  text : t.text = a.text

/-- A token that is no fault leaves the report as it is. -/
theorem noteFault_eq {t : Token} (h : t.lexeme.isFault = false) (report : Report) :
    Parser.noteFault report t = report := by
  have hnone : t.diagnostic? = none := by
    unfold Token.diagnostic?
    split
    · rename_i hfault
      rw [hfault] at h
      cases h
    · rfl
  simp [Parser.noteFault, hnone]

namespace Parser.Sees

variable {p : Parser} {lines : List Line}

theorem lexeme (h : p.Sees lines) : p.current.lexeme = firstLexeme lines := by
  obtain ⟨v, vs, hviews, hv⟩ := exists_views lines
  have hfirst : p.current.view = v := by simpa [hviews] using congrArg List.head? h.tokens
  rw [← hv, ← hfirst]
  rfl

theorem isAtom {a : Atom} (h : p.Sees (.atom a :: lines)) : IsAtom p.current a := by
  have hfirst := congrArg List.head? h.tokens
  simp only [List.map_cons, views, List.head?_cons, Option.some.injEq] at hfirst
  exact ⟨congrArg View.lexeme hfirst, congrArg View.text hfirst⟩

theorem advance {a : Atom} (h : p.Sees (.atom a :: lines)) : p.advance.Sees lines := by
  obtain ⟨htokens, hfailed, herrors⟩ := h
  obtain ⟨current, ahead, failed, report⟩ := p
  have hahead : ahead.map Token.view = views lines := by simpa [views] using congrArg List.tail htokens
  obtain ⟨v, vs, hviews, hv⟩ := exists_views lines
  cases ahead with
  | nil => simp [hviews] at hahead
  | cons t ts =>
    have hfirst : t.view = v := by simpa [hviews] using congrArg List.head? hahead
    have ht : t.lexeme.isFault = false := by
      rw [show t.lexeme = firstLexeme lines by rw [← hv, ← hfirst]; rfl]
      exact isFault_firstLexeme lines
    refine ⟨hahead, hfailed, ?_⟩
    simpa only [Parser.advance, noteFault_eq ht] using herrors

end Parser.Sees

open Roar.Grammar.Parser (Sees)

namespace Parse

variable {α β : Type} {before after lines : List Line}

/-- Where a parser sees the lines `before`, the rule succeeds and leaves it before the lines
`after`. -/
def Accepts (rule : Parse α) (before after : List Line) (result : α → Prop) : Prop :=
  ∀ p : Parser, p.Sees before → ∃ a q, rule p = (some a, q) ∧ result a ∧ q.Sees after

theorem Accepts.bind {rule : Parse α} {next : α → Parse β} {result : α → Prop} {result' : β → Prop}
    (h : Accepts rule before lines result)
    (hnext : ∀ a, result a → Accepts (next a) lines after result') :
    Accepts (rule >>= next) before after result' := by
  intro p hp
  obtain ⟨a, q, hrule, ha, hq⟩ := h p hp
  obtain ⟨b, r, hb, hresult, hr⟩ := hnext a ha q hq
  refine ⟨b, r, ?_, hresult, hr⟩
  simp only [Bind.bind, hrule, hb]

theorem accepts_pure {a : α} {result : α → Prop} (h : result a) :
    Accepts (pure a) lines lines result :=
  fun p hp => ⟨a, p, rfl, h, hp⟩

/-! ### Single tokens -/

theorem accepts_look (lines : List Line) :
    Accepts current lines lines fun t => t.lexeme = firstLexeme lines :=
  fun p hp => ⟨p.current, p, rfl, hp.lexeme, hp⟩

theorem accepts_current (a : Atom) (lines : List Line) :
    Accepts current (.atom a :: lines) (.atom a :: lines) (IsAtom · a) :=
  fun p hp => ⟨p.current, p, rfl, hp.isAtom, hp⟩

theorem accepts_advance (a : Atom) (lines : List Line) :
    Accepts advance (.atom a :: lines) lines (IsAtom · a) :=
  fun p hp => ⟨p.current, p.advance, rfl, hp.isAtom, hp.advance⟩

theorem accepts_at? (sign : Symbol) (lines : List Line) :
    Accepts (at? sign) lines lines fun b => b = (firstLexeme lines == .symbol sign) :=
  fun p hp => ⟨_, p, rfl, by rw [hp.lexeme], hp⟩

theorem accepts_sound (lines : List Line) : Accepts sound lines lines fun _ => True :=
  fun p hp => ⟨(), p, by simp [sound, hp.failed], trivial, hp⟩

theorem accepts_expect (s : Symbol) (lines : List Line) :
    Accepts (expect s) (sign s :: lines) lines fun _ => True := by
  intro p hp
  refine ⟨(), p.advance, ?_, trivial, hp.advance⟩
  simp [expect, hp.isAtom.lexeme, Atom.lexeme]

theorem accepts_expectKeyword (k : Keyword) (lines : List Line) :
    Accepts (expectKeyword k) (word k :: lines) lines fun _ => True := by
  intro p hp
  refine ⟨(), p.advance, ?_, trivial, hp.advance⟩
  simp [expectKeyword, hp.isAtom.lexeme, Atom.lexeme]

theorem IsAtom.isWord {t : Token} {text : Bytes} (h : IsAtom t (.name text)) (text' : Bytes) :
    isWord t text' = (text == text') := by
  simp [Parse.isWord, h.lexeme, h.text, Atom.lexeme, Atom.text]

theorem accepts_expectWord (text : Bytes) (lines : List Line) :
    Accepts (expectWord text) (.atom (.name text) :: lines) lines fun _ => True := by
  intro p hp
  refine ⟨(), p.advance, ?_, trivial, hp.advance⟩
  simp [expectWord, IsAtom.isWord hp.isAtom]

theorem accepts_name (what : Expected) (text : Bytes) (lines : List Line) :
    Accepts (name what) (.atom (.name text) :: lines) lines fun t => t.text = text := by
  intro p hp
  refine ⟨p.current, p.advance, ?_, hp.isAtom.text, hp.advance⟩
  simp [name, hp.isAtom.lexeme, Atom.lexeme]

/-! ### Operators -/

/-- How strong the operator is that a lexeme is; none is zero. -/
def strength : Lexeme → Nat
  | .keyword .orWord => 1
  | .keyword .andWord => 2
  | .keyword .isWord | .symbol .equal | .symbol .notEqual | .symbol .less | .symbol .lessEqual
  | .symbol .greater | .symbol .greaterEqual => 3
  | .symbol .plus | .symbol .minus => 4
  | .symbol .star | .symbol .slash | .symbol .percent => 5
  | _ => 0

def Level.strength : Level → Nat
  | disjunction => 1
  | conjunction => 2
  | sum => 4
  | product => 5

theorem Level.strength_cases (level : Level) :
    level.strength = 1 ∨ level.strength = 2 ∨ level.strength = 4 ∨ level.strength = 5 := by
  cases level <;> decide

theorem Level.operator?_eq_none {level : Level} {x : Lexeme} (h : Parse.strength x ≠ level.strength) :
    level.operator? x = none := by
  unfold operator?
  split
  case h_8 => rfl
  all_goals exact absurd rfl h

theorem comparisonSign?_eq_none {x : Lexeme} (h : strength x ≠ 3) : comparisonSign? x = none := by
  unfold comparisonSign?
  split
  case h_7 => rfl
  all_goals exact absurd rfl h

/-- The operator of a level is one atom. -/
theorem exists_operator {level : Level} {op : BinaryOp} (hlevel : level.strength = op.strength)
    (hshl : op ≠ .shl) (hshr : op ≠ .shr) :
    ∃ a, op.atoms = [a] ∧ level.operator? a.lexeme = some op ∧ strength a.lexeme = op.strength ∧
      a.lexeme ≠ .symbol .openParen := by
  cases op
  case shl => exact absurd rfl hshl
  case shr => exact absurd rfl hshr
  all_goals
    refine ⟨_, rfl, ?_, rfl, fun hparen => by cases hparen⟩
    cases level <;> cases hlevel
    rfl

theorem exists_level (op : BinaryOp) : ∃ level : Level, level.strength = op.strength := by
  cases op
  case or => exact ⟨.disjunction, rfl⟩
  case and => exact ⟨.conjunction, rfl⟩
  case add | sub => exact ⟨.sum, rfl⟩
  all_goals exact ⟨.product, rfl⟩

theorem accepts_comparisonSign {a : Atom} {op : CompareOp} (h : comparisonSign? a.lexeme = some op)
    (lines : List Line) :
    Accepts comparisonOperator? (.atom a :: lines) lines fun result => result = some op := by
  rw [comparisonOperator?]
  refine (accepts_current a lines).bind fun t ht => ?_
  simp only [ht.lexeme, h]
  exact (accepts_advance a lines).bind fun _ _ => accepts_pure rfl

/-- The words of a phrase are told apart by the first. -/
theorem accepts_phraseWords {first second : Bytes} {op : CompareOp}
    (h : (first, second, op) ∈ Derives.comparisonPhrases) (lines : List Line) :
    Accepts comparisonPhrase (.atom (.name first) :: .atom (.name second) :: lines) lines
      fun result => result = op := by
  have hsecond : Accepts (do let _ ← advance; expectWord second; pure op : Parse CompareOp)
      (.atom (.name first) :: .atom (.name second) :: lines) lines fun result => result = op :=
    (accepts_advance _ _).bind fun _ _ => (accepts_expectWord second lines).bind fun _ _ =>
      accepts_pure rfl
  rw [comparisonPhrase]
  refine (accepts_current (.name first) _).bind fun u hu => ?_
  simp only [Derives.comparisonPhrases, List.mem_cons, Prod.mk.injEq, List.not_mem_nil,
    or_false] at h
  obtain ⟨rfl, rfl, rfl⟩ | ⟨rfl, rfl, rfl⟩ | ⟨rfl, rfl, rfl⟩ := h
  · rw [if_pos (by rw [IsAtom.isWord hu]; decide)]
    exact hsecond
  · rw [if_neg (by rw [IsAtom.isWord hu]; decide), if_pos (by rw [IsAtom.isWord hu]; decide)]
    exact hsecond
  · rw [if_neg (by rw [IsAtom.isWord hu]; decide), if_neg (by rw [IsAtom.isWord hu]; decide),
      if_pos (by rw [IsAtom.isWord hu]; decide)]
    exact hsecond

theorem accepts_comparisonPhrase {first second : String} {op : CompareOp}
    (h : (ascii first, ascii second, op) ∈ Derives.comparisonPhrases) (lines : List Line) :
    Accepts comparisonOperator? ((phrase first second).map .atom ++ lines) lines
      fun result => result = some op := by
  rw [comparisonOperator?]
  refine (accepts_current (.keyword .isWord) _).bind fun t ht => ?_
  simp only [ht.lexeme, Atom.lexeme, comparisonSign?, beq_self_eq_true, if_true]
  refine (accepts_advance _ _).bind fun _ _ => ?_
  refine (accepts_phraseWords h lines).bind fun result hresult => accepts_pure ?_
  rw [hresult]

/-- A comparison operator is read as it is written. -/
theorem accepts_comparisonOperator (op : CompareOp) (lines : List Line) :
    Accepts comparisonOperator? (op.atoms.map .atom ++ lines) lines fun result => result = some op := by
  cases op
  case isEqualTo | isLessThan | isGreaterThan => exact accepts_comparisonPhrase (by decide) lines
  all_goals exact accepts_comparisonSign rfl lines

/-- Without a comparison operator nothing is read. -/
theorem accepts_noComparison (h : strength (firstLexeme lines) ≠ 3) :
    Accepts comparisonOperator? lines lines fun result => result = none := by
  rw [comparisonOperator?]
  refine (accepts_look lines).bind fun t ht => ?_
  have his : (firstLexeme lines == .keyword .isWord) = false := by
    rw [beq_eq_false_iff_ne]
    intro his
    rw [his] at h
    exact h rfl
  simp only [ht, comparisonSign?_eq_none h, his]
  exact accepts_pure rfl

/-! ## Rules by strength -/

/-- The rule that reads expressions of this strength and stronger ones. -/
def ruleAt (n : Nat) : Nat → Parse Expr
  | 1 => chain n .disjunction
  | 2 => chain n .conjunction
  | 3 => comparison n
  | 4 => chain n .sum
  | 5 => chain n .product
  | 6 => unary n
  | _ => primary n

theorem ruleAt_seven (n : Nat) : ruleAt n 7 = primary n := rfl

theorem chain_eq_ruleAt (n : Nat) (level : Level) : chain n level = ruleAt n level.strength := by
  cases level <;> rfl

theorem operand_eq_ruleAt (n : Nat) (level : Level) :
    operand (n + 1) level = ruleAt n (level.strength + 1) := by
  cases level <;> rfl

/-- The same expression, perhaps at another place. -/
def SameExpr (e e' : Expr) : Prop := e'.unplaced = e.unplaced

/-- The atoms are accepted as the expression by the rule for strength `k`. -/
def Readable (k : Nat) (atoms : List Atom) (e : Expr) (more : List Line) : Prop :=
  ∀ n, 16 * atoms.length ≤ n + 2 * k + 1 →
    Accepts (ruleAt n k) (atoms.map .atom ++ more) more (SameExpr e)

/-- The rule for a level reads the atoms as the expression and goes on behind it. -/
def Leads (level : Level) (atoms : List Atom) (e : Expr) (more : List Line) : Prop :=
  ∀ n, 16 * atoms.length ≤ n + 2 * level.strength + 1 →
    ∀ p : Parser, p.Sees (atoms.map .atom ++ more) →
      ∃ m e' q, chain n level p = chainTail m level e' q ∧ n ≤ m + atoms.length ∧ SameExpr e e' ∧
        q.Sees more

section Rules

variable {k : Nat} {level : Level} {atoms left right : List Atom} {e e' : Expr} {more : List Line}

/-- An operand of the level comes first. -/
theorem Readable.leads (h : Readable (level.strength + 1) atoms e more) (hne : atoms ≠ []) :
    Leads level atoms e more := by
  intro n hn p hp
  have hlength := List.length_pos_iff.mpr hne
  have hstrength := level.strength_cases
  obtain ⟨n, rfl⟩ : ∃ m, n = m + 2 := ⟨n - 2, by omega⟩
  obtain ⟨e', q, hrule, he', hq⟩ := h n (by omega) p hp
  rw [← operand_eq_ruleAt] at hrule
  refine ⟨n + 1, e', q, ?_, by omega, he', hq⟩
  simp only [chain, Bind.bind, hrule]

/-- An operator of the level and an operand follow. -/
theorem Leads.binary {a : Atom} {op : BinaryOp} {loc : Location}
    (hleft : Leads level left e (.atom a :: (right.map .atom ++ more)))
    (hop : level.operator? a.lexeme = some op)
    (hright : Readable (level.strength + 1) right e' more) (hne : left ≠ []) :
    Leads level (left ++ a :: right) (.binary loc op e e') more := by
  intro n hn p hp
  have hlength := List.length_pos_iff.mpr hne
  have hstrength := level.strength_cases
  simp only [List.length_append, List.length_cons] at hn
  -- `m` is the fuel that is left behind the left operand: at most one step for each of its atoms
  -- was used
  obtain ⟨m, f, q, hchain, hm, hf, hq⟩ := hleft n (by omega) p (by simpa using hp)
  obtain ⟨m, rfl⟩ : ∃ i, m = i + 2 := ⟨m - 2, by omega⟩
  obtain ⟨f', r, hrule, hf', hr⟩ := hright m (by omega) q.advance hq.advance
  rw [← operand_eq_ruleAt] at hrule
  have hlexeme : q.current.lexeme = a.lexeme := hq.isAtom.lexeme
  refine ⟨m + 1, .binary q.current.location op f f', r, ?_, ?_, ?_, hr⟩
  · rw [hchain, chainTail, current_bind]
    simp only [hlexeme, hop, advance_bind]
    simp only [Bind.bind, hrule]
  · simp only [List.length_append, List.length_cons]
    omega
  · rw [SameExpr, Expr.unplaced, Expr.unplaced, hf, hf']

/-- No operator of the level follows. -/
theorem Leads.readable (h : Leads level atoms e more) (hne : atoms ≠ [])
    (hnext : strength (firstLexeme more) ≠ level.strength) :
    Readable level.strength atoms e more := by
  intro n hn p hp
  have hlength := List.length_pos_iff.mpr hne
  have hstrength := level.strength_cases
  obtain ⟨m, e', q, hchain, hm, he', hq⟩ := h n hn p hp
  obtain ⟨m, rfl⟩ : ∃ i, m = i + 1 := ⟨m - 1, by omega⟩
  rw [← chain_eq_ruleAt]
  refine ⟨e', q, ?_, he', hq⟩
  rw [hchain, chainTail, current_bind, hq.lexeme, level.operator?_eq_none hnext]
  rfl

/-- A rule reads what the next stronger rule reads, if no operator of its own follows. -/
theorem Readable.weaken (h : Readable (k + 1) atoms e more) (hne : atoms ≠ []) (hk : 1 ≤ k)
    (hk' : k ≤ 6) (hnext : strength (firstLexeme more) ≠ k)
    (hstart : k = 6 → unaryOperator? (firstLexeme (atoms.map .atom ++ more)) = none) :
    Readable k atoms e more := by
  -- four of the strengths are levels of binary operators and have the same rule
  have hlevel (level : Level) (hlevel : level.strength = k) : Readable k atoms e more := by
    subst hlevel
    exact (h.leads hne).readable hne hnext
  have hlength := List.length_pos_iff.mpr hne
  obtain rfl | rfl | rfl | rfl | rfl | rfl : k = 1 ∨ k = 2 ∨ k = 3 ∨ k = 4 ∨ k = 5 ∨ k = 6 := by omega
  · exact hlevel .disjunction rfl
  · exact hlevel .conjunction rfl
  · intro n hn
    obtain ⟨n, rfl⟩ : ∃ m, n = m + 1 := ⟨n - 1, by omega⟩
    rw [ruleAt, comparison]
    refine (h n (by omega)).bind fun e' he' => ?_
    refine (accepts_look more).bind fun t _ => ?_
    refine (accepts_noComparison hnext).bind fun result hresult => ?_
    refine (accepts_sound more).bind fun _ _ => ?_
    rw [hresult]
    exact accepts_pure he'
  · exact hlevel .sum rfl
  · exact hlevel .product rfl
  · intro n hn
    obtain ⟨n, rfl⟩ : ∃ m, n = m + 1 := ⟨n - 1, by omega⟩
    rw [ruleAt, unary]
    refine (accepts_look _).bind fun t ht => ?_
    simp only [ht, hstart rfl]
    exact h n (by omega)

/-- The same for all weaker rules. -/
theorem Readable.down {j : Nat} (h : Readable k atoms e more) (hne : atoms ≠ []) (hj : 1 ≤ j)
    (hjk : j ≤ k) (hk : k ≤ 7) (hnext : strength (firstLexeme more) < j)
    (hstart : k = 7 → unaryOperator? (firstLexeme (atoms.map .atom ++ more)) = none) :
    Readable j atoms e more := by
  induction k with
  | zero => omega
  | succ k ih =>
    obtain rfl | hlt : j = k + 1 ∨ j < k + 1 := by omega
    · exact h
    · refine ih (h.weaken hne (by omega) (by omega) (by omega) fun hk => hstart (by omega)) (by omega)
        (by omega) fun hk => ?_
      omega

/-- In parentheses every expression is primary. -/
theorem Readable.enclosed (h : Readable 1 atoms e (sign .closeParen :: more)) :
    Readable 7 (enclosed atoms) e more := by
  intro n hn
  rw [length_enclosed] at hn
  obtain ⟨n, rfl⟩ : ∃ m, n = m + 2 := ⟨n - 2, by omega⟩
  rw [ruleAt_seven, primary, map_enclosed_append]
  refine (accepts_current (.symbol .openParen) _).bind fun t ht => ?_
  simp only [ht.lexeme, Atom.lexeme]
  refine (accepts_advance _ _).bind fun _ _ => ?_
  refine (h n (by omega)).bind fun e' he' => ?_
  exact (accepts_expect .closeParen more).bind fun _ _ => accepts_pure he'

end Rules

end Parse

/-! ## Expressions -/

open Parse

theorem Expr.strength_bounds (e : Expr) : 1 ≤ e.strength ∧ e.strength ≤ 7 := by
  cases e with
  | binary _ op _ _ =>
    have hop : 1 ≤ op.strength ∧ op.strength ≤ 7 := by cases op <;> decide
    exact hop
  | _ =>
    simp only [Expr.strength]
    decide

/-- The expression is read by the rule for its strength where no operator as strong and no
parenthesis follows. It can be the left operand of an operator of its level. -/
structure Expr.Accepted (e : Expr) : Prop where
  nonempty : e.atoms ≠ []
  first (more : List Line) : startsExpression (firstLexeme (e.atoms.map .atom ++ more))
  start (h : e.strength = 7) (more : List Line) :
    unaryOperator? (firstLexeme (e.atoms.map .atom ++ more)) = none
  own {more : List Line} (hnext : Parse.strength (firstLexeme more) < e.strength)
    (hcall : firstLexeme more ≠ .symbol .openParen) : Readable e.strength e.atoms e more
  leads {level : Level} {more : List Line} (hlevel : level.strength = e.strength)
    (hnext : Parse.strength (firstLexeme more) ≤ e.strength)
    (hcall : firstLexeme more ≠ .symbol .openParen) : Leads level e.atoms e more

namespace Expr.Accepted

variable {e : Expr} {k : Nat} {more : List Line}

/-- In parentheses it is read by every rule. -/
theorem enclosed (h : e.Accepted) (hk : 1 ≤ k) (hk' : k ≤ 7)
    (hnext : Parse.strength (firstLexeme more) < k) : Readable k (enclosed e.atoms) e more := by
  obtain ⟨hlow, hhigh⟩ := e.strength_bounds
  have hclose : Parse.strength (firstLexeme (sign .closeParen :: more)) = 0 := rfl
  have hinner : Readable 1 e.atoms e (sign .closeParen :: more) :=
    (h.own (by omega) (firstLexeme_sign_ne (by decide) more)).down h.nonempty (by omega) hlow hhigh
      (by omega)
      fun hstrength => h.start hstrength _
  exact hinner.enclosed.down (by simp [Grammar.enclosed]) hk hk' (by omega) hnext fun _ => rfl

/-- As an operand it is read by the rule for the strength that it must have. -/
theorem written (h : e.Accepted) (hk : 1 ≤ k) (hk' : k ≤ 7)
    (hnext : Parse.strength (firstLexeme more) < k) (hcall : firstLexeme more ≠ .symbol .openParen) :
    Readable k (e.written k) e more := by
  obtain ⟨hlow, hhigh⟩ := e.strength_bounds
  by_cases hweak : e.strength < k
  · simp only [Expr.written, grouped, hweak, decide_true, if_true]
    exact h.enclosed hk hk' hnext
  · simp only [Expr.written, grouped, hweak, decide_false, Bool.false_eq_true, if_false]
    exact (h.own (by omega) hcall).down h.nonempty hk (by omega) hhigh hnext fun hstrength =>
      h.start hstrength more

theorem written_nonempty (h : e.Accepted) (k : Nat) : e.written k ≠ [] := by
  unfold Expr.written grouped
  split
  · simp [Grammar.enclosed]
  · exact h.nonempty

theorem written_first (h : e.Accepted) (k : Nat) (more : List Line) :
    startsExpression (firstLexeme ((e.written k).map .atom ++ more)) := by
  unfold Expr.written grouped
  split
  · rfl
  · exact h.first more

/-- As a left operand it is read by the rule that reads the whole. -/
theorem leads_written (h : e.Accepted) {level : Level}
    (hnext : Parse.strength (firstLexeme more) ≤ level.strength)
    (hcall : firstLexeme more ≠ .symbol .openParen) :
    Leads level (e.written level.strength) e more := by
  have hstrength := level.strength_cases
  by_cases hlevel : level.strength = e.strength
  · simp only [Expr.written, grouped, hlevel, Nat.lt_irrefl, decide_false, Bool.false_eq_true, if_false]
    exact h.leads hlevel (by omega) hcall
  · have hsame : e.written level.strength = e.written (level.strength + 1) := by
      have hiff : e.strength < level.strength ↔ e.strength < level.strength + 1 := by omega
      simp only [Expr.written, hiff]
    rw [hsame]
    exact (h.written (by omega) (by omega) (by omega) hcall).leads (h.written_nonempty _)

/-- An expression that is no binary one. -/
theorem of_own (hnonempty : e.atoms ≠ [])
    (hfirst : ∀ more, startsExpression (firstLexeme (e.atoms.map .atom ++ more)))
    (hstrength : e.strength = 3 ∨ e.strength = 6 ∨ e.strength = 7)
    (hstart : e.strength = 7 → ∀ more, unaryOperator? (firstLexeme (e.atoms.map .atom ++ more)) = none)
    (hown : ∀ more, Parse.strength (firstLexeme more) < e.strength →
      firstLexeme more ≠ .symbol .openParen → Readable e.strength e.atoms e more) : e.Accepted where
  nonempty := hnonempty
  first := hfirst
  start := hstart
  own := hown _
  leads {level} _ hlevel := by
    have hlevels := level.strength_cases
    omega

/-- An expression that is one atom. -/
theorem of_atom {a : Atom} (hstrength : e.strength = 7) (hatoms : e.atoms = [a])
    (hfirst : startsExpression a.lexeme) (hstart : unaryOperator? a.lexeme = none)
    (hown : ∀ n more, firstLexeme more ≠ .symbol .openParen →
      Accepts (primary (n + 1)) (.atom a :: more) more (SameExpr e)) : e.Accepted := by
  refine of_own (by simp [hatoms]) (fun more => ?_) (by omega) (fun _ more => ?_)
    fun more _ hcall n hn => ?_
  · rw [hatoms]
    exact hfirst
  · rw [hatoms]
    exact hstart
  · rw [hstrength, hatoms] at hn ⊢
    obtain ⟨n, rfl⟩ : ∃ m, n = m + 1 := ⟨n - 1, by simp at hn; omega⟩
    exact hown n more hcall

end Expr.Accepted

section Constructors

variable {loc : Location} {left right operand : Expr}

theorem Expr.number_accepted {value : Number} {text : Bytes}
    (h : value = Number.ofDecimal (Decimal.ofNumeral text)) :
    (Expr.number loc value text).Accepted := by
  refine .of_atom rfl rfl rfl rfl fun n more _ => ?_
  rw [primary]
  refine (accepts_current (.number text) more).bind fun t ht => ?_
  simp only [ht.lexeme, Atom.lexeme]
  refine (accepts_advance _ more).bind fun _ _ => accepts_pure ?_
  rw [SameExpr, Expr.unplaced, Expr.unplaced, h, ht.text]
  rfl

theorem Expr.string_accepted (value : Bytes) : (Expr.string loc value).Accepted := by
  refine .of_atom rfl rfl rfl rfl fun n more _ => ?_
  rw [primary]
  refine (accepts_current (.string value) more).bind fun t ht => ?_
  simp only [ht.lexeme, Atom.lexeme]
  exact (accepts_advance _ more).bind fun _ _ => accepts_pure rfl

theorem Expr.boolean_accepted (value : Bool) : (Expr.boolean loc value).Accepted := by
  refine .of_atom rfl rfl (by cases value <;> rfl) (by cases value <;> rfl) fun n more _ => ?_
  rw [primary]
  refine (accepts_current (.keyword _) more).bind fun t ht => ?_
  cases value with
  | true =>
    simp only [ht.lexeme, Atom.lexeme, if_true]
    exact (accepts_advance _ more).bind fun _ _ => accepts_pure rfl
  | false =>
    simp only [ht.lexeme, Atom.lexeme, Bool.false_eq_true, if_false]
    exact (accepts_advance _ more).bind fun _ _ => accepts_pure rfl

theorem Expr.identifier_accepted (name : Bytes) : (Expr.identifier loc name).Accepted := by
  refine .of_atom rfl rfl rfl rfl fun n more hcall => ?_
  rw [primary]
  refine (accepts_current (.name name) more).bind fun t ht => ?_
  simp only [ht.lexeme, Atom.lexeme]
  refine (accepts_advance _ more).bind fun _ _ => ?_
  refine (accepts_at? .openParen more).bind fun b hb => ?_
  rw [beq_false_of_ne hcall] at hb
  subst hb
  refine accepts_pure ?_
  rw [SameExpr, Expr.unplaced, Expr.unplaced, ht.text]
  rfl

theorem Expr.binary_accepted {op : BinaryOp} (hshl : op ≠ .shl) (hshr : op ≠ .shr)
    (hleft : left.Accepted) (hright : right.Accepted) : (Expr.binary loc op left right).Accepted := by
  have hleads {level : Level} (more : List Line) (hlevel : level.strength = op.strength)
      (hnext : Parse.strength (firstLexeme more) ≤ op.strength)
      (hcall : firstLexeme more ≠ .symbol .openParen) :
      Leads level (Expr.binary loc op left right).atoms (Expr.binary loc op left right) more := by
    obtain ⟨a, hatoms, hop, hstrength, hparen⟩ := exists_operator hlevel hshl hshr
    have hlevels := level.strength_cases
    have hatoms : (Expr.binary loc op left right).atoms =
        left.written level.strength ++ a :: right.written (level.strength + 1) := by
      simp only [Expr.atoms, Expr.written, hatoms, hlevel, List.append_assoc, List.cons_append,
        List.nil_append]
    rw [hatoms]
    refine Leads.binary (hleft.leads_written ?_ hparen) hop ?_ (hleft.written_nonempty _)
    · exact Nat.le_of_eq (hstrength.trans hlevel.symm)
    · exact hright.written (by omega) (by omega) (by omega) hcall
  have hnonempty : (Expr.binary loc op left right).atoms ≠ [] := by
    have hleft' := hleft.written_nonempty op.strength
    unfold Expr.written at hleft'
    simp [Expr.atoms, hleft']
  obtain ⟨level, hlevel⟩ := exists_level op
  exact
    { nonempty := hnonempty
      first := fun more => by
        have hfirst := hleft.written_first op.strength
        simp only [Expr.written] at hfirst
        simp only [Expr.atoms, List.map_append, List.append_assoc, hfirst]
      start := fun hstrength => by
        have hlevels := level.strength_cases
        exact absurd hstrength (by simp only [Expr.strength]; omega)
      own := fun {more} hnext hcall => by
        have hown := (hleads more hlevel (Nat.le_of_lt hnext) hcall).readable hnonempty
          (by rw [hlevel]; exact Nat.ne_of_lt hnext)
        rwa [hlevel] at hown
      leads := hleads _ }

theorem Expr.compare_accepted (op : CompareOp) (hleft : left.Accepted) (hright : right.Accepted) :
    (Expr.compare loc op left right).Accepted := by
  have hatoms : (Expr.compare loc op left right).atoms =
      left.written 4 ++ (op.atoms ++ right.written 4) := by
    simp only [Expr.atoms, Expr.written, List.append_assoc]
  refine .of_own ?_ (fun more => ?_) (.inl rfl) (fun h => by cases h) ?_
  · rw [hatoms]
    simp [hleft.written_nonempty 4]
  · simp only [hatoms, List.map_append, List.append_assoc, hleft.written_first]
  · intro more hnext hcall n hn
    have hoperator : Parse.strength (firstLexeme (op.atoms.map .atom ++
        ((right.written 4).map .atom ++ more))) = 3 ∧
        firstLexeme (op.atoms.map .atom ++ ((right.written 4).map .atom ++ more)) ≠
          .symbol .openParen := by
      cases op <;> exact ⟨rfl, nofun⟩
    have hlengths := List.length_pos_iff.mpr (hleft.written_nonempty 4)
    have hlengths' := List.length_pos_iff.mpr (hright.written_nonempty 4)
    rw [hatoms] at hn ⊢
    simp only [Expr.strength] at hn hnext ⊢
    simp only [List.length_append] at hn
    obtain ⟨n, rfl⟩ : ∃ m, n = m + 1 := ⟨n - 1, by omega⟩
    simp only [List.map_append, List.append_assoc]
    rw [ruleAt, comparison]
    refine (hleft.written (by omega) (by omega) (by omega) hoperator.2 n (by omega)).bind
      fun e he => ?_
    refine (accepts_look _).bind fun t _ => ?_
    refine (accepts_comparisonOperator op _).bind fun result hresult => ?_
    refine (accepts_sound _).bind fun _ _ => ?_
    rw [hresult]
    refine (hright.written (by omega) (by omega) (by omega) hcall n (by omega)).bind fun e' he' => ?_
    refine accepts_pure ?_
    rw [SameExpr, Expr.unplaced, Expr.unplaced, he, he']

theorem Expr.unary_accepted (op : UnaryOp) (hoperand : operand.Accepted) :
    (Expr.unary loc op operand).Accepted := by
  have hatoms : (Expr.unary loc op operand).atoms = op.atom :: operand.written 6 := rfl
  refine .of_own (by simp [hatoms]) (fun _ => by cases op <;> rfl) (.inr (.inl rfl))
    (fun h => by cases h) ?_
  intro more hnext hcall n hn
  have hoperator : unaryOperator? op.atom.lexeme = some op := by cases op <;> rfl
  rw [hatoms] at hn ⊢
  simp only [Expr.strength, List.length_cons] at hn hnext ⊢
  obtain ⟨n, rfl⟩ : ∃ m, n = m + 1 := ⟨n - 1, by omega⟩
  rw [ruleAt, Parse.unary, List.map_cons, List.cons_append]
  refine (accepts_current op.atom _).bind fun t ht => ?_
  simp only [ht.lexeme, hoperator]
  refine (accepts_advance _ _).bind fun _ _ => ?_
  refine (hoperand.written (by omega) (by omega) hnext hcall n (by omega)).bind fun e he => ?_
  refine accepts_pure ?_
  rw [SameExpr, Expr.unplaced, Expr.unplaced, he]

end Constructors

/-! ### Calls -/

/-- The same expressions, perhaps at other places. -/
def SameExprs (es es' : List Expr) : Prop := Expr.unplacedList es' = Expr.unplacedList es

/-- An expression, with no more behind it. -/
theorem Expr.Accepted.expression {e : Expr} (h : e.Accepted) {more : List Line} {n : Nat}
    (hn : 16 * e.atoms.length ≤ n + 1) (hnext : Parse.strength (firstLexeme more) = 0)
    (hcall : firstLexeme more ≠ .symbol .openParen) :
    Accepts (Parse.expression n) (e.atoms.map .atom ++ more) more (SameExpr e) := by
  obtain ⟨hlow, hhigh⟩ := e.strength_bounds
  have hlength := List.length_pos_iff.mpr h.nonempty
  obtain ⟨n, rfl⟩ : ∃ m, n = m + 1 := ⟨n - 1, by omega⟩
  exact (h.own (by omega) hcall).down h.nonempty (by omega) hlow hhigh (by omega)
    (fun hstrength => h.start hstrength more) n (by omega)

theorem accepts_argumentList {es : List Expr} (h : ∀ e ∈ es, e.Accepted) (hne : es ≠ [])
    {more : List Line} {n : Nat} (hn : 16 * (Expr.atomsList es).length ≤ n) :
    Accepts (argumentList n) ((Expr.atomsList es).map .atom ++ sign .closeParen :: more) more
      (SameExprs es) := by
  induction es generalizing n with
  | nil => exact absurd rfl hne
  | cons e es ih =>
    obtain ⟨he, hes⟩ := List.forall_mem_cons.mp h
    have hlength := List.length_pos_iff.mpr he.nonempty
    cases es with
    | nil =>
      simp only [Expr.atomsList] at hn ⊢
      obtain ⟨n, rfl⟩ : ∃ m, n = m + 1 := ⟨n - 1, by omega⟩
      rw [argumentList]
      refine (he.expression (by omega) rfl (firstLexeme_sign_ne (by decide) _)).bind fun e' he' => ?_
      refine (accepts_at? .comma _).bind fun b hb => ?_
      obtain rfl : b = false := hb
      refine (accepts_expect .closeParen more).bind fun _ _ => accepts_pure ?_
      simp only [SameExpr] at he'
      simp only [SameExprs, Expr.unplacedList, he']
    | cons f es =>
      have hatoms : (Expr.atomsList (e :: f :: es)).map .atom ++ sign .closeParen :: more =
          e.atoms.map .atom ++ sign .comma ::
            ((Expr.atomsList (f :: es)).map .atom ++ sign .closeParen :: more) := by
        simp [Expr.atomsList, sign]
      have hsize : (Expr.atomsList (e :: f :: es)).length =
          e.atoms.length + ((Expr.atomsList (f :: es)).length + 1) := by
        simp [Expr.atomsList]
      rw [hatoms]
      obtain ⟨n, rfl⟩ : ∃ m, n = m + 1 := ⟨n - 1, by omega⟩
      rw [argumentList]
      refine (he.expression (by omega) rfl (firstLexeme_sign_ne (by decide) _)).bind fun e' he' => ?_
      refine (accepts_at? .comma _).bind fun b hb => ?_
      obtain rfl : b = true := hb
      refine (accepts_advance _ _).bind fun _ _ => ?_
      refine (ih hes (by simp) (by omega)).bind fun es' hes' => accepts_pure ?_
      rw [SameExprs, Expr.unplacedList, he', hes']
      rfl

theorem accepts_arguments {es : List Expr} (h : ∀ e ∈ es, e.Accepted) {more : List Line} {n : Nat}
    (hn : 16 * (Expr.atomsList es).length < n) :
    Accepts (arguments n) ((Expr.atomsList es).map .atom ++ sign .closeParen :: more) more
      (SameExprs es) := by
  obtain ⟨n, rfl⟩ : ∃ m, n = m + 1 := ⟨n - 1, by omega⟩
  rw [arguments]
  refine (accepts_at? .closeParen _).bind fun b hb => ?_
  cases es with
  | nil =>
    obtain rfl : b = true := hb
    exact (accepts_advance _ _).bind fun _ _ => accepts_pure rfl
  | cons e es =>
    -- an argument does not begin with the closing parenthesis
    have hfirst : startsExpression (firstLexeme ((Expr.atomsList (e :: es)).map .atom ++
        sign .closeParen :: more)) := by
      have he := (h e (by simp)).first
      cases es with
      | nil => exact he _
      | cons f es =>
        simp only [Expr.atomsList, List.map_append, List.append_assoc]
        exact he _
    have hb' : b = false := by
      rw [hb, beq_eq_false_iff_ne]
      intro hclose
      rw [hclose] at hfirst
      cases hfirst
    subst hb'
    exact accepts_argumentList h (by simp) (by omega)

theorem Expr.call_accepted {loc : Location} {callee : Bytes} {args : List Expr}
    (h : ∀ e ∈ args, e.Accepted) : (Expr.call loc callee args).Accepted := by
  have hatoms : (Expr.call loc callee args).atoms =
      .name callee :: enclosed (Expr.atomsList args) := rfl
  have hstrength : (Expr.call loc callee args).strength = 7 := rfl
  refine .of_own (by simp [hatoms]) (fun _ => rfl) (.inr (.inr rfl)) (fun _ _ => rfl) ?_
  intro more hnext hcall n hn
  rw [hatoms, hstrength, List.length_cons, length_enclosed] at hn
  rw [hatoms, hstrength, List.map_cons, List.cons_append, map_enclosed_append]
  obtain ⟨n, rfl⟩ : ∃ m, n = m + 2 := ⟨n - 2, by omega⟩
  have harguments : Accepts (arguments (n + 1))
      ((Expr.atomsList args).map .atom ++ sign .closeParen :: more) more (SameExprs args) :=
    accepts_arguments h (by omega)
  rw [ruleAt_seven, primary]
  refine (accepts_current (.name callee) _).bind fun t ht => ?_
  simp only [ht.lexeme, Atom.lexeme]
  refine (accepts_advance _ _).bind fun _ _ => ?_
  refine (accepts_at? .openParen _).bind fun b hb => ?_
  obtain rfl : b = true := hb
  refine (accepts_advance _ _).bind fun _ _ => ?_
  refine harguments.bind fun es hes => accepts_pure ?_
  rw [SameExpr, Expr.unplaced, Expr.unplaced, hes, ht.text]
  rfl

mutual

theorem Expr.accepted (e : Expr) (h : e.Writable) : e.Accepted := by
  cases e with
  | number _ value text => exact Expr.number_accepted h.2
  | string _ value => exact Expr.string_accepted value
  | interpolated _ segments => exact h.elim
  | boolean _ value => exact Expr.boolean_accepted value
  | identifier _ name => exact Expr.identifier_accepted name
  | binary _ op left right =>
    obtain ⟨hshl, hshr, hleft, hright⟩ := h
    exact Expr.binary_accepted hshl hshr (left.accepted hleft) (right.accepted hright)
  | compare _ op left right =>
    exact Expr.compare_accepted op (left.accepted h.1) (right.accepted h.2)
  | unary _ op operand => exact Expr.unary_accepted op (operand.accepted h)
  | call _ callee args => exact Expr.call_accepted (Expr.acceptedList args h.2)

theorem Expr.acceptedList (es : List Expr) (h : Expr.WritableList es) : ∀ e ∈ es, e.Accepted := by
  match es with
  | [] => simp
  | e :: es => exact List.forall_mem_cons.mpr ⟨e.accepted h.1, Expr.acceptedList es h.2⟩

end

/-- An expression in a statement is read, whatever follows that is no operator. -/
theorem Expr.accepts_lines {e : Expr} (h : e.Writable) {more : List Line} {n : Nat}
    (hn : 16 * e.lines.length ≤ n + 1) (hnext : Parse.strength (firstLexeme more) = 0) :
    Accepts (Parse.expression n) (e.lines ++ more) more (SameExpr e) := by
  have hlength := length_enclosed e.atoms
  simp only [Expr.lines, List.length_map] at hn
  obtain ⟨n, rfl⟩ : ∃ m, n = m + 1 := ⟨n - 1, by omega⟩
  exact (e.accepted h).enclosed (Nat.le_refl 1) (by omega) (by omega) n (by omega)

/-- The same for a primary expression. -/
theorem Expr.accepts_primary {e : Expr} (h : e.Writable) {more : List Line} {n : Nat}
    (hn : 16 * e.lines.length ≤ n + 1) (hnext : Parse.strength (firstLexeme more) = 0) :
    Accepts (primary n) (e.lines ++ more) more (SameExpr e) := by
  simp only [Expr.lines, List.length_map] at hn
  exact (e.accepted h).enclosed (k := 7) (by omega) (by omega) (by omega) n (by omega)

end Roar.Grammar
