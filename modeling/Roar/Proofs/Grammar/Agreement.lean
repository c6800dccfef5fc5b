import Roar.Proofs.Grammar.Moves

/-!
# Any two runs of a rule agree

Two runs of a rule agree if each has fuel for the tokens up to the first final one: sixteen units for
a token, and some for the rules that call each other without taking a token in between
(`Parse.Agree`). `expressionsAgree` and `statementsAgree` show it of all rules, by one induction on the
fuel for expressions and one for statements. The fuel that a parser gives to its rules is enough.
-/

namespace Roar.Grammar.Parse

open Roar.Grammar.Parser (Alike)

variable {α : Type} {n n' : Nat}

/-- The rules agree on parsers that are alike, if both have this much more fuel than sixteen units for
a token. -/
def Agree (least need n n' : Nat) (rule rule' : Parse α) : Prop :=
  ∀ ⦃d p q⦄, 16 * d + need ≤ n → 16 * d + need ≤ n' → Alike d p q →
    Outcome least d p (rule p) (rule' q)

/-! ## Expressions -/

theorem comparisonPhrase_outcome {d : Nat} {p q : Parser} (h : Alike d p q) :
    Outcome 0 d p (comparisonPhrase p) (comparisonPhrase q) := by
  have phrase (text : Bytes) (op : CompareOp) (hpassed : isFinal p.current.lexeme = false) :
      Outcome 0 d p ((do let _ ← advance; expectWord text; pure op : Parse CompareOp) p)
        ((do let _ ← advance; expectWord text; pure op : Parse CompareOp) q) := by
    refine .advance h hpassed fun e p' q' _ h' => ?_
    exact .bind (.expectWord h' text) fun _ _ _ _ _ _ _ h'' => .pure h''
  refine .current h ?_
  refine .ite (fun hword => phrase _ _ (Outcome.isFinal_of_isWord hword)) fun _ => ?_
  refine .ite (fun hword => phrase _ _ (Outcome.isFinal_of_isWord hword)) fun _ => ?_
  exact .ite (fun hword => phrase _ _ (Outcome.isFinal_of_isWord hword)) fun _ => .fail h _

theorem comparisonOperator?_outcome {d : Nat} {p q : Parser} (h : Alike d p q) :
    Outcome 0 d p (comparisonOperator? p) (comparisonOperator? q) := by
  refine .current h ?_
  cases hsign : comparisonSign? p.current.lexeme with
  | some op =>
    obtain ⟨sign, hx⟩ := comparisonSign?_eq_some hsign
    exact .advance h (by rw [hx]) fun _ _ _ _ h' => .pure h'
  | none =>
    refine .ite (fun hword => ?_) fun _ => .pure h
    refine .advance h (by rw [beq_iff_eq.mp hword]; rfl) fun _ p' q' _ h' => ?_
    exact .bind (comparisonPhrase_outcome h') fun _ _ _ _ _ _ _ h'' => .pure h''

/-- The fuel that the operands of a level need. -/
def Level.need : Level → Nat
  | disjunction => 10
  | conjunction => 8
  | sum => 5
  | product => 3

/-- The rules of expressions agree. -/
structure ExpressionsAgree (n n' : Nat) : Prop where
  expression : Agree 1 12 n n' (expression n) (expression n')
  chain (level : Level) : Agree 1 (level.need + 1) n n' (chain n level) (chain n' level)
  operand (level : Level) : Agree 1 level.need n n' (operand n level) (operand n' level)
  chainTail (level : Level) (left : Expr) :
    Agree 0 1 n n' (chainTail n level left) (chainTail n' level left)
  comparison : Agree 1 7 n n' (comparison n) (comparison n')
  unary : Agree 1 2 n n' (unary n) (unary n')
  primary : Agree 1 1 n n' (primary n) (primary n')
  arguments : Agree 0 14 n n' (arguments n) (arguments n')
  argumentList : Agree 0 13 n n' (argumentList n) (argumentList n')
  segments : Agree 0 14 n n' (segments n) (segments n')
  embedded : Agree 0 13 n n' (embedded n) (embedded n')

section

variable (ih : ExpressionsAgree n n')

include ih

theorem operand_agree (level : Level) :
    Agree 1 level.need (n + 1) (n' + 1) (operand (n + 1) level) (operand (n' + 1) level) := by
  intro d p q hn hn' h
  cases level with
  | disjunction => exact ih.chain .conjunction (Nat.le_of_succ_le_succ hn) (Nat.le_of_succ_le_succ hn') h
  | conjunction => exact ih.comparison (Nat.le_of_succ_le_succ hn) (Nat.le_of_succ_le_succ hn') h
  | sum => exact ih.chain .product (Nat.le_of_succ_le_succ hn) (Nat.le_of_succ_le_succ hn') h
  | product => exact ih.unary (Nat.le_of_succ_le_succ hn) (Nat.le_of_succ_le_succ hn') h

theorem chain_agree (level : Level) :
    Agree 1 (level.need + 1) (n + 1) (n' + 1) (chain (n + 1) level) (chain (n' + 1) level) := by
  intro d p q hn hn' h
  refine .bind_first (ih.operand level (by omega) (by omega) h) fun left k e p' q' hk he h' => ?_
  exact ih.chainTail level left (by omega) (by omega) h'

theorem chainTail_agree (level : Level) (left : Expr) :
    Agree 0 1 (n + 1) (n' + 1) (chainTail (n + 1) level left) (chainTail (n' + 1) level left) := by
  intro d p q hn hn' h
  refine .current h ?_
  cases hop : level.operator? p.current.lexeme with
  | none => exact .pure h
  | some op =>
    refine .advance h (Level.isFinal_of_operator? hop) fun e p' q' he h' => ?_
    have hneed : level.need ≤ 16 := by cases level <;> decide
    refine .bind (ih.operand level (by omega) (by omega) h') fun right k e' p'' q'' hk he' h'' => ?_
    exact ih.chainTail level _ (by omega) (by omega) h''

theorem comparison_agree :
    Agree 1 7 (n + 1) (n' + 1) (comparison (n + 1)) (comparison (n' + 1)) := by
  intro d p q hn hn' h
  have hsum : Level.sum.need = 5 := rfl
  refine .bind_first (ih.chain .sum (by omega) (by omega) h) fun left k e p₁ q₁ hk he h₁ => ?_
  refine .current h₁ ?_
  refine .bind (comparisonOperator?_outcome h₁) fun op j e₂ p₂ q₂ _ he₂ h₂ => ?_
  refine .bind (.sound h₂) fun _ i e₃ p₃ q₃ _ he₃ h₃ => ?_
  cases op with
  | none => exact .pure h₃
  | some op =>
    exact .bind (ih.chain .sum (by omega) (by omega) h₃) fun _ _ _ _ _ _ _ h₄ => .pure h₄

theorem unary_agree : Agree 1 2 (n + 1) (n' + 1) (unary (n + 1)) (unary (n' + 1)) := by
  intro d p q hn hn' h
  refine .current h ?_
  cases hop : unaryOperator? p.current.lexeme with
  | none => exact ih.primary (by omega) (by omega) h
  | some op =>
    obtain ⟨sign, hx⟩ := unaryOperator?_eq_some hop
    refine .advance_first h (by rw [hx]) fun e p' q' he h' => ?_
    exact .bind (ih.unary (by omega) (by omega) h') fun _ _ _ _ _ _ _ h'' => .pure h''

theorem primary_agree : Agree 1 1 (n + 1) (n' + 1) (primary (n + 1)) (primary (n' + 1)) := by
  intro d p q hn hn' h
  refine .current h ?_
  generalize hx : p.current.lexeme = x
  have hopen (hx' : isFinal x = false) : isFinal p.current.lexeme = false := by rw [hx, hx']
  cases x with
  | number value => exact .advance_first h (hopen rfl) fun _ _ _ _ h' => .pure h'
  | string value => exact .advance_first h (hopen rfl) fun _ _ _ _ h' => .pure h'
  | stringStart value =>
    refine .advance_first h (hopen rfl) fun e p' q' he h' => ?_
    exact .bind (ih.segments (by omega) (by omega) h') fun _ _ _ _ _ _ _ h'' => .pure h''
  | identifier =>
    refine .advance_first h (hopen rfl) fun e p' q' he h' => ?_
    refine .sign h' (fun hparen => ?_) (.pure h')
    refine .advance h' (by rw [hparen]; rfl) fun e' p'' q'' he' h'' => ?_
    exact .bind (ih.arguments (by omega) (by omega) h'') fun _ _ _ _ _ _ _ h₃ => .pure h₃
  | keyword word =>
    cases word
    case trueWord => exact .advance_first h (hopen rfl) fun _ _ _ _ h' => .pure h'
    case falseWord => exact .advance_first h (hopen rfl) fun _ _ _ _ h' => .pure h'
    all_goals exact .fail h _
  | symbol sign =>
    cases sign
    case openParen =>
      refine .advance_first h (hopen rfl) fun e p₁ q₁ he h₁ => ?_
      refine .bind (ih.expression (by omega) (by omega) h₁) fun inner k e₂ p₂ q₂ hk he₂ h₂ => ?_
      exact .bind (.expect h₂ _) fun _ _ _ _ _ _ _ h₃ => .pure h₃
    all_goals exact .fail h _
  | _ => exact .fail h _

theorem arguments_agree :
    Agree 0 14 (n + 1) (n' + 1) (arguments (n + 1)) (arguments (n' + 1)) := by
  intro d p q hn hn' h
  refine .sign h (fun hparen => ?_) (ih.argumentList (by omega) (by omega) h)
  exact .advance h (by rw [hparen]; rfl) fun _ _ _ _ h' => .pure h'

theorem argumentList_agree :
    Agree 0 13 (n + 1) (n' + 1) (argumentList (n + 1)) (argumentList (n' + 1)) := by
  intro d p q hn hn' h
  refine .bind (ih.expression (by omega) (by omega) h) fun arg k e p₁ q₁ hk he h₁ => ?_
  refine .sign h₁ (fun hcomma => ?_) ?_
  · refine .advance h₁ (by rw [hcomma]; rfl) fun e₂ p₂ q₂ he₂ h₂ => ?_
    exact .bind (ih.argumentList (by omega) (by omega) h₂) fun _ _ _ _ _ _ _ h₃ => .pure h₃
  · exact .bind (.expect h₁ _) fun _ _ _ _ _ _ _ h₂ => .pure h₂

theorem embedded_agree :
    Agree 0 13 (n + 1) (n' + 1) (embedded (n + 1)) (embedded (n' + 1)) := by
  intro d p q hn hn' h
  have hvalue : Outcome 0 d p ((do let value ← expression n; pure [.embedded value] :
        Parse (List Segment)) p)
      ((do let value ← expression n'; pure [.embedded value] : Parse (List Segment)) q) :=
    .bind (ih.expression (by omega) (by omega) h) fun _ _ _ _ _ _ _ h' => .pure h'
  refine .current h ?_
  cases p.current.lexeme with
  | stringMiddle _ => exact .pure h
  | stringEnd _ => exact .pure h
  | _ => exact hvalue

theorem segments_agree :
    Agree 0 14 (n + 1) (n' + 1) (segments (n + 1)) (segments (n' + 1)) := by
  intro d p q hn hn' h
  refine .bind (ih.embedded (by omega) (by omega) h) fun value k e p₁ q₁ _ he h₁ => ?_
  refine .current h₁ ?_
  generalize hx : p₁.current.lexeme = x
  cases x with
  | stringMiddle text =>
    refine .advance h₁ (by rw [hx]; rfl) fun e₂ p₂ q₂ he₂ h₂ => ?_
    exact .bind (ih.segments (by omega) (by omega) h₂) fun _ _ _ _ _ _ _ h₃ => .pure h₃
  | stringEnd text => exact .advance h₁ (by rw [hx]; rfl) fun _ _ _ _ h₂ => .pure h₂
  | _ => exact .fail h₁ _

end

/-- A run without fuel has too little. -/
theorem agree_of_zero {least need : Nat} {rule rule' : Parse α} (hzero : n = 0 ∨ n' = 0)
    (hneed : 0 < need) : Agree least need n n' rule rule' := by
  intro d p q hn hn' _
  omega

theorem Level.need_pos (level : Level) : 0 < level.need := by
  cases level <;> decide

theorem expressionsAgree_of_zero (h : n = 0 ∨ n' = 0) : ExpressionsAgree n n' where
  expression := agree_of_zero h (by decide)
  chain level := agree_of_zero h (Nat.succ_pos _)
  operand level := agree_of_zero h level.need_pos
  chainTail _ _ := agree_of_zero h (by decide)
  comparison := agree_of_zero h (by decide)
  unary := agree_of_zero h (by decide)
  primary := agree_of_zero h (by decide)
  arguments := agree_of_zero h (by decide)
  argumentList := agree_of_zero h (by decide)
  segments := agree_of_zero h (by decide)
  embedded := agree_of_zero h (by decide)

theorem expressionsAgree (n n' : Nat) : ExpressionsAgree n n' := by
  induction n generalizing n' with
  | zero => exact expressionsAgree_of_zero (.inl rfl)
  | succ n ih =>
    cases n' with
    | zero => exact expressionsAgree_of_zero (.inr rfl)
    | succ n' =>
      replace ih := ih n'
      exact {
        expression := fun d p q hn hn' h =>
          ih.chain .disjunction (Nat.le_of_succ_le_succ hn) (Nat.le_of_succ_le_succ hn') h
        chain := chain_agree ih
        operand := operand_agree ih
        chainTail := chainTail_agree ih
        comparison := comparison_agree ih
        unary := unary_agree ih
        primary := primary_agree ih
        arguments := arguments_agree ih
        argumentList := argumentList_agree ih
        segments := segments_agree ih
        embedded := embedded_agree ih }

/-! ## Statements -/

theorem paramList_agree (n n' : Nat) : Agree 0 1 n n' (paramList n) (paramList n') := by
  induction n generalizing n' with
  | zero => exact agree_of_zero (.inl rfl) (by decide)
  | succ n ih =>
    cases n' with
    | zero => exact agree_of_zero (.inr rfl) (by decide)
    | succ n' =>
      intro d p q hn hn' h
      refine .bind (.name h _) fun t k e p₁ q₁ hk he h₁ => ?_
      refine .sign h₁ (fun hcomma => ?_) ?_
      · refine .advance h₁ (by rw [hcomma]; rfl) fun e₂ p₂ q₂ he₂ h₂ => ?_
        exact .bind (ih n' (by omega) (by omega) h₂) fun _ _ _ _ _ _ _ h₃ => .pure h₃
      · exact .bind (.expect h₁ _) fun _ _ _ _ _ _ _ h₂ => .pure h₂

theorem params_agree (n n' : Nat) : Agree 0 1 n n' (params n) (params n') := by
  intro d p q hn hn' h
  refine .sign h (fun hparen => ?_) (paramList_agree n n' hn hn' h)
  exact .advance h (by rw [hparen]; rfl) fun _ _ _ _ h' => .pure h'

theorem expressionStatement_agree (n n' : Nat) :
    Agree 1 12 n n' (expressionStatement n) (expressionStatement n') := by
  intro d p q hn hn' h
  refine .current h ?_
  have ih := expressionsAgree n n'
  refine .bind_first (ih.expression hn hn' h) fun target k e p₁ q₁ hk he h₁ => ?_
  refine .sign h₁ (fun hassign => ?_) (.pure h₁)
  refine .advance h₁ (by rw [hassign]; rfl) fun e₂ p₂ q₂ he₂ h₂ => ?_
  exact .bind (ih.expression (by omega) (by omega) h₂) fun _ _ _ _ _ _ _ h₃ => .pure h₃

/-- The rules of statements agree. An arm is read only where its first word stands. -/
structure StatementsAgree (n n' : Nat) : Prop where
  statements : Agree 0 14 n n' (statements n) (statements n')
  block : Agree 1 1 n n' (block n) (block n')
  statement : Agree 1 13 n n' (statement n) (statement n')
  arm {d : Nat} {p q : Parser} (hn : 16 * d + 1 ≤ n) (hn' : 16 * d + 1 ≤ n') (h : Alike d p q)
    (hpassed : isFinal p.current.lexeme = false) : Outcome 1 d p (arm n p) (arm n' q)
  moreArms : Agree 0 2 n n' (moreArms n) (moreArms n')

section

variable (ih : StatementsAgree n n')

include ih

theorem statements_agree :
    Agree 0 14 (n + 1) (n' + 1) (statements (n + 1)) (statements (n' + 1)) := by
  intro d p q hn hn' h
  refine .takeComments h fun p₁ q₁ h₁ => ?_
  refine .current h₁ ?_
  refine .ite (fun _ => ?_) fun _ => ?_
  · refine .bind (ih.statement (by omega) (by omega) h₁) fun s k e p₂ q₂ hk he h₂ => ?_
    exact .bind (ih.statements (by omega) (by omega) h₂) fun _ _ _ _ _ _ _ h₃ => .pure h₃
  · exact .bind (.sound h₁) fun _ _ _ _ _ _ _ h₂ => .pure h₂

theorem block_agree : Agree 1 1 (n + 1) (n' + 1) (block (n + 1)) (block (n' + 1)) := by
  intro d p q hn hn' h
  refine .current h ?_
  refine .bind_first (.expect h _) fun _ k e p₁ q₁ hk he h₁ => ?_
  refine .bind (ih.statements (by omega) (by omega) h₁) fun body j e₂ p₂ q₂ _ _ h₂ => ?_
  exact .bind (.expect h₂ _) fun _ _ _ _ _ _ _ h₃ => .pure h₃

theorem arm_agree {d : Nat} {p q : Parser} (hn : 16 * d + 1 ≤ n + 1) (hn' : 16 * d + 1 ≤ n' + 1)
    (h : Alike d p q) (hpassed : isFinal p.current.lexeme = false) :
    Outcome 1 d p (arm (n + 1) p) (arm (n' + 1) q) := by
  refine .advance_first h hpassed fun e p₁ q₁ he h₁ => ?_
  refine .bind (.expect h₁ _) fun _ k e₂ p₂ q₂ hk he₂ h₂ => ?_
  refine .bind ((expressionsAgree n n').expression (by omega) (by omega) h₂)
    fun condition k e₃ p₃ q₃ hk he₃ h₃ => ?_
  refine .bind (.expect h₃ _) fun _ k e₄ p₄ q₄ hk he₄ h₄ => ?_
  refine .bind (ih.block (by omega) (by omega) h₄) fun body k e₅ p₅ q₅ hk he₅ h₅ => ?_
  exact .bind (ih.moreArms (by omega) (by omega) h₅) fun _ _ _ _ _ _ _ h₆ => .pure h₆

theorem moreArms_agree : Agree 0 2 (n + 1) (n' + 1) (moreArms (n + 1)) (moreArms (n' + 1)) := by
  intro d p q hn hn' h
  refine .current h ?_
  generalize hx : p.current.lexeme = x
  cases x with
  | keyword word =>
    cases word
    case elseWord => exact (ih.arm (by omega) (by omega) h (by rw [hx]; rfl)).mono (by decide)
    case otherwise =>
      refine .advance h (by rw [hx]; rfl) fun e p₁ q₁ he h₁ => ?_
      exact .bind (ih.block (by omega) (by omega) h₁) fun _ _ _ _ _ _ _ h₂ => .pure h₂
    all_goals exact .pure h
  | _ => exact .pure h

theorem statement_agree :
    Agree 1 13 (n + 1) (n' + 1) (statement (n + 1)) (statement (n' + 1)) := by
  intro d p q hn hn' h
  have ihe := expressionsAgree n n'
  have hvalue (x : Lexeme) :
      Outcome 1 d p ((if startsExpression x then expressionStatement n else fail .statement) p)
        ((if startsExpression x then expressionStatement n' else fail .statement) q) :=
    .ite (fun _ => expressionStatement_agree n n' (by omega) (by omega) h) fun _ => .fail h _
  refine .current h ?_
  generalize hx : p.current.lexeme = x
  have hopen (hx' : isFinal x = false) : isFinal p.current.lexeme = false := by rw [hx, hx']
  cases x with
  | keyword word =>
    cases word
    case roar =>
      refine .advance_first h (hopen rfl) fun e p₁ q₁ he h₁ => ?_
      exact .bind (ihe.expression (by omega) (by omega) h₁) fun _ _ _ _ _ _ _ h₂ => .pure h₂
    case ignite =>
      refine .advance_first h (hopen rfl) fun e p₁ q₁ he h₁ => ?_
      refine .bind (.name h₁ _) fun f k e₂ p₂ q₂ hk he₂ h₂ => ?_
      refine .bind (.expect h₂ _) fun _ k e₃ p₃ q₃ hk he₃ h₃ => ?_
      refine .bind (params_agree n n' (by omega) (by omega) h₃) fun params k e₄ p₄ q₄ _ he₄ h₄ => ?_
      exact .bind (ih.block (by omega) (by omega) h₄) fun _ _ _ _ _ _ _ h₅ => .pure h₅
    case serve =>
      refine .advance_first h (hopen rfl) fun e p₁ q₁ he h₁ => ?_
      exact .bind (ihe.expression (by omega) (by omega) h₁) fun _ _ _ _ _ _ _ h₂ => .pure h₂
    case prowl =>
      refine .advance_first h (hopen rfl) fun e p₁ q₁ he h₁ => ?_
      refine .bind (ihe.primary (by omega) (by omega) h₁) fun counter k e₂ p₂ q₂ hk he₂ h₂ => ?_
      refine .bind (.expectKeyword h₂ _) fun _ k e₃ p₃ q₃ hk he₃ h₃ => ?_
      refine .current h₃ ?_
      refine .bind (.expectKeyword h₃ _) fun _ k e₄ p₄ q₄ hk he₄ h₄ => ?_
      refine .bind (.expect h₄ _) fun _ k e₅ p₅ q₅ hk he₅ h₅ => ?_
      refine .bind (ihe.expression (by omega) (by omega) h₅) fun bound k e₆ p₆ q₆ hk he₆ h₆ => ?_
      refine .bind (.expect h₆ _) fun _ k e₇ p₇ q₇ hk he₇ h₇ => ?_
      exact .bind (ih.block (by omega) (by omega) h₇) fun _ _ _ _ _ _ _ h₈ => .pure h₈
    case ifWord =>
      exact .bind_first (ih.arm (by omega) (by omega) h (hopen rfl)) fun _ _ _ _ _ _ _ h₁ => .pure h₁
    case breakWord => exact .advance_first h (hopen rfl) fun _ _ _ _ h₁ => .pure h₁
    all_goals exact hvalue _
  | _ => exact hvalue _

end

theorem statementsAgree_of_zero (h : n = 0 ∨ n' = 0) : StatementsAgree n n' where
  statements := agree_of_zero h (by decide)
  block := agree_of_zero h (by decide)
  statement := agree_of_zero h (by decide)
  arm hn hn' _ _ := by omega
  moreArms := agree_of_zero h (by decide)

theorem statementsAgree (n n' : Nat) : StatementsAgree n n' := by
  induction n generalizing n' with
  | zero => exact statementsAgree_of_zero (.inl rfl)
  | succ n ih =>
    cases n' with
    | zero => exact statementsAgree_of_zero (.inr rfl)
    | succ n' =>
      replace ih := ih n'
      exact {
        statements := statements_agree ih
        block := block_agree ih
        statement := statement_agree ih
        arm := arm_agree ih
        moreArms := moreArms_agree ih }

theorem program_agree (n n' : Nat) : Agree 0 14 n n' (program n) (program n') := by
  intro d p q hn hn' h
  refine .current h ?_
  refine .bind ((statementsAgree n n').statements hn hn' h) fun body k e p₁ q₁ _ _ h₁ => ?_
  refine .current h₁ ?_
  exact .ite (fun _ => .pure h₁) fun _ => .fail h₁ _

end Roar.Grammar.Parse
