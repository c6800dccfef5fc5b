import Roar.Proofs.Grammar.Reading

/-!
# Expressions that are read are derived

The rules for expressions call each other with less and less fuel. Each of them reads what it derives
if all of them do with one less (`ExpressionRules.chain_succ` and the others), so they all do, however
much there is (`expressionRules`).

The four levels of binary operators share their rules, so `Level.Chain` and `Level.Operand` say which
part of the grammar a level is.
-/

namespace Roar.Grammar.Parse

open Roar.Grammar.Parser (At Near)

variable {p p' : Parser} {ts : List Token}

/-! ## Comparison operators -/

theorem comparisonSign?_eq_some {x : Lexeme} {op : CompareOp} (h : comparisonSign? x = some op) :
    (x, op) ∈ Derives.comparisonSigns ∧ isFinal x = false := by
  unfold comparisonSign? at h
  split at h <;> cases h <;> exact ⟨by decide, rfl⟩

/-- The two words of a phrase, once the first is known. -/
theorem words_read {first second : Bytes} {result op : CompareOp} (h : Near p ts)
    (hfirst : isWord p.current first)
    (hr : (do expectWord second; pure result : Parse CompareOp) p.advance = (some op, p')) :
    result = op ∧ ∃ u v rest, ts = u :: v :: rest ∧ Derives.IsName u first ∧
      Derives.IsName v second ∧ At p' rest := by
  obtain ⟨_, q, hsecond, hr⟩ := exists_of_bind hr
  cases hr
  obtain ⟨u, us, rfl, hu, hat⟩ := take_of_isWord h hfirst
  obtain ⟨v, rest, rfl, hv, hat⟩ := expectWord_reads hat.near hsecond
  exact ⟨rfl, u, v, rest, rfl, hu, hv, hat⟩

theorem comparisonPhrase_reads {op : CompareOp} (h : Near p ts)
    (hr : comparisonPhrase p = (some op, p')) :
    ∃ u v rest first second, ts = u :: v :: rest ∧ Derives.IsName u first ∧
      Derives.IsName v second ∧ (first, second, op) ∈ Derives.comparisonPhrases ∧ At p' rest := by
  simp only [comparisonPhrase, current_bind] at hr
  split at hr
  · rename_i hword
    obtain ⟨rfl, u, v, rest, hts, hu, hv, hat⟩ := words_read h hword hr
    exact ⟨u, v, rest, _, _, hts, hu, hv, by decide, hat⟩
  · split at hr
    · rename_i hword
      obtain ⟨rfl, u, v, rest, hts, hu, hv, hat⟩ := words_read h hword hr
      exact ⟨u, v, rest, _, _, hts, hu, hv, by decide, hat⟩
    · split at hr
      · rename_i hword
        obtain ⟨rfl, u, v, rest, hts, hu, hv, hat⟩ := words_read h hword hr
        exact ⟨u, v, rest, _, _, hts, hu, hv, by decide, hat⟩
      · cases hr

/-- A comparison operator is read, or the parser stays where it is. -/
theorem comparisonOperator?_reads {result : Option CompareOp} (h : At p ts)
    (hr : comparisonOperator? p = (some result, p')) :
    (result = none ∧ p' = p) ∨
      ∃ op t us rest, result = some op ∧ ts = t :: us ++ rest ∧ Derives.Comparator (t :: us) op ∧
        SameToken t p.current ∧ At p' rest := by
  simp only [comparisonOperator?, current_bind] at hr
  cases hsign : comparisonSign? p.current.lexeme with
  | some op =>
    simp only [hsign] at hr
    cases hr
    obtain ⟨hmem, hopen⟩ := comparisonSign?_eq_some hsign
    obtain ⟨t, rest, rfl, ht, hsame, hat⟩ := take_of_lexeme h.near rfl hopen
    rw [← ht] at hmem
    exact .inr ⟨op, t, [], rest, rfl, rfl, .sign hmem, hsame, hat⟩
  | none =>
    simp only [hsign] at hr
    split at hr
    · rename_i his
      rw [advance_bind] at hr
      obtain ⟨op, q, hphrase, hr⟩ := exists_of_bind hr
      cases hr
      obtain ⟨t, us, rfl, ht, hsame, hat⟩ := take_of_lexeme h.near (by simpa using his) rfl
      obtain ⟨u, v, rest, first, second, rfl, hu, hv, hmem, hat⟩ :=
        comparisonPhrase_reads hat.near hphrase
      exact .inr ⟨op, t, [u, v], rest, rfl, rfl, .phrase ht hu hv hmem, hsame, hat⟩
    · cases hr
      exact .inl ⟨rfl, rfl⟩

/-! ## Levels -/

/-- What the operands of a level with its operators between them derive. -/
def Level.Chain : Level → List Token → Expr → Prop
  | disjunction => Derives.Expression
  | conjunction => Derives.Conjunction
  | sum => Derives.Addition
  | product => Derives.Product

/-- What an operand of a level derives. -/
def Level.Operand : Level → List Token → Expr → Prop
  | disjunction => Derives.Conjunction
  | conjunction => Derives.Comparison
  | sum => Derives.Product
  | product => Derives.Unary

theorem Level.chain_operand {level : Level} {e : Expr} (h : level.Operand ts e) :
    level.Chain ts e := by
  cases level with
  | disjunction => exact .operand h
  | conjunction => exact .operand h
  | sum => exact .operand h
  | product => exact .operand h

theorem Level.isFinal_of_operator? {level : Level} {x : Lexeme} {op : BinaryOp}
    (h : level.operator? x = some op) : isFinal x = false := by
  unfold operator? at h
  split at h <;> cases h <;> rfl

theorem Level.chain_more {level : Level} {us : List Token} {t : Token} {op : BinaryOp}
    {left right : Expr} (hleft : level.Chain ts left) (hop : level.operator? t.lexeme = some op)
    (hright : level.Operand us right) :
    level.Chain (ts ++ t :: us) (.binary t.location op left right) := by
  unfold operator? at hop
  split at hop
  case h_8 => cases hop
  all_goals
    rename_i ht
    cases hop
    exact .more hleft (by rw [ht]; decide) hright

theorem unaryOperator?_eq_some {x : Lexeme} {op : UnaryOp} (h : unaryOperator? x = some op) :
    (x, op) ∈ Derives.unarySigns ∧ isFinal x = false := by
  unfold unaryOperator? at h
  split at h <;> cases h <;> exact ⟨by decide, rfl⟩

theorem textSegments_text (value : Bytes) : Derives.Text value (textSegments value) := by
  unfold textSegments
  split
  · rename_i hempty
    rw [hempty]
    exact .empty
  · rename_i hnonempty
    exact .text hnonempty

/-! ## Rules -/

/-- With so much fuel every rule for expressions reads what it derives. -/
structure ExpressionRules (n : Nat) : Prop where
  expression : Reads (expression n) Derives.Expression
  chain (level : Level) : Reads (chain n level) level.Chain
  operand (level : Level) : Reads (operand n level) level.Operand
  chainTail (level : Level) (left : Expr) :
    ReadsOn (chainTail n level left) fun us e =>
      ∀ ts, level.Chain ts left → level.Chain (ts ++ us) e
  comparison : Reads (comparison n) Derives.Comparison
  unary : Reads (unary n) Derives.Unary
  primary : Reads (primary n) Derives.Primary
  arguments : Reads (arguments n) (Ended Derives.Arguments)
  argumentList : Reads (argumentList n) (Ended Derives.ArgumentList)
  segments : ReadsOn (segments n) Derives.Segments
  embedded : ReadsOn (embedded n) Derives.Embedded

namespace ExpressionRules

variable {n : Nat}

theorem chain_succ (h : ExpressionRules n) (level : Level) :
    Reads (Parse.chain (n + 1) level) level.Chain := by
  intro p ts e p' hp hr
  rw [Parse.chain] at hr
  obtain ⟨left, q, hleft, hr⟩ := exists_of_bind hr
  obtain ⟨us, rest, rfl, hne, hus, hq⟩ := h.operand level hp hleft
  obtain ⟨vs, rest, rfl, hvs, hp'⟩ := h.chainTail level left hq hr
  exact ⟨us ++ vs, rest, by simp, by simp [hne], hvs us (Level.chain_operand hus), hp'⟩

theorem operand_succ (h : ExpressionRules n) (level : Level) :
    Reads (Parse.operand (n + 1) level) level.Operand := by
  cases level with
  | disjunction => exact h.chain .conjunction
  | conjunction => exact h.comparison
  | sum => exact h.chain .product
  | product => exact h.unary

theorem chainTail_succ (h : ExpressionRules n) (level : Level) (left : Expr) :
    ReadsOn (Parse.chainTail (n + 1) level left) fun us e =>
      ∀ ts, level.Chain ts left → level.Chain (ts ++ us) e := by
  intro p ts e p' hp hr
  simp only [Parse.chainTail, current_bind] at hr
  cases hop : level.operator? p.current.lexeme with
  | none =>
    simp only [hop] at hr
    cases hr
    exact ⟨[], ts, rfl, fun ts hts => by simpa using hts, hp⟩
  | some op =>
    simp only [hop, advance_bind] at hr
    obtain ⟨right, q, hright, hr⟩ := exists_of_bind hr
    obtain ⟨t, ts, rfl, ht, hsame, hat⟩ :=
      take_of_lexeme hp.near rfl (Level.isFinal_of_operator? hop)
    obtain ⟨us, rest, rfl, -, hus, hq⟩ := h.operand level hat.near hright
    obtain ⟨vs, rest, rfl, hvs, hp'⟩ := h.chainTail level _ hq hr
    refine ⟨t :: us ++ vs, rest, by simp, ?_, hp'⟩
    intro ts hts
    -- the operator and its right operand belong to what stands left of the rest
    rw [← ht] at hop
    have hleft := Level.chain_more hts hop hus
    rw [hsame.location] at hleft
    simpa using hvs _ hleft

theorem comparison_succ (h : ExpressionRules n) :
    Reads (Parse.comparison (n + 1)) Derives.Comparison := by
  intro p ts e p' hp hr
  rw [Parse.comparison] at hr
  obtain ⟨left, q, hleft, hr⟩ := exists_of_bind hr
  obtain ⟨us, rest, rfl, hne, hus, hq⟩ := h.chain .sum hp hleft
  rw [current_bind] at hr
  obtain ⟨result, q', hop, hchecked⟩ := exists_of_bind hr
  obtain ⟨_, q'', hsound, hresult⟩ := exists_of_bind hchecked
  obtain rfl := sound_eq hsound
  obtain ⟨rfl, rfl⟩ | ⟨op, t, vs, rest, rfl, rfl, hsign, ht, hq'⟩ :=
    comparisonOperator?_reads hq hop
  · cases hresult
    exact ⟨us, rest, rfl, hne, .operand hus, hq⟩
  · obtain ⟨right, q, hright, hr⟩ := exists_of_bind hresult
    cases hr
    obtain ⟨ws, rest, rfl, -, hws, hp'⟩ := h.chain .sum hq'.near hright
    rw [← ht.location]
    exact ⟨us ++ t :: vs ++ ws, rest, by simp, by simp, .compare hus hsign hws, hp'⟩

theorem unary_succ (h : ExpressionRules n) : Reads (Parse.unary (n + 1)) Derives.Unary := by
  intro p ts e p' hp hr
  simp only [Parse.unary, current_bind] at hr
  cases hop : unaryOperator? p.current.lexeme with
  | none =>
    simp only [hop] at hr
    obtain ⟨us, rest, rfl, hne, hus, hp'⟩ := h.primary hp hr
    exact ⟨us, rest, rfl, hne, .operand hus, hp'⟩
  | some op =>
    simp only [hop, advance_bind] at hr
    obtain ⟨operand, q, hoperand, hr⟩ := exists_of_bind hr
    cases hr
    obtain ⟨hmem, hopen⟩ := unaryOperator?_eq_some hop
    obtain ⟨t, ts, rfl, ht, hsame, hat⟩ := take_of_lexeme hp rfl hopen
    obtain ⟨us, rest, rfl, -, hus, hp'⟩ := h.unary hat.near hoperand
    rw [← ht] at hmem
    rw [← hsame.location]
    exact ⟨t :: us, rest, rfl, by simp, .sign hmem hus, hp'⟩

theorem primary_succ (h : ExpressionRules n) :
    Reads (Parse.primary (n + 1)) Derives.Primary := by
  intro p ts e p' hp hr
  simp only [Parse.primary, current_bind] at hr
  generalize hx : p.current.lexeme = x at hr
  split at hr
  · cases hr
    refine single_reads hp hx rfl fun t ht hsame => ?_
    rw [← hsame.location, ← hsame.text]
    exact .number ht
  · cases hr
    refine single_reads hp hx rfl fun t ht hsame => ?_
    rw [← hsame.location]
    exact .string ht
  · rw [advance_bind] at hr
    obtain ⟨segments, q, hsegments, hr⟩ := exists_of_bind hr
    cases hr
    obtain ⟨t, ts, rfl, ht, hsame, hat⟩ := take_of_lexeme hp hx rfl
    obtain ⟨us, rest, rfl, hus, hp'⟩ := h.segments hat hsegments
    rw [← hsame.location]
    exact ⟨t :: us, rest, rfl, by simp, .interpolated ht (textSegments_text _) hus, hp'⟩
  · cases hr
    refine single_reads hp hx rfl fun t ht hsame => ?_
    rw [← hsame.location]
    exact .yes ht
  · cases hr
    refine single_reads hp hx rfl fun t ht hsame => ?_
    rw [← hsame.location]
    exact .no ht
  · obtain ⟨t, ts, rfl, ht, hsame, hat⟩ := take_of_lexeme hp hx rfl
    rw [advance_bind, at?_bind] at hr
    split at hr
    · rename_i hparen
      rw [advance_bind] at hr
      obtain ⟨args, q, hargs, hr⟩ := exists_of_bind hr
      cases hr
      obtain ⟨opening, ts, rfl, hopening, -, hat⟩ :=
        take_of_lexeme hat.near (by simpa using hparen) rfl
      obtain ⟨us, rest, rfl, -, hus, hp'⟩ := h.arguments hat.near hargs
      obtain ⟨hinner, hclosing⟩ := hus
      rw [← hsame.location, ← hsame.text]
      exact ⟨_, rest, rfl, by simp, .call ht hopening hinner hclosing, hp'⟩
    · cases hr
      rw [← hsame.location, ← hsame.text]
      exact ⟨[t], ts, rfl, by simp, .name ht, hat⟩
  · rw [advance_bind] at hr
    obtain ⟨inner, q, hinner, hr⟩ := exists_of_bind hr
    obtain ⟨_, q', hclose, hr⟩ := exists_of_bind hr
    cases hr
    obtain ⟨opening, ts, rfl, hopening, -, hat⟩ := take_of_lexeme hp hx rfl
    obtain ⟨us, rest, rfl, -, hus, hq⟩ := h.expression hat.near hinner
    obtain ⟨closing, rest, rfl, hclosing, -, hp'⟩ := expect_reads hq.near hclose
    exact ⟨opening :: us ++ [closing], rest, by simp, by simp, .group hopening hus hclosing, hp'⟩
  · cases hr

theorem arguments_succ (h : ExpressionRules n) :
    Reads (Parse.arguments (n + 1)) (Ended Derives.Arguments) :=
  optionalList_reads h.argumentList .none fun _ _ => .some

theorem argumentList_succ (h : ExpressionRules n) :
    Reads (Parse.argumentList (n + 1)) (Ended Derives.ArgumentList) :=
  commaList_reads h.expression h.argumentList (fun _ _ => .one)
    fun _ _ _ _ _ hfirst hsign hrest => .more hfirst hsign hrest

theorem segments_succ (h : ExpressionRules n) :
    ReadsOn (Parse.segments (n + 1)) Derives.Segments := by
  intro p ts segments p' hp hr
  rw [Parse.segments] at hr
  obtain ⟨value, q, hvalue, hr⟩ := exists_of_bind hr
  obtain ⟨us, rest, rfl, hus, hq⟩ := h.embedded hp hvalue
  simp only [current_bind] at hr
  generalize hx : q.current.lexeme = x at hr
  split at hr
  · rw [advance_bind] at hr
    obtain ⟨more, q', hmore, hr⟩ := exists_of_bind hr
    cases hr
    obtain ⟨t, ts, rfl, ht, -, hat⟩ := take_of_lexeme hq.near hx rfl
    obtain ⟨vs, rest, rfl, hvs, hp'⟩ := h.segments hat hmore
    exact ⟨us ++ t :: vs, rest, by simp, .more hus ht (textSegments_text _) hvs, hp'⟩
  · cases hr
    obtain ⟨t, rest, rfl, ht, -, hp'⟩ := take_of_lexeme hq.near hx rfl
    exact ⟨us ++ [t], rest, by simp, .last hus ht (textSegments_text _), hp'⟩
  · cases hr

theorem embedded_succ (h : ExpressionRules n) :
    ReadsOn (Parse.embedded (n + 1)) Derives.Embedded := by
  intro p ts segments p' hp hr
  simp only [Parse.embedded, current_bind] at hr
  generalize hx : p.current.lexeme = x at hr
  split at hr
  · cases hr
    exact ⟨[], ts, rfl, .none, hp⟩
  · cases hr
    exact ⟨[], ts, rfl, .none, hp⟩
  · obtain ⟨value, q, hvalue, hr⟩ := exists_of_bind hr
    cases hr
    obtain ⟨us, rest, rfl, -, hus, hp'⟩ := h.expression hp.near hvalue
    exact ⟨us, rest, rfl, .value hus, hp'⟩

end ExpressionRules

theorem expressionRules : (n : Nat) → ExpressionRules n
  | 0 =>
    { expression := reads_stop _
      chain := fun _ => reads_stop _
      operand := fun _ => reads_stop _
      chainTail := fun _ _ => readsOn_stop _
      comparison := reads_stop _
      unary := reads_stop _
      primary := reads_stop _
      arguments := reads_stop _
      argumentList := reads_stop _
      segments := readsOn_stop _
      embedded := readsOn_stop _ }
  | n + 1 =>
    have h := expressionRules n
    { expression := h.chain .disjunction
      chain := h.chain_succ
      operand := h.operand_succ
      chainTail := h.chainTail_succ
      comparison := h.comparison_succ
      unary := h.unary_succ
      primary := h.primary_succ
      arguments := h.arguments_succ
      argumentList := h.argumentList_succ
      segments := h.segments_succ
      embedded := h.embedded_succ }

end Roar.Grammar.Parse
