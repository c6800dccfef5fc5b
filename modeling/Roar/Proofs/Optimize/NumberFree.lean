import Roar.Proofs.Optimize.Outcome
import Roar.Proofs.Typing.Soundness

/-!
# Texts and truth values are simplified exactly

Numbers apart, no rule changes a value. An expression of texts and truth values that is well typed
(`Expr.NumberFree`) has a value of its type and makes no calls (`Expr.NumberFree.exists_value`). Its
parts are simplified first, and the rules then see parts that are number-free again, of the same
types and with the same values (`Keeps`): so the rules for numbers do not apply, `and` and `or` have
truth values for operands, and two expressions that say the same have one value
(`Expr.NumberFree.eval_of_same`).
-/

namespace Roar

open Optimize

mutual

/-- A well typed expression of texts and truth values: literals, strings with embedded expressions,
names, the `+` of strings, `and`, `or`, `!`, comparisons for equality, and for order of two strings.
Every name has a value of its type. -/
def Expr.NumberFree (values : Bytes → Value) : Expr → Prop
  | .string .. | .boolean .. => True
  | .interpolated _ segments => Segment.NumberFreeList values segments
  | .identifier id =>
    (id.type = .boolean ∨ id.type = .string) ∧ (values id.name).type = id.type
  | .binary _ op left right type =>
    left.NumberFree values ∧ right.NumberFree values ∧ (op = .add ∨ op = .and ∨ op = .or) ∧
      op.resultType left.type right.type = .ok type
  | .compare _ op left right =>
    left.NumberFree values ∧ right.NumberFree values ∧ op.accepts left.type right.type = true
  | .unary _ op operand type =>
    operand.NumberFree values ∧ op = .not ∧ op.resultType operand.type = .ok type
  | .number .. | .call .. | .range .. => False

def Segment.NumberFree (values : Bytes → Value) : Segment → Prop
  | .text _ => True
  | .embedded e => e.NumberFree values

def Segment.NumberFreeList (values : Bytes → Value) : List Segment → Prop
  | [] => True
  | s :: ss => s.NumberFree values ∧ Segment.NumberFreeList values ss

end

/-! ## Values -/

section Types

variable {values : Bytes → Value} {e left right : Expr} {loc : Location} {type : ValueType}

theorem Expr.NumberFree.type_eq : {e : Expr} → e.NumberFree values →
    e.type = .boolean ∨ e.type = .string
  | .string .., _ | .interpolated .., _ => .inr rfl
  | .boolean .., _ | .compare .., _ => .inl rfl
  | .identifier _, h => h.1
  | .unary .., h => by
    obtain ⟨-, rfl, ht⟩ := h
    simp only [UnaryOp.resultType] at ht
    split at ht <;> cases ht
    exact .inl rfl
  | .binary .., h => by
    obtain ⟨hl, hr, rfl | hop, ht⟩ := h
    · rcases hl.type_eq with hl | hl <;> rcases hr.type_eq with hr | hr <;>
        simp_all [BinaryOp.resultType, Expr.type]
    · exact .inl (BinaryOp.operands_boolean hop ht).1
  | .number .., h | .call .., h | .range .., h => h.elim

theorem Expr.NumberFree.type_ne_unknown (h : e.NumberFree values) : e.type ≠ .unknown := by
  rcases h.type_eq with h | h <;> rw [h] <;> decide

/-- The operands of `and` and `or` are truth values. -/
theorem Expr.NumberFree.operands_boolean {op : BinaryOp}
    (h : (Expr.binary loc op left right type).NumberFree values) (hop : op = .and ∨ op = .or) :
    type = .boolean ∧ left.type = .boolean ∧ right.type = .boolean := by
  obtain ⟨hl, hr, -, ht⟩ := h
  obtain ⟨rfl, hleft, hright⟩ := BinaryOp.operands_boolean hop ht
  exact ⟨rfl, hleft hl.type_ne_unknown, hright hr.type_ne_unknown⟩

end Types

section Values

variable {w : World} {e : Expr}

/-- An expression without calls always has the same value. -/
def Expr.Has (w : World) (e : Expr) (v : Value) : Prop := ∀ calls, e.eval w calls = (v, calls)

theorem Value.exists_boolean {v : Value} (h : v.type = .boolean) : ∃ b, v = .boolean b := by
  cases v with
  | boolean b => exact ⟨b, rfl⟩
  | _ => cases h

theorem Value.exists_string {v : Value} (h : v.type = .string) : ∃ s, v = .string s := by
  cases v with
  | string s => exact ⟨s, rfl⟩
  | _ => cases h

mutual

/-- A number-free expression has a value of its type. -/
theorem Expr.NumberFree.exists_value : {e : Expr} → e.NumberFree w.values →
    ∃ v, e.Has w v ∧ v.type = e.type
  | .string _ s, _ => ⟨.string s, fun _ => rfl, rfl⟩
  | .boolean _ b, _ => ⟨.boolean b, fun _ => rfl, rfl⟩
  | .identifier id, h => ⟨w.values id.name, fun _ => rfl, h.2⟩
  | .interpolated _ segments, h => by
    obtain ⟨t, ht⟩ := Segment.NumberFreeList.exists_text h
    exact ⟨.string t, fun calls => by rw [Expr.eval_interpolated, ht], rfl⟩
  | .binary loc op left right type, h => by
    obtain ⟨v, hv, hvt⟩ := h.1.exists_value
    obtain ⟨u, hu, hut⟩ := h.2.1.exists_value
    have ht := h.2.2.2
    rw [← hvt, ← hut] at ht
    have hvk : v.type ≠ .unknown := hvt ▸ h.1.type_ne_unknown
    have huk : u.type ≠ .unknown := hut ▸ h.2.1.type_ne_unknown
    cases hd : op.decidedBy v with
    | true =>
      refine ⟨v, fun calls => ?_, (BinaryOp.decided?_typed ht hvk hd).2⟩
      rw [Expr.eval_decided w calls loc right type (by rw [hv, hd]), hv]
    | false =>
      refine ⟨op.apply w.host v u, fun calls => ?_, BinaryOp.type_apply w.host ht hvk huk⟩
      rw [Expr.eval_binary w calls loc right type (by rw [hv, hd]), hv, hu]
  | .compare loc op left right, h => by
    obtain ⟨v, hv, -⟩ := h.1.exists_value
    obtain ⟨u, hu, -⟩ := h.2.1.exists_value
    exact ⟨.boolean (op.apply w.host v u), fun calls => by rw [Expr.eval_compare, hv, hu], rfl⟩
  | .unary loc op operand type, h => by
    obtain ⟨v, hv, hvt⟩ := h.1.exists_value
    have ht := h.2.2
    rw [← hvt] at ht
    refine ⟨op.apply w.host v, fun calls => by rw [Expr.eval_unary, hv], ?_⟩
    exact (UnaryOp.checked_typed w.host ht).2 (hvt ▸ h.1.type_ne_unknown)
  | .number .., h | .call .., h | .range .., h => h.elim

theorem Segment.NumberFreeList.exists_text : {ss : List Segment} →
    Segment.NumberFreeList w.values ss → ∃ t, ∀ calls, Segment.evalList w ss calls = (t, calls)
  | [], _ => ⟨[], fun _ => rfl⟩
  | .text t :: _, h => by
    obtain ⟨u, hu⟩ := h.2.exists_text
    exact ⟨t ++ u, fun calls => by rw [Segment.evalList_cons, Segment.eval, hu]⟩
  | .embedded e :: _, h => by
    obtain ⟨v, hv, -⟩ := Expr.NumberFree.exists_value h.1
    obtain ⟨u, hu⟩ := h.2.exists_text
    exact ⟨v.toText w.host ++ u, fun calls => by rw [Segment.evalList_cons, Segment.eval, hv, hu]⟩

end

end Values

/-! ## Expressions that say the same -/

section Same

variable {w : World}

mutual

/-- A number-free expression has the value of every one that says the same. Numbers are left out, as
those that are equal can differ in sign. -/
theorem Expr.NumberFree.eval_of_same : {a b : Expr} → a.NumberFree w.values → a.same b = true →
    b.eval w = a.eval w
  | .string _ x, b, _, h => by
    cases b <;> simp [Expr.same] at h
    rw [h]
    rfl
  | .boolean _ x, b, _, h => by
    cases b <;> simp [Expr.same] at h
    rw [h]
    rfl
  | .identifier x, b, _, h => by
    cases b <;> simp [Expr.same] at h
    funext calls
    rw [Expr.eval, Expr.eval, h]
  | .interpolated _ xs, b, ha, h => by
    cases b <;> simp [Expr.same] at h
    funext calls
    rw [Expr.eval_interpolated, Expr.eval_interpolated, Segment.NumberFreeList.eval_of_same ha h]
  | .binary _ op l r _, b, ha, h => by
    cases b <;> simp [Expr.same] at h
    obtain ⟨⟨rfl, hl⟩, hr⟩ := h
    funext calls
    rw [Expr.eval, Expr.eval, ha.1.eval_of_same hl, ha.2.1.eval_of_same hr]
  | .compare _ op l r, b, ha, h => by
    cases b <;> simp [Expr.same] at h
    obtain ⟨⟨rfl, hl⟩, hr⟩ := h
    funext calls
    rw [Expr.eval, Expr.eval, ha.1.eval_of_same hl, ha.2.1.eval_of_same hr]
  | .unary _ op x _, b, ha, h => by
    cases b <;> simp [Expr.same] at h
    obtain ⟨rfl, hx⟩ := h
    funext calls
    rw [Expr.eval, Expr.eval, ha.1.eval_of_same hx]
  | .number .., _, ha, _ | .call .., _, ha, _ | .range .., _, ha, _ => ha.elim

theorem Segment.NumberFree.eval_of_same : {s t : Segment} → s.NumberFree w.values →
    s.same t = true → t.eval w = s.eval w
  | .text _, t, _, h => by
    cases t <;> simp [Segment.same] at h
    rw [h]
  | .embedded e, t, hs, h => by
    cases t <;> simp [Segment.same] at h
    funext calls
    rw [Segment.eval, Segment.eval, Expr.NumberFree.eval_of_same hs h]

theorem Segment.NumberFreeList.eval_of_same : {xs ys : List Segment} →
    Segment.NumberFreeList w.values xs → Segment.sameList xs ys = true →
    Segment.evalList w ys = Segment.evalList w xs
  | [], ys, _, h => by
    cases ys <;> simp [Segment.sameList] at h
    rfl
  | x :: xs, ys, hx, h => by
    cases ys <;> simp [Segment.sameList] at h
    funext calls
    rw [Segment.evalList_cons, Segment.evalList_cons, hx.1.eval_of_same h.1, hx.2.eval_of_same h.2]

end

end Same

/-! ## What the rules keep -/

/-- What comes out is number-free again, and has the same type and the same value. -/
structure Keeps (w : World) (e s : Expr) : Prop where
  numberFree : s.NumberFree w.values
  type_eq : s.type = e.type
  eval_eq : s.eval w = e.eval w

section Rules

variable {w : World} {loc : Location} {left right s : Expr} {type : ValueType}

theorem Keeps.refl {e : Expr} (h : e.NumberFree w.values) : Keeps w e e := ⟨h, rfl, rfl⟩

theorem Keeps.trans {a b c : Expr} (h : Keeps w a b) (h' : Keeps w b c) : Keeps w a c :=
  ⟨h'.numberFree, h'.type_eq.trans h.type_eq, h'.eval_eq.trans h.eval_eq⟩

/-- A truth value beside another operand that is one gives a truth value. -/
theorem numberFree_decideWith (loc : Location) {other : Expr} (h : other.NumberFree w.values)
    (ht : other.type = .boolean) (neutral value : Bool) :
    (decideWith loc neutral value other).NumberFree w.values ∧
      (decideWith loc neutral value other).type = .boolean := by
  unfold decideWith
  split
  · exact ⟨h, ht⟩
  · exact ⟨trivial, rfl⟩

/-- A truth value on the right of `and` or `or` stands for the operator, if the left operand is a
truth value as well. -/
theorem ruleKeeps_truthRight {op : BinaryOp} (hop : op = .and ∨ op = .or) {c : Bool}
    (hc : left.Has w (.boolean c)) (lb : Location) (b : Bool) (calls : List Call) :
    RuleKeeps w op .truthRight left (.boolean lb b) calls := by
  refine ⟨b, rfl, ?_⟩
  rw [hc calls]
  rcases hop with rfl | rfl <;> cases b <;> cases c <;> simp [BinaryOp.decidedBy, Value.truthy]

/-- Of two operands that a string `+` joins, one is a string. -/
theorem ruleKeeps_join (he : (Expr.binary loc .add left right .string).NumberFree w.values)
    (calls : List Call) :
    RuleKeeps w .add .join left right calls := by
  obtain ⟨v, hv, hvt⟩ := he.1.exists_value
  obtain ⟨u, hu, hut⟩ := he.2.1.exists_value
  have ht := he.2.2.2
  rw [← hvt, ← hut] at ht
  change (∃ s, _ = Value.string s) ∨ ∃ s, _ = Value.string s
  rw [hv, hu]
  by_cases hs : v.type = .string
  · exact .inl (Value.exists_string hs)
  · refine .inr (Value.exists_string ?_)
    simp only [BinaryOp.resultType] at ht
    by_contra hne
    simp [hs, hne, ValueType.arithmetic] at ht
    split at ht
    · cases ht
    · split at ht <;> cases ht

/-- The rules for binary operators on number-free operands: those for number literals do not
apply. -/
theorem Optimize.Simplifies.keeps {op : BinaryOp} {rule : Rule}
    (h : Simplifies loc op left right type rule s)
    (he : (Expr.binary loc op left right type).NumberFree w.values) :
    Keeps w (.binary loc op left right type) s := by
  have hs := h
  cases h with
  | compute | zeroLeft | oneLeft | nothingLeft | shlLeft => exact False.elim he.1
  | zeroRight | oneRight | nothingRight | shlRight | shr | regroup => exact False.elim he.2.1
  | stay => exact .refl he
  | join =>
    refine ⟨trivial, rfl, ?_⟩
    funext calls
    exact ((eval_simplified_iff hs).mpr (ruleKeeps_join he calls)).symm
  | truthLeft hop =>
    obtain ⟨rfl, -, hr⟩ := he.operands_boolean hop
    obtain ⟨hnf, ht⟩ := numberFree_decideWith loc he.2.1 hr _ _
    refine ⟨hnf, ht, ?_⟩
    funext calls
    exact (eval_truthLeft hop _ _).symm
  | truthRight hop =>
    obtain ⟨rfl, hl, -⟩ := he.operands_boolean hop
    obtain ⟨hnf, ht⟩ := numberFree_decideWith loc he.1 hl _ _
    obtain ⟨v, hv, hvt⟩ := he.1.exists_value
    obtain ⟨c, rfl⟩ := Value.exists_boolean (hvt.trans hl)
    refine ⟨hnf, ht, ?_⟩
    funext calls
    exact ((eval_truthRight_iff hop _ _).mpr (ruleKeeps_truthRight hop hv _ _ calls)).symm

/-- A text or a truth value compares with itself as two operands that say the same do. -/
theorem CompareOp.apply_self (host : Host) {op : CompareOp} {v : Value}
    (hv : v.type = .boolean ∨ v.type = .string) (h : op.accepts v.type v.type = true) :
    op.apply host v v = compareSame op := by
  rcases hv with hv | hv
  · obtain ⟨b, rfl⟩ := Value.exists_boolean hv
    have heq : op.isEquality = true := by simpa [CompareOp.accepts, Value.type] using h
    rw [apply_isEquality host heq]
    unfold compareSame
    cases op <;> simp_all [Value.equals, CompareOp.canonical, CompareOp.isEquality]
  · obtain ⟨t, rfl⟩ := Value.exists_string hv
    rw [← compareWith_string]
    unfold compareSame compareWith
    cases op.canonical <;> simp

theorem compareKeeps_of_numberFree {op : CompareOp}
    (he : (Expr.compare loc op left right).NumberFree w.values) (calls : List Call) :
    CompareKeeps w op left right calls := by
  intro _ hsame
  obtain ⟨v, hv, hvt⟩ := he.1.exists_value
  obtain ⟨u, hu, hut⟩ := he.2.1.exists_value
  have huv : (u, calls) = (v, calls) := by
    rw [← hu calls, ← hv calls, he.1.eval_of_same hsame]
  obtain rfl := congrArg Prod.fst huv
  have haccepts := he.2.2
  rw [← hvt, ← hut] at haccepts
  rw [hv, hu]
  exact ⟨rfl, CompareOp.apply_self w.host (hvt ▸ he.1.type_eq) haccepts⟩

theorem keeps_simplifyCompare {op : CompareOp}
    (he : (Expr.compare loc op left right).NumberFree w.values) :
    Keeps w (.compare loc op left right) (simplifyCompare loc op left right) := by
  have heval : (simplifyCompare loc op left right).eval w =
      (Expr.compare loc op left right).eval w := by
    funext calls
    exact ((eval_simplifyCompare_iff op).mpr (compareKeeps_of_numberFree he calls)).symm
  rw [simplifyCompare_eq] at heval ⊢
  cases h : literalOutcome? op left right with
  | some outcome => exact ⟨trivial, rfl, by simpa only [h] using heval⟩
  | none =>
    simp only [h, Option.map_none, Option.getD_none] at heval ⊢
    by_cases hs : left.same right
    · rw [if_pos hs] at heval ⊢
      exact ⟨trivial, rfl, heval⟩
    · rw [if_neg hs]
      exact .refl he

/-- What `!` is applied to is a truth value, and so is what it gives. -/
theorem Expr.NumberFree.operand_boolean {operand : Expr}
    (h : (Expr.unary loc .not operand type).NumberFree w.values) :
    type = .boolean ∧ operand.type = .boolean := by
  obtain ⟨ho, -, ht⟩ := h
  exact UnaryOp.operand_boolean ht ho.type_ne_unknown

theorem keeps_simplifyUnary {op : UnaryOp} {operand : Expr}
    (he : (Expr.unary loc op operand type).NumberFree w.values) :
    Keeps w (.unary loc op operand type) (simplifyUnary loc op operand type) := by
  obtain rfl := he.2.1
  obtain ⟨rfl, ht⟩ := he.operand_boolean
  have heval (calls : List Call) (hk : UnaryKeeps w .not operand calls) :
      (simplifyUnary loc .not operand .boolean).eval w calls =
        (Expr.unary loc .not operand .boolean).eval w calls :=
    ((eval_simplifyUnary_iff .not).mpr hk).symm
  unfold simplifyUnary at *
  split at heval
  · exact False.elim he.1
  · exact ⟨trivial, rfl, funext fun calls => heval calls trivial⟩
  · rename_i l inner t
    obtain ⟨rfl, hi⟩ := Expr.NumberFree.operand_boolean he.1
    obtain ⟨v, hv, hvt⟩ := he.1.1.exists_value
    obtain ⟨b, rfl⟩ := Value.exists_boolean (hvt.trans hi)
    exact ⟨he.1.1, hi, funext fun calls => heval calls ⟨b, by rw [hv]⟩⟩
  · exact .refl he

end Rules

/-! ## Whole expressions -/

section Whole

variable {w : World}

theorem Segment.NumberFreeList.merge {ss : List Segment} (h : Segment.NumberFreeList w.values ss) :
    Segment.NumberFreeList w.values (Segment.merge ss) := by
  fun_induction Segment.merge ss with
  | case1 => exact h
  | case2 e rest ih => exact ⟨h.1, ih h.2⟩
  | case3 rest ih => exact ih h.2
  | case4 t rest ht u more hmore ih => exact ⟨trivial, (hmore ▸ ih h.2).2⟩
  | case5 t rest ht hmore ih => exact ⟨trivial, ih h.2⟩

theorem Segment.NumberFreeList.interpolate {ss : List Segment}
    (h : Segment.NumberFreeList w.values ss) (loc : Location) :
    (Expr.interpolate loc ss).NumberFree w.values := by
  unfold Expr.interpolate
  split
  · trivial
  · trivial
  · exact h.merge

/-- A string with simplified pieces of the same text. -/
theorem keeps_simplifyString {ss simplified : List Segment} (loc : Location)
    (h : Segment.NumberFreeList w.values simplified)
    (heval : Segment.evalList w simplified = Segment.evalList w ss) :
    Keeps w (.interpolated loc ss) (simplifyString loc ss simplified) where
  numberFree := by
    rcases simplifyString_cases loc ss simplified with hs | hs
    · rw [hs]
      exact h
    · rw [hs]
      exact h.interpolate loc
  type_eq := by
    rcases simplifyString_cases loc ss simplified with hs | hs
    · rw [hs]
      rfl
    · rw [hs, Expr.interpolate]
      split <;> rfl
  eval_eq := by
    funext calls
    rw [eval_simplifyString, heval, Expr.eval_interpolated]

theorem numberFree_simplifyEmbedded {value : Expr} (h : value.NumberFree w.values) :
    (simplifyEmbedded value).NumberFree w.values := by
  unfold simplifyEmbedded
  split
  · trivial
  · exact h

mutual

theorem Expr.NumberFree.keeps_optimize : {e : Expr} → e.NumberFree w.values → Keeps w e e.optimize
  | .string .., h | .boolean .., h | .identifier _, h => .refl h
  | .interpolated loc ss, h => by
    obtain ⟨hnf, heval⟩ := Segment.NumberFreeList.keeps_optimizeList h
    exact keeps_simplifyString loc hnf heval
  | .binary loc op left right type, h => by
    have hl := h.1.keeps_optimize
    have hr := h.2.1.keeps_optimize
    have hnode : Keeps w (.binary loc op left right type)
        (.binary loc op left.optimize right.optimize type) := by
      refine ⟨⟨hl.numberFree, hr.numberFree, h.2.2.1, ?_⟩, rfl, ?_⟩
      · rw [hl.type_eq, hr.type_eq]
        exact h.2.2.2
      · funext calls
        rw [Expr.eval, Expr.eval, hl.eval_eq, hr.eval_eq]
    exact hnode.trans ((simplifyBinary_simplifies ..).keeps hnode.numberFree)
  | .compare loc op left right, h => by
    have hl := h.1.keeps_optimize
    have hr := h.2.1.keeps_optimize
    have hnode : Keeps w (.compare loc op left right)
        (.compare loc op left.optimize right.optimize) := by
      refine ⟨⟨hl.numberFree, hr.numberFree, ?_⟩, rfl, ?_⟩
      · rw [hl.type_eq, hr.type_eq]
        exact h.2.2
      · funext calls
        rw [Expr.eval, Expr.eval, hl.eval_eq, hr.eval_eq]
    exact hnode.trans (keeps_simplifyCompare hnode.numberFree)
  | .unary loc op operand type, h => by
    have ho := h.1.keeps_optimize
    have hnode : Keeps w (.unary loc op operand type) (.unary loc op operand.optimize type) := by
      refine ⟨⟨ho.numberFree, h.2.1, ?_⟩, rfl, ?_⟩
      · rw [ho.type_eq]
        exact h.2.2
      · funext calls
        rw [Expr.eval, Expr.eval, ho.eval_eq]
    exact hnode.trans (keeps_simplifyUnary hnode.numberFree)
  | .number .., h | .call .., h | .range .., h => h.elim

theorem Segment.NumberFree.keeps_optimize : {s : Segment} → s.NumberFree w.values →
    s.optimize.NumberFree w.values ∧ s.optimize.eval w = s.eval w
  | .text _, h => ⟨h, rfl⟩
  | .embedded value, h => by
    have hv := Expr.NumberFree.keeps_optimize h
    refine ⟨numberFree_simplifyEmbedded hv.numberFree, ?_⟩
    funext calls
    rw [Segment.optimize, eval_simplifyEmbedded, Segment.eval, Segment.eval, hv.eval_eq]

theorem Segment.NumberFreeList.keeps_optimizeList : {ss : List Segment} →
    Segment.NumberFreeList w.values ss →
    Segment.NumberFreeList w.values (Segment.optimizeList ss) ∧
      Segment.evalList w (Segment.optimizeList ss) = Segment.evalList w ss
  | [], h => ⟨h, rfl⟩
  | s :: ss, h => by
    obtain ⟨hs, hse⟩ := h.1.keeps_optimize
    obtain ⟨hss, hsse⟩ := h.2.keeps_optimizeList
    refine ⟨⟨hs, hss⟩, ?_⟩
    funext calls
    rw [Segment.optimizeList, Segment.evalList_cons, Segment.evalList_cons, hse, hsse]

end

/-- A well typed expression of texts and truth values has a value of its type, and simplified it has
the same value. -/
theorem optimize_numberFree_exact {e : Expr} (he : e.NumberFree w.values) (calls : List Call) :
    ∃ v, v.type = e.type ∧ e.eval w calls = (v, calls) ∧ e.optimize.eval w calls = (v, calls) := by
  obtain ⟨v, hv, hvt⟩ := he.exists_value
  refine ⟨v, hvt, hv calls, ?_⟩
  rw [he.keeps_optimize.eval_eq]
  exact hv calls

end Whole

/-- Surroundings in which `s` is a text and every other name is true. -/
def labelledWorld : World :=
  { World.bare with
    values := fun name => if name = ascii "s" then .string (ascii "y") else .boolean true }

/-- `!!(b and true) == (-x$(true)- + b <= s)`. -/
def labelledExpr : Expr :=
  let b := Expr.identifier ⟨{}, ascii "b", .boolean, false⟩
  let s := Expr.identifier ⟨{}, ascii "s", .string, false⟩
  let label := Expr.interpolated {} [.text (ascii "x"), .embedded (.boolean {} true)]
  .compare {} .eq
    (.unary {} .not (.unary {} .not (.binary {} .and b (.boolean {} true) .boolean) .boolean)
      .boolean)
    (.compare {} .le (.binary {} .add label b .string) s)

theorem labelledExpr_exact :
    labelledExpr.NumberFree labelledWorld.values ∧ labelledExpr.optimize ≠ labelledExpr ∧
      ∃ v, v.type = .boolean ∧ labelledExpr.eval labelledWorld [] = (v, []) ∧
        labelledExpr.optimize.eval labelledWorld [] = (v, []) := by
  have hnf : labelledExpr.NumberFree labelledWorld.values := by
    refine ⟨⟨⟨⟨⟨.inl rfl, rfl⟩, trivial, .inr (.inl rfl), rfl⟩, rfl, rfl⟩, rfl, rfl⟩, ?_, rfl⟩
    exact ⟨⟨⟨trivial, trivial, trivial⟩, ⟨.inl rfl, rfl⟩, .inl rfl, rfl⟩, ⟨.inr rfl, rfl⟩, rfl⟩
  exact ⟨hnf, by decide +kernel, optimize_numberFree_exact hnf []⟩

end Roar
