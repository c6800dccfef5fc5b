import Roar.Optimize.Fold
import Roar.Proofs.Number.ReadsBack
import Roar.Proofs.Target.Reading

/-!
# Expressions can be told from their texts

Two expressions that are written in the same way say the same (`plain_eq_of_script_eq`): they differ
at most in what the output does not show (`Expr.plain`). The texts of their numbers tell these apart, as
those of finite numbers do (`plain_eq_of_same_text`). Every expression is read back from its text
(`Script.readExpr_script`), by induction on the length of the text: each part is written in fewer
bytes than the whole.

What is assumed of an expression (`Expr.Emittable`) is what the steps before the output see to: its
strings are put together by `Expr.interpolate`, its names are words that are not reserved, its
numbers are finite, and a range stands in the head of a loop only.
-/

namespace Roar

open Script

/-- An expression that can be written, its parts aside. -/
def Expr.Emittable : Expr → Prop
  | .number _ value => value.isFinite
  | .interpolated loc segments => ∃ pieces, Expr.interpolate loc pieces = .interpolated loc segments
  | .identifier id => IsName id.name
  | .call _ callee _ _ _ => IsName callee
  | .range .. => False
  | .string .. | .boolean .. | .binary .. | .compare .. | .unary .. => True

/-- The numbers among some expressions. -/
def numbersOf (nodes : List Expr) : List Number := nodes.filterMap Expr.number?

/-- Different numbers among some expressions have different texts, zeros aside. -/
def TextsApart (nodes : List Expr) : Prop :=
  ∀ x ∈ numbersOf nodes, ∀ y ∈ numbersOf nodes, x.isZero = false → y.isZero = false →
    x.text = y.text → x = y

instance (nodes : List Expr) : Decidable (TextsApart nodes) :=
  inferInstanceAs (Decidable (∀ x ∈ numbersOf nodes, ∀ y ∈ numbersOf nodes, _))

theorem mem_numbersOf {nodes : List Expr} {x : Number} :
    x ∈ numbersOf nodes ↔ ∃ loc, Expr.number loc x ∈ nodes := by
  unfold numbersOf
  rw [List.mem_filterMap]
  constructor
  · rintro ⟨e, he, hx⟩
    cases e with
    | number loc y =>
      obtain ⟨rfl⟩ := hx
      exact ⟨loc, he⟩
    | _ => simp [Expr.number?] at hx
  · rintro ⟨loc, he⟩
    exact ⟨_, he, rfl⟩

namespace Script

/-! ## The values of numerals -/

/-- The value of a text among those of some numbers. -/
def valueIn (numbers : List Number) (text : Bytes) : Number :=
  ((numbers.find? (·.text == text)).getD (.zero false)).withoutZeroSign

/-- The nodes of an expression can be written, and the values of its numerals are right. -/
structure Readable (value : Bytes → Number) (nodes : List Expr) : Prop where
  emittable : ∀ e ∈ nodes, e.Emittable
  numeral : ∀ x ∈ numbersOf nodes, value x.text = x.withoutZeroSign

theorem Readable.mono {value : Bytes → Number} {nodes parts : List Expr}
    (h : Readable value nodes) (hparts : parts ⊆ nodes) : Readable value parts where
  emittable e he := h.emittable e (hparts he)
  numeral x hx := by
    obtain ⟨loc, hmem⟩ := mem_numbersOf.mp hx
    exact h.numeral x (mem_numbersOf.mpr ⟨loc, hparts hmem⟩)

theorem Readable.operands {value : Bytes → Number} {e left right : Expr}
    (h : Readable value (e :: (left.nodes ++ right.nodes))) :
    Readable value left.nodes ∧ Readable value right.nodes :=
  ⟨h.mono fun _ hx => List.mem_cons_of_mem _ (List.mem_append_left _ hx),
    h.mono fun _ hx => List.mem_cons_of_mem _ (List.mem_append_right _ hx)⟩

/-- The values of the texts of some numbers are these numbers, if their texts tell them apart. -/
theorem readable_valueIn {nodes : List Expr} (hnodes : ∀ e ∈ nodes, e.Emittable)
    (hapart : TextsApart nodes) : Readable (valueIn (numbersOf nodes)) nodes where
  emittable := hnodes
  numeral x hx := by
    have hfinite : ∀ y ∈ numbersOf nodes, y.isFinite := by
      intro y hy
      obtain ⟨loc, hmem⟩ := mem_numbersOf.mp hy
      exact hnodes _ hmem
    unfold valueIn
    cases hfind : (numbersOf nodes).find? (·.text == x.text) with
    | none => exact absurd (beq_self_eq_true x.text) (List.find?_eq_none.mp hfind x hx)
    | some y =>
      have hy : y ∈ numbersOf nodes := List.mem_of_find?_eq_some hfind
      have hfound := List.find?_some hfind
      have htext : y.text = x.text := beq_iff_eq.mp hfound
      exact Number.withoutZeroSign_eq_of_text (hfinite y hy) (hfinite x hx) (hapart y hy x hx) htext

/-! ## Reading back -/

private theorem merged_of_interpolate {loc : Location} {pieces segments : List Segment}
    (h : Expr.interpolate loc pieces = .interpolated loc segments) : Merged segments := by
  have hmerged := merged_merge pieces
  unfold Expr.interpolate at h
  split at h
  · exact Expr.noConfusion h
  · exact Expr.noConfusion h
  · obtain ⟨-, rfl⟩ := Expr.interpolated.inj h
    exact hmerged

variable {value : Bytes → Number}

/-- The first byte of an expression that can be read says what kind it is of. -/
theorem Readable.opens {e : Expr} (h : Readable value e.nodes) : Opens value e := by
  have he := h.emittable e (Expr.self_mem_nodes e)
  cases e with
  | number loc x =>
    exact .inl ⟨loc, x, rfl, he, h.numeral x (mem_numbersOf.mpr ⟨loc, List.mem_cons_self⟩)⟩
  | string | interpolated | binary | compare => exact .inr ⟨_, _, rfl, rfl⟩
  | unary loc op operand type =>
    obtain ⟨cs, hcs⟩ := head_prefixScript op (operand.script {})
    exact .inr ⟨_, cs, hcs, rfl⟩
  | boolean loc b => cases b <;> exact .inr ⟨_, _, rfl, rfl⟩
  | identifier id =>
    obtain ⟨c, cs, hcs, hc⟩ :=
      head_spelled (id.isFunction && builtinNames.contains id.name) he.word
    exact .inr ⟨c, cs, hcs, by rw [isOpening, hc, Bool.or_true]⟩
  | call loc callee args type builtin =>
    obtain ⟨c, cs, hcs, hc⟩ := head_spelled builtin he.word
    have hscript := script_call_append loc callee args type builtin []
    rw [List.append_nil, hcs] at hscript
    exact .inr ⟨c, _, hscript, by rw [isOpening, hc, Bool.or_true]⟩
  | range => exact he.elim

/-- Every expression is read back from its text, whatever may follow it. -/
theorem readExpr_script {e : Expr} {n : Nat} (h : Readable value e.nodes)
    (hn : (e.script {}).length ≤ n) : Reads (readExpr value n) e := by
  induction n generalizing e with
  | zero =>
    obtain ⟨c, cs, hc, -⟩ := h.opens.head
    rw [hc] at hn
    exact absurd hn (Nat.not_succ_le_zero _)
  | succ n ih =>
    have he := h.emittable e (Expr.self_mem_nodes e)
    cases e with
    | number loc x =>
      exact reads_number loc n _ he (h.numeral x (mem_numbersOf.mpr ⟨loc, List.mem_cons_self⟩))
    | string loc s =>
      have hlength := congrArg List.length (script_string_append {} loc s [])
      have hbytes := length_le_flatMap_quotedByte s
      simp only [List.append_nil, List.length_cons, List.length_append, List.length_nil] at hlength
      exact reads_string loc (by omega)
    | boolean loc b => exact reads_boolean loc b
    | identifier id => exact reads_identifier id he
    | interpolated loc segments =>
      obtain ⟨pieces, hpieces⟩ := he
      have hlength := congrArg List.length (script_interpolated_append {} loc segments [])
      simp only [List.append_nil, List.length_cons, List.length_append, List.length_nil] at hlength
      refine reads_interpolated loc (merged_of_interpolate hpieces) (fun e hmem => ?_) (by omega)
      have hpart := length_script_le_of_embedded hmem
      exact ih (h.mono (List.subset_cons_of_subset _ (Segment.nodes_subset_nodesList hmem)))
        (by omega)
    | binary loc op left right type =>
      rw [Expr.script, length_infixScript] at hn
      obtain ⟨hleft, hright⟩ := Readable.operands h
      exact reads_binary loc op type n hleft.opens (ih hleft (by omega)) (ih hright (by omega))
    | compare loc op left right =>
      rw [Expr.script, length_infixScript] at hn
      obtain ⟨hleft, hright⟩ := Readable.operands h
      exact reads_compare loc op n hleft.opens (ih hleft (by omega)) (ih hright (by omega))
    | unary loc op operand type =>
      have hlength := length_lt_prefixScript op (operand.script {})
      have hoperand : Readable value operand.nodes := h.mono (List.subset_cons_self _ _)
      rw [Expr.script] at hn
      exact reads_unary loc op type n hoperand.opens (ih hoperand (by omega))
    | call loc callee args type builtin =>
      have hlength := congrArg List.length (script_call_append loc callee args type builtin [])
      have hcount := length_le_join args
      obtain ⟨c, cs, hcs, -⟩ := head_spelled builtin he.word
      simp only [hcs, List.append_nil, List.length_cons, List.length_append,
        List.length_nil] at hlength
      refine reads_call loc type builtin he.word (fun e hmem => ?_) (by omega)
      have harg : Readable value e.nodes :=
        h.mono (List.subset_cons_of_subset _ (Expr.nodes_subset_nodesList hmem))
      have hpart := length_script_le_join hmem
      exact ⟨harg.opens, ih harg (by omega)⟩
    | range => exact he.elim

/-- Two expressions whose text is read back as both of them say the same. -/
theorem Readable.plain_eq {value : Bytes → Number} {a b : Expr}
    (hreadable : Readable value (a.nodes ++ b.nodes)) (h : a.script {} = b.script {}) :
    a.plain = b.plain := by
  have hread := readExpr_script (hreadable.mono (List.subset_append_left ..)) (Nat.le_refl _) []
    closes_nil
  have hread' := readExpr_script (hreadable.mono (List.subset_append_right ..)) (Nat.le_refl _) []
    closes_nil
  rw [← h, hread] at hread'
  exact congrArg Prod.fst (Option.some.inj hread')

end Script

/-- **Unique reading.** Two expressions with the same text in the output say the same: they are one
tree up to places, types, the marks of functions, the words of comparison phrases and the signs of
zeros. -/
theorem plain_eq_of_script_eq {a b : Expr} (ha : ∀ e ∈ a.nodes, e.Emittable)
    (hb : ∀ e ∈ b.nodes, e.Emittable) (hnumbers : TextsApart (a.nodes ++ b.nodes))
    (h : a.script {} = b.script {}) : a.plain = b.plain :=
  (readable_valueIn (List.forall_mem_append.mpr ⟨ha, hb⟩) hnumbers).plain_eq h

/-- Finite numbers are always told apart by their texts. -/
theorem textsApart_of_emittable {nodes : List Expr} (hnodes : ∀ e ∈ nodes, e.Emittable) :
    TextsApart nodes := by
  have hfinite (x : Number) (hx : x ∈ numbersOf nodes) : x.isFinite := by
    obtain ⟨loc, hmem⟩ := mem_numbersOf.mp hx
    exact hnodes _ hmem
  exact fun x hx y hy _ hzero htext => Number.text_inj (hfinite x hx) (hfinite y hy) hzero htext

/-- Unique reading, with nothing assumed of the texts of numbers. -/
theorem plain_eq_of_same_text {a b : Expr} (ha : ∀ e ∈ a.nodes, e.Emittable)
    (hb : ∀ e ∈ b.nodes, e.Emittable) (h : a.script {} = b.script {}) : a.plain = b.plain := by
  have hnodes := List.forall_mem_append.mpr ⟨ha, hb⟩
  exact (readable_valueIn hnodes (textsApart_of_emittable hnodes)).plain_eq h

/-- A comparison whose places, words, marks and zero can be chosen. -/
def markedExpr (loc : Location) (op : CompareOp) (mark : Bool) : Expr :=
  .compare loc op
    (.unary loc .neg (.number loc (.finite true Number.one (by decide +kernel))) .number)
    (.call loc (ascii "floor")
      [.interpolated loc
          [.text (ascii "$"), .embedded (.identifier ⟨loc, ascii "x", .number, mark⟩)],
        .number loc (.zero mark)] .number true)

theorem emittable_markedExpr (loc : Location) (op : CompareOp) (mark : Bool) :
    ∀ e ∈ (markedExpr loc op mark).nodes, e.Emittable := by
  have hfloor : IsName (ascii "floor") :=
    ⟨⟨by decide, List.all_eq_true.mp (by decide)⟩, by decide⟩
  have hx : IsName (ascii "x") := ⟨⟨by decide, List.all_eq_true.mp (by decide)⟩, by decide⟩
  intro e he
  simp only [markedExpr, Expr.nodes, Expr.nodesList, Segment.nodesList, List.cons_append,
    List.nil_append, List.append_nil, List.mem_cons, List.not_mem_nil, or_false] at he
  rcases he with rfl | rfl | rfl | rfl | rfl | rfl | rfl
  · trivial
  · trivial
  · rfl
  · exact hfloor
  · exact ⟨[.text (ascii "$"), .embedded (.identifier ⟨loc, ascii "x", .number, mark⟩)], rfl⟩
  · exact hx
  · rfl

theorem markedExpr_same_text :
    (markedExpr ⟨1, 2, 3⟩ .isEqualTo true).script {} =
        ascii "((- -1) === Math.floor(`$$\x7bx\x7d`, 0))" ∧
      (markedExpr ⟨1, 2, 3⟩ .isEqualTo true).script {} = (markedExpr {} .eq false).script {} ∧
      (markedExpr ⟨1, 2, 3⟩ .isEqualTo true).plain = (markedExpr {} .eq false).plain := by
  have htext : (markedExpr ⟨1, 2, 3⟩ .isEqualTo true).script {} =
      (markedExpr {} .eq false).script {} := by decide +kernel
  exact ⟨by decide +kernel, htext, plain_eq_of_script_eq (emittable_markedExpr _ _ _)
    (emittable_markedExpr _ _ _) (by decide +kernel) htext⟩

end Roar
