import Roar.Optimize.Fold
import Roar.Target.Script
import Roar.Proofs.Number.Text
import Roar.Proofs.Program.Nodes

/-!
# Expressions that say the same

Two expressions say the same if they are equal but for their places, types and marks and the signs
of their zeros (`Expr.bare`), and if there is no NaN in them (`Expr.same_iff`). Symmetry, transitivity
and the expressions that say the same as themselves can be read off from this form.

Expressions that say the same are written the same, if they agree on which names are built in and
which are names of functions (`Expr.script_eq_of_same`). Nothing else that the comparison leaves out is
written.
-/

namespace Roar

/-! ## Numbers of one value -/

namespace Number

variable {x y : Number}

private theorem isZero_infinity (negative : Bool) : (infinity negative).isZero = false := by
  have hrank : signed negative (pow2 2098) ≠ signed false 0 := fun h =>
    absurd (signed_inj.mp h).1 (pow2_pos 2098).ne'
  exact decide_eq_false hrank

theorem withoutZeroSign_infinity (negative : Bool) :
    (infinity negative).withoutZeroSign = .infinity negative := by
  rw [withoutZeroSign, isZero_infinity]
  rfl

theorem withoutZeroSign_finite (negative : Bool) (units : Nat) (exact : Representable units) :
    (finite negative units exact).withoutZeroSign =
      if units = 0 then zero false else .finite negative units exact := by
  rw [withoutZeroSign, isZero_finite]
  simp only [beq_iff_eq]

theorem eq_iff_rank : x.eq y = true ↔ x.rank = y.rank ∧ x ≠ .nan ∧ y ≠ .nan := by
  cases x <;> cases y <;> simp [Number.eq, relate, rank]

private theorem rank_withoutZeroSign (x : Number) : x.withoutZeroSign.rank = x.rank := by
  cases x with
  | nan => rfl
  | infinity negative => rw [withoutZeroSign_infinity]
  | finite negative units exact =>
    rw [withoutZeroSign_finite]
    split
    · rename_i hunits
      exact congrArg some (signed_inj.mpr ⟨hunits.symm, .inr rfl⟩)
    · rfl

/-- Numbers have one place on the line exactly if they differ at most in the sign of a zero. -/
theorem rank_eq_iff : x.rank = y.rank ↔ x.withoutZeroSign = y.withoutZeroSign := by
  constructor
  · intro h
    cases x with
    | nan =>
      cases y with
      | nan => rfl
      | infinity | finite => cases h
    | infinity s =>
      cases y with
      | nan => cases h
      | infinity t =>
        obtain ⟨-, rfl | hzero⟩ := signed_inj.mp (Option.some.inj h)
        · rfl
        · exact absurd hzero (pow2_pos 2098).ne'
      | finite t n hn => exact absurd (signed_inj.mp (Option.some.inj h)).1 hn.1.ne'
    | finite s m hm =>
      cases y with
      | nan => cases h
      | infinity t => exact absurd (signed_inj.mp (Option.some.inj h)).1 hm.1.ne
      | finite t n hn =>
        obtain ⟨rfl, rfl | hzero⟩ := signed_inj.mp (Option.some.inj h)
        · rfl
        · rw [withoutZeroSign_finite, withoutZeroSign_finite, if_pos hzero, if_pos hzero]
  · intro h
    rw [← rank_withoutZeroSign x, h, rank_withoutZeroSign]

theorem eq_iff_withoutZeroSign :
    x.eq y = true ↔ x.withoutZeroSign = y.withoutZeroSign ∧ x ≠ .nan ∧ y ≠ .nan := by
  rw [eq_iff_rank, rank_eq_iff]

private theorem text_withoutZeroSign (x : Number) : x.withoutZeroSign.text = x.text := by
  cases x with
  | nan => rfl
  | infinity negative => rw [withoutZeroSign_infinity]
  | finite negative units exact =>
    rw [withoutZeroSign_finite]
    split
    · rename_i hunits
      exact (if_pos hunits).symm
    · rfl

theorem text_eq_of_eq (h : x.eq y = true) : x.text = y.text := by
  rw [← text_withoutZeroSign x, (eq_iff_withoutZeroSign.mp h).1, text_withoutZeroSign]

end Number

/-! ## The form of a comparison -/

mutual

/-- The expression without what a comparison leaves out: places, types, marks and the signs of
zeros. -/
def Expr.bare : Expr → Expr
  | .number _ value => .number {} value.withoutZeroSign
  | .string _ value => .string {} value
  | .interpolated _ segments => .interpolated {} (Segment.bareList segments)
  | .boolean _ value => .boolean {} value
  | .identifier id => .identifier ⟨{}, id.name, .unknown, false⟩
  | .binary _ op left right _ => .binary {} op left.bare right.bare .unknown
  | .compare _ op left right => .compare {} op left.bare right.bare
  | .unary _ op operand _ => .unary {} op operand.bare .unknown
  | .call _ callee args _ _ => .call {} callee (Expr.bareList args) .unknown false
  | .range _ bound => .range {} bound.bare

def Expr.bareList : List Expr → List Expr
  | [] => []
  | e :: es => e.bare :: Expr.bareList es

def Segment.bare : Segment → Segment
  | .text t => .text t
  | .embedded e => .embedded e.bare

def Segment.bareList : List Segment → List Segment
  | [] => []
  | s :: ss => s.bare :: Segment.bareList ss

end

/-- No number among the expressions is a NaN. -/
def NaNFree (nodes : List Expr) : Prop := ∀ n ∈ nodes, n.number? ≠ some .nan

@[simp] theorem nanFree_nil : NaNFree [] := List.forall_mem_nil _

@[simp] theorem nanFree_cons {e : Expr} {es : List Expr} :
    NaNFree (e :: es) ↔ e.number? ≠ some .nan ∧ NaNFree es := List.forall_mem_cons

@[simp] theorem nanFree_append {es fs : List Expr} :
    NaNFree (es ++ fs) ↔ NaNFree es ∧ NaNFree fs := List.forall_mem_append

-- Expressions of two kinds are never the same, and their bare forms are of two kinds as well. So in
-- each case only one kind of `b` is left, where the parts are compared.
mutual

theorem Expr.same_iff : (a b : Expr) →
    (a.same b = true ↔ a.bare = b.bare ∧ NaNFree a.nodes ∧ NaNFree b.nodes)
  | .number .., b => by
    cases b <;> simp [Expr.same, Expr.bare, Expr.nodes, Expr.number?, Number.eq_iff_withoutZeroSign]
  | .string .., b => by cases b <;> simp [Expr.same, Expr.bare, Expr.nodes, Expr.number?]
  | .interpolated _ xs, b => by
    cases b <;> simp [Expr.same, Expr.bare, Expr.nodes, Expr.number?, Segment.sameList_iff xs]
  | .boolean .., b => by cases b <;> simp [Expr.same, Expr.bare, Expr.nodes, Expr.number?]
  | .identifier _, b => by cases b <;> simp [Expr.same, Expr.bare, Expr.nodes, Expr.number?]
  | .binary _ _ x y _, b => by
    cases b <;> simp [Expr.same, Expr.bare, Expr.nodes, Expr.number?, x.same_iff, y.same_iff,
      and_assoc, and_left_comm]
  | .compare _ _ x y, b => by
    cases b <;> simp [Expr.same, Expr.bare, Expr.nodes, Expr.number?, x.same_iff, y.same_iff,
      and_assoc, and_left_comm]
  | .unary _ _ x _, b => by
    cases b <;> simp [Expr.same, Expr.bare, Expr.nodes, Expr.number?, x.same_iff, and_assoc]
  | .call _ _ xs _ _, b => by
    cases b <;> simp [Expr.same, Expr.bare, Expr.nodes, Expr.number?, Expr.sameList_iff xs,
      and_assoc]
  | .range _ x, b => by
    cases b <;> simp [Expr.same, Expr.bare, Expr.nodes, Expr.number?, x.same_iff]

theorem Expr.sameList_iff : (xs ys : List Expr) → (Expr.sameList xs ys = true ↔
    Expr.bareList xs = Expr.bareList ys ∧ NaNFree (Expr.nodesList xs) ∧ NaNFree (Expr.nodesList ys))
  | [], ys => by cases ys <;> simp [Expr.sameList, Expr.bareList, Expr.nodesList]
  | x :: xs, ys => by
    cases ys <;> simp [Expr.sameList, Expr.bareList, Expr.nodesList, x.same_iff,
      Expr.sameList_iff xs, and_assoc, and_left_comm]

theorem Segment.sameList_iff : (xs ys : List Segment) → (Segment.sameList xs ys = true ↔
    Segment.bareList xs = Segment.bareList ys ∧
      NaNFree (Segment.nodesList xs) ∧ NaNFree (Segment.nodesList ys))
  | [], ys => by cases ys <;> simp [Segment.sameList, Segment.bareList, Segment.nodesList]
  | .text _ :: xs, ys => by
    rcases ys with _ | ⟨_ | _, ys⟩ <;> simp [Segment.sameList, Segment.same, Segment.bareList,
      Segment.bare, Segment.nodesList, Segment.sameList_iff xs, and_assoc]
  | .embedded e :: xs, ys => by
    rcases ys with _ | ⟨_ | _, ys⟩ <;> simp [Segment.sameList, Segment.same, Segment.bareList,
      Segment.bare, Segment.nodesList, e.same_iff, Segment.sameList_iff xs, and_assoc,
      and_left_comm]

end

/-! ## The text of an expression -/

/-- The two expressions do not disagree: if they are calls of one name, it is built in for both or for
neither, and if they are uses of one name, it is that of a function for both or for neither. -/
def Expr.agrees : Expr → Expr → Bool
  | .call _ f _ _ builtin, .call _ g _ _ builtin' => f != g || builtin == builtin'
  | .identifier x, .identifier y => x.name != y.name || x.isFunction == y.isFunction
  | _, _ => true

/-- The marks on equal names are equal. -/
def MarksAgree (es fs : List Expr) : Prop := ∀ e ∈ es, ∀ f ∈ fs, e.agrees f

instance (es fs : List Expr) : Decidable (MarksAgree es fs) :=
  inferInstanceAs (Decidable (∀ e ∈ es, ∀ f ∈ fs, e.agrees f))

section MarksAgree

variable {e f : Expr} {es es' fs fs' : List Expr}

theorem MarksAgree.head (h : MarksAgree (e :: es) (f :: fs)) : e.agrees f :=
  h e List.mem_cons_self f List.mem_cons_self

theorem MarksAgree.tail (h : MarksAgree (e :: es) (f :: fs)) : MarksAgree es fs :=
  fun e he f hf => h e (List.mem_cons_of_mem _ he) f (List.mem_cons_of_mem _ hf)

theorem MarksAgree.left (h : MarksAgree (es ++ es') (fs ++ fs')) : MarksAgree es fs :=
  fun e he f hf => h e (List.mem_append_left _ he) f (List.mem_append_left _ hf)

theorem MarksAgree.right (h : MarksAgree (es ++ es') (fs ++ fs')) : MarksAgree es' fs' :=
  fun e he f hf => h e (List.mem_append_right _ he) f (List.mem_append_right _ hf)

end MarksAgree

section Script

variable {t : Names}

theorem Identifier.script_congr {x y : Identifier} (hname : x.name = y.name)
    (h : (Expr.identifier x).agrees (.identifier y)) : x.script t = y.script t := by
  have hfunction : x.isFunction = y.isFunction := by simpa [Expr.agrees, hname] using h
  rw [Identifier.script, Identifier.script, hname, hfunction]

mutual

theorem Expr.script_eq_of_same : {a b : Expr} → a.same b = true → MarksAgree a.nodes b.nodes →
    a.script t = b.script t
  | .number _ x, b, h, _ => by
    cases b <;> simp [Expr.same] at h
    exact Number.text_eq_of_eq h
  | .string _ x, b, h, _ => by
    cases b <;> simp [Expr.same] at h
    rw [h]
    rfl
  | .boolean _ x, b, h, _ => by
    cases b <;> simp [Expr.same] at h
    rw [h]
    rfl
  | .identifier x, b, h, hmarks => by
    cases b <;> simp [Expr.same] at h
    exact Identifier.script_congr h hmarks.head
  | .interpolated _ xs, b, h, hmarks => by
    cases b <;> simp [Expr.same] at h
    rw [Expr.script, Expr.script, Segment.scriptList_eq_of_same h hmarks.tail]
  | .binary _ op l r _, b, h, hmarks => by
    cases b <;> simp [Expr.same] at h
    obtain ⟨⟨rfl, hl⟩, hr⟩ := h
    rw [Expr.script, Expr.script, Expr.script_eq_of_same hl hmarks.tail.left,
      Expr.script_eq_of_same hr hmarks.tail.right]
  | .compare _ op l r, b, h, hmarks => by
    cases b <;> simp [Expr.same] at h
    obtain ⟨⟨rfl, hl⟩, hr⟩ := h
    rw [Expr.script, Expr.script, Expr.script_eq_of_same hl hmarks.tail.left,
      Expr.script_eq_of_same hr hmarks.tail.right]
  | .unary _ op x _, b, h, hmarks => by
    cases b <;> simp [Expr.same] at h
    obtain ⟨rfl, hx⟩ := h
    rw [Expr.script, Expr.script, Expr.script_eq_of_same hx hmarks.tail]
  | .call _ f xs _ builtin, b, h, hmarks => by
    cases b <;> simp [Expr.same] at h
    obtain ⟨rfl, hargs⟩ := h
    have hbuiltin := hmarks.head
    simp only [Expr.agrees, bne_self_eq_false, Bool.false_or, beq_iff_eq] at hbuiltin
    rw [Expr.script, Expr.script, hbuiltin, Expr.scriptList_eq_of_same hargs hmarks.tail]
  | .range _ x, b, h, hmarks => by
    cases b <;> simp [Expr.same] at h
    rw [Expr.script, Expr.script, Expr.script_eq_of_same h hmarks.tail]

theorem Expr.scriptList_eq_of_same : {xs ys : List Expr} → Expr.sameList xs ys = true →
    MarksAgree (Expr.nodesList xs) (Expr.nodesList ys) →
    Expr.scriptList t xs = Expr.scriptList t ys
  | [], ys, h, _ => by
    cases ys <;> simp [Expr.sameList] at h
    rfl
  | x :: xs, ys, h, hmarks => by
    cases ys <;> simp [Expr.sameList] at h
    rw [Expr.scriptList, Expr.scriptList, Expr.script_eq_of_same h.1 hmarks.left,
      Expr.scriptList_eq_of_same h.2 hmarks.right]

theorem Segment.scriptList_eq_of_same : {xs ys : List Segment} → Segment.sameList xs ys = true →
    MarksAgree (Segment.nodesList xs) (Segment.nodesList ys) →
    Segment.scriptList t xs = Segment.scriptList t ys
  | [], ys, h, _ => by
    cases ys <;> simp [Segment.sameList] at h
    rfl
  | .text u :: xs, ys, h, hmarks => by
    rcases ys with _ | ⟨_ | _, ys⟩ <;> simp [Segment.sameList, Segment.same] at h
    obtain ⟨rfl, hxs⟩ := h
    rw [Segment.scriptList, Segment.scriptList, Segment.scriptList_eq_of_same hxs hmarks]
  | .embedded e :: xs, ys, h, hmarks => by
    rcases ys with _ | ⟨_ | _, ys⟩ <;> simp [Segment.sameList, Segment.same] at h
    rw [Segment.scriptList, Segment.scriptList, Segment.script, Segment.script,
      Expr.script_eq_of_same h.1 hmarks.left, Segment.scriptList_eq_of_same h.2 hmarks.right]

end

end Script

/-- The comparison is sound for folding. It is symmetric and transitive, and an expression says the
same as its copy exactly if no number in it is a NaN. Expressions that say the same have the same text,
if equal names are marked alike in both. -/
theorem same_sound :
    (∀ a b : Expr, a.same b = b.same a) ∧
    (∀ a b c : Expr, a.same b → b.same c → a.same c) ∧
    (∀ a : Expr, a.same a ↔ NaNFree a.nodes) ∧
    ∀ (t : Names) (a b : Expr), a.same b → MarksAgree a.nodes b.nodes →
      a.script t = b.script t := by
  refine ⟨?_, ?_, ?_, fun t a b => Expr.script_eq_of_same⟩
  · intro a b
    rw [Bool.eq_iff_iff, Expr.same_iff, Expr.same_iff, eq_comm, and_comm (a := NaNFree a.nodes)]
  · intro a b c hab hbc
    rw [Expr.same_iff] at hab hbc ⊢
    exact ⟨hab.1.trans hbc.1, hab.2.1, hbc.2.2⟩
  · intro a
    rw [Expr.same_iff, and_self, eq_self, true_and]

/-- A call of `max` with a name and one of the zeros. -/
def maxOfZero (loc : Location) (type : ValueType) (negative : Bool) : Expr :=
  .call loc (ascii "max") [.identifier ⟨loc, ascii "x", type, false⟩, .number loc (.zero negative)]
    type true

/-- Two trees that differ in places, types and the sign of a zero have one text. -/
theorem same_sound_maxOfZero :
    (maxOfZero {} .number false).same (maxOfZero ⟨1, 2, 3⟩ .unknown true) = true ∧
    ∀ t : Names, (maxOfZero {} .number false).script t =
      (maxOfZero ⟨1, 2, 3⟩ .unknown true).script t := by
  have hsame : (maxOfZero {} .number false).same (maxOfZero ⟨1, 2, 3⟩ .unknown true) = true := by
    decide +kernel
  have hmarks : MarksAgree (maxOfZero {} .number false).nodes
      (maxOfZero ⟨1, 2, 3⟩ .unknown true).nodes := by
    decide +kernel
  exact ⟨hsame, fun t => same_sound.2.2.2 t _ _ hsame hmarks⟩

end Roar
