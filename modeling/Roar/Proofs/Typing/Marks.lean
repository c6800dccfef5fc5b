import Roar.Proofs.Scoping.Scopes
import Roar.Analysis.Resolve

/-!
# The functions of a text

A reader goes through the text of a program and marks, in order, every value that a function serves,
every call of a function and, at its end, the declaration of every function (`Program.marks`). The
functions are numbered in the order of their declarations, and a call is one of the function that its
name means in the scopes around it.

Every function that is called is declared somewhere, and a function serves no value after its
declaration has ended (`Stmt.numbered_marksList`).
-/

namespace Roar

/-! ## Reading the functions of a program -/

/-- What the text says of the function with a number. -/
inductive Mark where
  | served (f : Nat) (type : ValueType)
  | called (f : Nat) (type : ValueType)
  | declared (f : Nat) (returns : ValueType)
deriving DecidableEq, Repr

/-- Which names mean functions, and which ones. -/
abbrev FunctionScopes := Scopes (Option Nat)

/-- The mark of a call, if the name means a function of the program. -/
def callMark (Γ : FunctionScopes) (callee : Bytes) (type : ValueType) : List Mark :=
  ((Scopes.lookup? Γ callee).join.map (.called · type)).toList

mutual

/-- The calls in an expression. -/
def Expr.calls (Γ : FunctionScopes) : Expr → List Mark
  | .number .. | .string .. | .boolean .. | .identifier _ => []
  | .interpolated _ segments => Segment.callsList Γ segments
  | .binary _ _ left right _ | .compare _ _ left right => left.calls Γ ++ right.calls Γ
  | .unary _ _ operand _ => operand.calls Γ
  | .call _ callee args type _ => Expr.callsList Γ args ++ callMark Γ callee type
  | .range _ bound => bound.calls Γ

def Expr.callsList (Γ : FunctionScopes) : List Expr → List Mark
  | [] => []
  | e :: es => e.calls Γ ++ Expr.callsList Γ es

def Segment.calls (Γ : FunctionScopes) : Segment → List Mark
  | .text _ => []
  | .embedded value => value.calls Γ

def Segment.callsList (Γ : FunctionScopes) : List Segment → List Mark
  | [] => []
  | s :: ss => s.calls Γ ++ Segment.callsList Γ ss

end

/-- A place in the text: the scopes around it, the function whose body it lies in, and how many
functions have been declared before it. -/
structure Sight where
  scopes : FunctionScopes
  own : Option Nat := none
  count : Nat := 0

namespace Sight

/-- The place before a whole program. -/
def start : Sight := { scopes := [[], builtinNames.map (·, none)] }

/-- Past a declaration of something that is no function. -/
def bind (v : Sight) (x : Bytes) : Sight := { v with scopes := Scopes.bind x none v.scopes }

/-- Past the name of the next function. -/
def declare (v : Sight) (x : Bytes) : Sight :=
  { v with scopes := Scopes.bind x (some v.count) v.scopes, count := v.count + 1 }

/-- In a scope with these names, none of them a function. -/
def enter (v : Sight) (names : List Bytes) : Sight :=
  { v with scopes := names.map (·, none) :: v.scopes }

/-- Back from a scope inside. -/
def upTo (v w : Sight) : Sight := { v with count := w.count }

end Sight

mutual

/-- The marks of a statement, and the place after it. -/
def Stmt.marks (v : Sight) : Stmt → List Mark × Sight
  | .block _ body =>
    let (marks, w) := Stmt.marksList (v.enter []) body
    (marks, v.upTo w)
  | .assign _ target value declares =>
    (value.calls v.scopes, if declares then v.bind target.name else v)
  | .print _ value | .expression _ value => (value.calls v.scopes, v)
  | .function _ name params _ body returns =>
    let outside := v.declare name
    let (marks, w) :=
      Stmt.marksList { outside.enter params.reverse with own := some v.count } body
    (marks ++ [.declared v.count returns], outside.upTo w)
  | .serve _ value =>
    (value.calls v.scopes ++ (v.own.map (.served · value.type)).toList, v)
  | .branch _ condition _ thenBody alternate =>
    let (marks, w) := Stmt.marksList (v.enter []) thenBody
    let (rest, w) := alternate.marks (v.upTo w)
    (condition.calls v.scopes ++ marks ++ rest, w)
  | .loop _ counter _ bound _ body =>
    let (marks, w) := Stmt.marksList (v.enter [counter.name]) body
    (bound.calls v.scopes ++ marks, v.upTo w)
  | .leave _ | .comment .. => ([], v)

def Alternate.marks (v : Sight) : Alternate → List Mark × Sight
  | .none => ([], v)
  | .block _ body =>
    let (marks, w) := Stmt.marksList (v.enter []) body
    (marks, v.upTo w)
  | .branch _ condition _ thenBody alternate =>
    let (marks, w) := Stmt.marksList (v.enter []) thenBody
    let (rest, w) := alternate.marks (v.upTo w)
    (condition.calls v.scopes ++ marks ++ rest, w)

def Stmt.marksList (v : Sight) : List Stmt → List Mark × Sight
  | [] => ([], v)
  | s :: ss =>
    let (marks, v) := s.marks v
    let (rest, v) := Stmt.marksList v ss
    (marks ++ rest, v)

end

/-- The marks of a program. -/
def Program.marks (p : Program) : List Mark := (Stmt.marksList .start p.statements).1

/-! ## What the marks say -/

/-- The first type that is known, if there is one. -/
def firstKnown (types : List ValueType) : ValueType := (types.find? (· != .unknown)).getD .unknown

/-- What is not known counts as a number. -/
def ValueType.orNumber (type : ValueType) : ValueType := if type = .unknown then .number else type

/-- The type that a mark says the function serves. -/
def Mark.servedBy (f : Nat) : Mark → Option ValueType
  | .served g type => if g = f then some type else none
  | _ => none

/-- The types that a function serves, in order. -/
def servedTypes (f : Nat) (marks : List Mark) : List ValueType := marks.filterMap (Mark.servedBy f)

/-- What a function returns, as far as the marks say. -/
def returnsAfter (marks : List Mark) (f : Nat) : ValueType := firstKnown (servedTypes f marks)

/-- A mark has the type that the marks before it say. -/
def Mark.Right (before : List Mark) : Mark → Prop
  | .served .. => True
  | .called f type => type = (returnsAfter before f).orNumber
  | .declared f returns => returns = returnsAfter before f

/-- Every mark has the type that the marks before it say. -/
def RightAfter (before : List Mark) : List Mark → Prop
  | [] => True
  | m :: ms => m.Right before ∧ RightAfter (before ++ [m]) ms

theorem rightAfter_append {before a b : List Mark} :
    RightAfter before (a ++ b) ↔ RightAfter before a ∧ RightAfter (before ++ a) b := by
  induction a generalizing before with
  | nil => simp [RightAfter]
  | cons m ms ih => simp [RightAfter, ih, and_assoc]

theorem RightAfter.right {before marks earlier later : List Mark} {m : Mark}
    (h : RightAfter before marks) (hm : marks = earlier ++ m :: later) :
    m.Right (before ++ earlier) := by
  rw [hm, rightAfter_append] at h
  exact h.2.1

private theorem firstKnown_append (a b : List ValueType) :
    firstKnown (a ++ b) = if firstKnown a = .unknown then firstKnown b else firstKnown a := by
  unfold firstKnown
  rw [List.find?_append]
  cases h : a.find? (· != .unknown) with
  | none => simp
  | some t =>
    have ht : t ≠ .unknown := by simpa using List.find?_some h
    simp [ht]

theorem returnsAfter_append (a b : List Mark) (f : Nat) :
    returnsAfter (a ++ b) f =
      if returnsAfter a f = .unknown then returnsAfter b f else returnsAfter a f := by
  rw [returnsAfter, servedTypes, List.filterMap_append, firstKnown_append]
  rfl

theorem servedTypes_eq_nil {marks : List Mark} {f : Nat} (h : ∀ t, .served f t ∉ marks) :
    servedTypes f marks = [] := by
  rw [servedTypes, List.filterMap_eq_nil_iff]
  intro m hm
  cases m with
  | served g t =>
    by_cases hg : g = f
    · exact absurd (hg ▸ hm) (h t)
    · exact if_neg hg
  | called g t => rfl
  | declared g t => rfl

/-- Marks without a value that the function serves do not matter. -/
theorem returnsAfter_append_of_notMem {b : List Mark} {f : Nat} (h : ∀ t, .served f t ∉ b)
    (a : List Mark) : returnsAfter (a ++ b) f = returnsAfter a f := by
  have hb : returnsAfter b f = .unknown := by
    rw [returnsAfter, servedTypes_eq_nil h]
    rfl
  rw [returnsAfter_append, hb]
  split
  · rename_i ha
    exact ha.symm
  · rfl

/-! ## Embedded expressions -/

/-- The expressions in the pieces of a string, in order. -/
def Segment.expressions : List Segment → List Expr
  | [] => []
  | .text _ :: ss => Segment.expressions ss
  | .embedded e :: ss => e :: Segment.expressions ss

theorem Segment.expressions_merge (ss : List Segment) :
    Segment.expressions (Segment.merge ss) = Segment.expressions ss := by
  induction ss with
  | nil => rfl
  | cons s rest ih =>
    cases s with
    | embedded e => rw [Segment.merge, Segment.expressions, Segment.expressions, ih]
    | text t =>
      rw [Segment.merge, Segment.expressions, ← ih]
      split
      · rfl
      · split
        · rename_i h
          rw [h]
          rfl
        · rfl

theorem Segment.callsList_eq (Γ : FunctionScopes) (ss : List Segment) :
    Segment.callsList Γ ss = (Segment.expressions ss).flatMap (·.calls Γ) := by
  induction ss with
  | nil => rfl
  | cons s rest ih =>
    cases s with
    | embedded e => rw [Segment.callsList, Segment.calls, ih, Segment.expressions, List.flatMap_cons]
    | text t => rw [Segment.callsList, Segment.calls, ih, Segment.expressions, List.nil_append]

/-- Joining the pieces of a string changes no calls. -/
theorem Expr.calls_interpolate (Γ : FunctionScopes) (loc : Location) (ss : List Segment) :
    (Expr.interpolate loc ss).calls Γ = Segment.callsList Γ ss := by
  have hmerge : Segment.callsList Γ (Segment.merge ss) = Segment.callsList Γ ss := by
    rw [Segment.callsList_eq, Segment.expressions_merge, Segment.callsList_eq]
  rw [← hmerge]
  unfold Expr.interpolate
  split <;> rename_i h
  · rw [h]
    rfl
  · rw [h]
    rfl
  · rfl

/-- The functions in a chain of scopes. -/
def functionNumbers (Γ : FunctionScopes) : List Nat := Γ.flatten.filterMap (·.2)

theorem functionNumbers_cons (s : List (Bytes × Option Nat)) (Γ : FunctionScopes) :
    functionNumbers (s :: Γ) = s.filterMap (·.2) ++ functionNumbers Γ := by
  rw [functionNumbers, List.flatten_cons, List.filterMap_append]
  rfl

theorem functionNumbers_bind_none (x : Bytes) (Γ : FunctionScopes) :
    functionNumbers (Scopes.bind x none Γ) = functionNumbers Γ := by
  cases Γ <;> rfl

theorem functionNumbers_bind_some (x : Bytes) (f : Nat) (Γ : FunctionScopes) :
    functionNumbers (Scopes.bind x (some f) Γ) = f :: functionNumbers Γ := by
  cases Γ <;> rfl

theorem Sight.functionNumbers_enter (v : Sight) (names : List Bytes) :
    functionNumbers (v.enter names).scopes = functionNumbers v.scopes := by
  have hnone : (names.map ((·, none) : Bytes → Bytes × Option Nat)).filterMap (·.2) = [] := by
    simp
  rw [Sight.enter, functionNumbers_cons, hnone, List.nil_append]

theorem mem_of_lookup_some {s : List (Bytes × Option Nat)} {x : Bytes} {f : Nat}
    (h : s.lookup x = some (some f)) : f ∈ s.filterMap (·.2) :=
  List.mem_filterMap.mpr ⟨_, Scopes.mem_of_lookup h, rfl⟩

theorem mem_of_lookup? {Γ : FunctionScopes} {x : Bytes} {f : Nat}
    (h : Scopes.lookup? Γ x = some (some f)) : f ∈ functionNumbers Γ := by
  induction Γ with
  | nil => cases h
  | cons s Γ ih =>
    rw [functionNumbers_cons, List.mem_append]
    rw [Scopes.lookup?_cons] at h
    cases hs : s.lookup x with
    | none =>
      rw [hs] at h
      exact .inr (ih h)
    | some a =>
      rw [hs] at h
      exact .inl (mem_of_lookup_some (hs.trans h))

/-! ## The scopes of the reader -/

theorem Alternate.scopes_marks (v : Sight) (a : Alternate) :
    (a.marks v).2.scopes = v.scopes := by
  cases a with
  | none => rfl
  | block => rfl
  | branch _ _ _ _ alternate => exact alternate.scopes_marks _

/-- A statement changes the innermost scope only. -/
theorem Stmt.exists_scopes_marks {v : Sight} {s : List (Bytes × Option Nat)} {Γ : FunctionScopes}
    (h : v.scopes = s :: Γ) (st : Stmt) : ∃ s', (st.marks v).2.scopes = s' :: Γ := by
  cases st with
  | assign _ target value declares =>
    cases declares with
    | false => exact ⟨s, h⟩
    | true => exact ⟨(target.name, none) :: s, by simp [Stmt.marks, Sight.bind, Scopes.bind, h]⟩
  | function _ name params _ body returns =>
    exact ⟨(name, some v.count) :: s, by
      simp [Stmt.marks, Sight.declare, Sight.upTo, Scopes.bind, h]⟩
  | branch _ condition _ thenBody alternate => exact ⟨s, (alternate.scopes_marks _).trans h⟩
  | _ => exact ⟨s, h⟩

theorem Stmt.exists_scopes_marksList {v : Sight} {s : List (Bytes × Option Nat)}
    {Γ : FunctionScopes} (h : v.scopes = s :: Γ) (ss : List Stmt) :
    ∃ s', (Stmt.marksList v ss).2.scopes = s' :: Γ := by
  induction ss generalizing v s with
  | nil => exact ⟨s, h⟩
  | cons st ss ih =>
    obtain ⟨s', hs'⟩ := st.exists_scopes_marks h
    exact ih hs'

/-- The declared function is the first entry of the innermost scope. -/
theorem Sight.exists_scopes_declare (v : Sight) (x : Bytes) :
    ∃ s Γ, (v.declare x).scopes = ((x, some v.count) :: s) :: Γ := by
  unfold Sight.declare
  cases v.scopes with
  | nil => exact ⟨[], [], rfl⟩
  | cons s Γ => exact ⟨s, Γ, rfl⟩

/-! ## The numbers of the functions -/

mutual

/-- The calls in an expression are of functions in sight. -/
theorem Expr.mem_of_mem_calls {Γ : FunctionScopes} {m : Mark} :
    (e : Expr) → m ∈ e.calls Γ → ∃ f t, m = .called f t ∧ f ∈ functionNumbers Γ
  | .number .., h | .string .., h | .boolean .., h | .identifier _, h => nomatch h
  | .interpolated _ segments, h => Segment.mem_of_mem_callsList segments h
  | .binary _ _ left right _, h | .compare _ _ left right, h =>
    (List.mem_append.mp h).elim left.mem_of_mem_calls right.mem_of_mem_calls
  | .unary _ _ operand _, h => operand.mem_of_mem_calls h
  | .call _ callee args type _, h => by
    rcases List.mem_append.mp h with h | h
    · exact Expr.mem_of_mem_callsList args h
    · unfold callMark at h
      obtain ⟨f, hf, rfl⟩ := Option.map_eq_some_iff.mp (Option.mem_toList.mp h)
      exact ⟨f, type, rfl, mem_of_lookup? (Option.join_eq_some_iff.mp hf)⟩
  | .range _ bound, h => bound.mem_of_mem_calls h

theorem Expr.mem_of_mem_callsList {Γ : FunctionScopes} {m : Mark} :
    (es : List Expr) → m ∈ Expr.callsList Γ es → ∃ f t, m = .called f t ∧ f ∈ functionNumbers Γ
  | [], h => nomatch h
  | e :: es, h => (List.mem_append.mp h).elim e.mem_of_mem_calls (Expr.mem_of_mem_callsList es)

theorem Segment.mem_of_mem_callsList {Γ : FunctionScopes} {m : Mark} :
    (ss : List Segment) → m ∈ Segment.callsList Γ ss →
      ∃ f t, m = .called f t ∧ f ∈ functionNumbers Γ
  | [], h => nomatch h
  | .text _ :: ss, h => Segment.mem_of_mem_callsList ss h
  | .embedded e :: ss, h =>
    (List.mem_append.mp h).elim e.mem_of_mem_calls (Segment.mem_of_mem_callsList ss)

end

/-- The functions in sight have been counted. -/
structure Sight.Counted (v : Sight) : Prop where
  scopes : ∀ f ∈ functionNumbers v.scopes, f < v.count
  own : ∀ f, v.own = some f → f < v.count

/-- No value is served by a function after its declaration has ended. -/
def Mark.Precedes (m m' : Mark) : Prop := ∀ f r t, m = .declared f r → m' ≠ .served f t

/-- What the marks of a part of the text say of the numbers of the functions: the part declares the
functions that it counts, and serves values of these and of the function around it. -/
structure Numbered (v : Sight) (result : List Mark × Sight) : Prop where
  own : result.2.own = v.own
  le : v.count ≤ result.2.count
  scopes : ∀ f ∈ functionNumbers result.2.scopes, f < result.2.count
  called : ∀ f t, .called f t ∈ result.1 → f < result.2.count
  served : ∀ f t, .served f t ∈ result.1 → v.own = some f ∨ v.count ≤ f ∧ f < result.2.count
  declared : ∀ f, (∃ t, .declared f t ∈ result.1) ↔ v.count ≤ f ∧ f < result.2.count
  ordered : result.1.Pairwise Mark.Precedes

namespace Numbered

variable {v w u : Sight} {a b : List Mark}

theorem counted (hv : v.Counted) (h : Numbered v (a, w)) : w.Counted where
  scopes := h.scopes
  own := fun f hf => Nat.lt_of_lt_of_le (hv.own f (h.own ▸ hf)) h.le

theorem ofCalls (hv : v.Counted) (ha : ∀ m ∈ a, ∃ f t, m = .called f t ∧ f ∈ functionNumbers v.scopes) :
    Numbered v (a, v) where
  own := rfl
  le := Nat.le_refl _
  scopes := hv.scopes
  called := by
    intro f t hm
    obtain ⟨g, s, hg, hmem⟩ := ha _ hm
    cases hg
    exact hv.scopes f hmem
  served := by
    intro f t hm
    obtain ⟨g, s, hg, -⟩ := ha _ hm
    cases hg
  declared := by
    intro f
    constructor
    · rintro ⟨t, hm⟩
      obtain ⟨g, s, hg, -⟩ := ha _ hm
      cases hg
    · intro hf
      exact absurd hf.2 (Nat.not_lt.mpr hf.1)
  ordered := by
    refine List.Pairwise.imp_of_mem (R := fun _ _ => True) ?_ (List.pairwise_of_forall fun _ _ => trivial)
    intro m m' hm _ _ f r t hdeclared
    obtain ⟨g, s, rfl, -⟩ := ha _ hm
    cases hdeclared

theorem andThen (hv : v.Counted) (h : Numbered v (a, w)) (h' : Numbered w (b, u)) :
    Numbered v (a ++ b, u) where
  own := h'.own.trans h.own
  le := Nat.le_trans h.le h'.le
  scopes := h'.scopes
  called := by
    intro f t hm
    rcases List.mem_append.mp hm with hm | hm
    · exact Nat.lt_of_lt_of_le (h.called f t hm) h'.le
    · exact h'.called f t hm
  served := by
    intro f t hm
    have hle : v.count ≤ w.count := h.le
    have hle' : w.count ≤ u.count := h'.le
    rcases List.mem_append.mp hm with hm | hm
    · refine (h.served f t hm).imp id fun hf => ?_
      exact ⟨hf.1, Nat.lt_of_lt_of_le hf.2 hle'⟩
    · refine (h'.served f t hm).imp (fun hf => h.own ▸ hf) fun hf => ?_
      exact ⟨Nat.le_trans hle hf.1, hf.2⟩
  declared := by
    intro f
    have hle : v.count ≤ w.count := h.le
    have hle' : w.count ≤ u.count := h'.le
    have ha := h.declared f
    have hb := h'.declared f
    simp only [List.mem_append, exists_or] at ha hb ⊢
    rw [ha, hb]
    omega
  ordered := by
    refine List.pairwise_append.mpr ⟨h.ordered, h'.ordered, ?_⟩
    rintro m hm m' hm' f r t rfl rfl
    -- `f` got its number in the first part: it is neither the function around, which had one
    -- before, nor one of the second part
    obtain ⟨hge, hlt⟩ := (h.declared f).mp ⟨r, hm⟩
    rcases h'.served f t hm' with hown | hcount
    · exact Nat.not_lt.mpr hge (hv.own f (h.own ▸ hown))
    · exact Nat.not_lt.mpr hcount.1 hlt

/-- Back from a scope inside. -/
theorem upTo {names : List Bytes} (hv : v.Counted) (h : Numbered (v.enter names) (a, w)) :
    Numbered v (a, v.upTo w) where
  own := rfl
  le := h.le
  scopes := fun f hf => Nat.lt_of_lt_of_le (hv.scopes f hf) h.le
  called := h.called
  served := h.served
  declared := h.declared
  ordered := h.ordered

theorem serve (hv : v.Counted) (type : ValueType) :
    Numbered v ((v.own.map (.served · type)).toList, v) := by
  cases hown : v.own with
  | none => exact ofCalls hv (fun m hm => nomatch hm)
  | some f =>
    refine ⟨rfl, Nat.le_refl _, hv.scopes, ?_, ?_, ?_, List.pairwise_singleton _ _⟩
    · intro g t hm
      cases List.mem_singleton.mp hm
    · intro g t hm
      cases List.mem_singleton.mp hm
      exact .inl hown
    · intro g
      constructor
      · rintro ⟨t, hm⟩
        cases List.mem_singleton.mp hm
      · intro hg
        exact absurd hg.2 (Nat.not_lt.mpr hg.1)

/-- The declaration of a function ends after its body. -/
theorem declaration {name : Bytes} {names : List Bytes} (hv : v.Counted) (returns : ValueType)
    (h : Numbered { (v.declare name).enter names with own := some v.count } (a, w)) :
    Numbered v (a ++ [.declared v.count returns], (v.declare name).upTo w) := by
  have hle : v.count + 1 ≤ w.count := h.le
  refine ⟨rfl, Nat.le_of_succ_le hle, ?_, ?_, ?_, ?_, ?_⟩
  · intro f hf
    change f ∈ functionNumbers (Scopes.bind _ _ v.scopes) at hf
    rw [functionNumbers_bind_some] at hf
    rcases List.mem_cons.mp hf with rfl | hf
    · exact hle
    · exact Nat.lt_of_lt_of_le (hv.scopes f hf) (Nat.le_of_succ_le hle)
  · intro f t hm
    rcases List.mem_append.mp hm with hm | hm
    · exact h.called f t hm
    · cases List.mem_singleton.mp hm
  · intro f t hm
    rcases List.mem_append.mp hm with hm | hm
    · refine .inr ?_
      rcases h.served f t hm with hf | hf
      · cases hf
        exact ⟨Nat.le_refl _, hle⟩
      · exact ⟨Nat.le_of_succ_le hf.1, hf.2⟩
    · cases List.mem_singleton.mp hm
  · intro f
    have hbody : (∃ t, .declared f t ∈ a) ↔ v.count + 1 ≤ f ∧ f < w.count := h.declared f
    simp only [List.mem_append, exists_or, List.mem_singleton, Mark.declared.injEq,
      exists_and_left, exists_eq, and_true]
    rw [hbody]
    change _ ↔ v.count ≤ f ∧ f < w.count
    omega
  · refine List.pairwise_append.mpr ⟨h.ordered, List.pairwise_singleton _ _, ?_⟩
    rintro m hm m' hm' f r t - rfl
    cases List.mem_singleton.mp hm'

end Numbered

theorem Sight.Counted.enter {v : Sight} (hv : v.Counted) (names : List Bytes) :
    (v.enter names).Counted where
  scopes := by
    intro f hf
    rw [Sight.functionNumbers_enter] at hf
    exact hv.scopes f hf
  own := hv.own

theorem Sight.Counted.bind {v : Sight} (hv : v.Counted) (x : Bytes) : (v.bind x).Counted where
  scopes := by
    intro f hf
    rw [Sight.bind, functionNumbers_bind_none] at hf
    exact hv.scopes f hf
  own := hv.own

theorem Sight.Counted.functionBody {v : Sight} (hv : v.Counted) (name : Bytes)
    (names : List Bytes) :
    Sight.Counted { (v.declare name).enter names with own := some v.count } where
  scopes := by
    intro f hf
    change f ∈ functionNumbers ((v.declare name).enter names).scopes at hf
    rw [Sight.functionNumbers_enter, Sight.declare, functionNumbers_bind_some] at hf
    rcases List.mem_cons.mp hf with rfl | hf
    · exact Nat.lt_succ_self _
    · exact Nat.lt_succ_of_lt (hv.scopes f hf)
  own := by
    rintro f ⟨⟩
    exact Nat.lt_succ_self _

mutual

theorem Stmt.numbered_marks {v : Sight} (hv : v.Counted) : (s : Stmt) → Numbered v (s.marks v)
  | .block _ body => .upTo hv (Stmt.numbered_marksList (hv.enter []) body)
  | .assign _ target value true =>
    have hcalls : Numbered v (value.calls v.scopes, v) := .ofCalls hv fun _ => value.mem_of_mem_calls
    { hcalls with scopes := (hv.bind target.name).scopes }
  | .assign _ target value false => .ofCalls hv fun _ => value.mem_of_mem_calls
  | .print _ value | .expression _ value => .ofCalls hv fun _ => value.mem_of_mem_calls
  | .function _ name params _ body returns =>
    .declaration hv returns (Stmt.numbered_marksList (hv.functionBody name _) body)
  | .serve _ value =>
    .andThen hv (.ofCalls hv fun _ => value.mem_of_mem_calls) (.serve hv value.type)
  | .branch _ condition _ thenBody alternate => by
    have hblock := Numbered.andThen hv (.ofCalls hv fun _ => condition.mem_of_mem_calls)
      (.upTo hv (Stmt.numbered_marksList (hv.enter []) thenBody))
    exact .andThen hv hblock (Alternate.numbered_marks (hblock.counted hv) alternate)
  | .loop _ counter _ bound _ body =>
    .andThen hv (.ofCalls hv fun _ => bound.mem_of_mem_calls)
      (.upTo hv (Stmt.numbered_marksList (hv.enter [counter.name]) body))
  | .leave _ | .comment .. => .ofCalls hv fun _ h => nomatch h

theorem Alternate.numbered_marks {v : Sight} (hv : v.Counted) :
    (a : Alternate) → Numbered v (a.marks v)
  | .none => .ofCalls hv fun _ h => nomatch h
  | .block _ body => .upTo hv (Stmt.numbered_marksList (hv.enter []) body)
  | .branch _ condition _ thenBody alternate => by
    have hblock := Numbered.andThen hv (.ofCalls hv fun _ => condition.mem_of_mem_calls)
      (.upTo hv (Stmt.numbered_marksList (hv.enter []) thenBody))
    exact .andThen hv hblock (Alternate.numbered_marks (hblock.counted hv) alternate)

theorem Stmt.numbered_marksList {v : Sight} (hv : v.Counted) :
    (ss : List Stmt) → Numbered v (Stmt.marksList v ss)
  | [] => .ofCalls hv fun _ h => nomatch h
  | s :: ss => by
    have hfirst := Stmt.numbered_marks hv s
    exact .andThen hv hfirst (Stmt.numbered_marksList (hfirst.counted hv) ss)

end

theorem Sight.start_counted : Sight.start.Counted where
  scopes := by decide
  own := by
    intro f hf
    cases hf

end Roar
