import Roar.Program.Basic

/-!
# Equality of expressions

`Expr.equal` compares two expressions in everything, places and types included, and so decides
whether they are equal (`Expr.equal_iff`).
-/

namespace Roar

mutual

/-- The two expressions agree in everything. -/
def Expr.equal : Expr → Expr → Bool
  | .number l x, .number m y => l == m && x == y
  | .string l x, .string m y => l == m && x == y
  | .interpolated l xs, .interpolated m ys => l == m && Segment.equalList xs ys
  | .boolean l x, .boolean m y => l == m && x == y
  | .identifier x, .identifier y => x == y
  | .binary l o x y t, .binary m p x' y' u => l == m && o == p && x.equal x' && y.equal y' && t == u
  | .compare l o x y, .compare m p x' y' => l == m && o == p && x.equal x' && y.equal y'
  | .unary l o x t, .unary m p x' u => l == m && o == p && x.equal x' && t == u
  | .call l f xs t b, .call m g ys u c =>
    l == m && f == g && Expr.equalList xs ys && t == u && b == c
  | .range l x, .range m x' => l == m && x.equal x'
  | _, _ => false

/-- Two lists of expressions, compared one by one. -/
def Expr.equalList : List Expr → List Expr → Bool
  | [], [] => true
  | x :: xs, y :: ys => x.equal y && Expr.equalList xs ys
  | _, _ => false

/-- Two pieces of strings. -/
def Segment.equal : Segment → Segment → Bool
  | .text x, .text y => x == y
  | .embedded x, .embedded y => x.equal y
  | _, _ => false

/-- Two lists of pieces, compared one by one. -/
def Segment.equalList : List Segment → List Segment → Bool
  | [], [] => true
  | x :: xs, y :: ys => x.equal y && Segment.equalList xs ys
  | _, _ => false

end

mutual

theorem Expr.equal_iff : (a b : Expr) → (a.equal b = true ↔ a = b)
  | .number .., b => by cases b <;> simp [Expr.equal]
  | .string .., b => by cases b <;> simp [Expr.equal]
  | .interpolated _ xs, b => by
    cases b <;> simp [Expr.equal, Segment.equalList_iff xs]
  | .boolean .., b => by cases b <;> simp [Expr.equal]
  | .identifier _, b => by cases b <;> simp [Expr.equal]
  | .binary _ _ x y _, b => by
    cases b <;> simp [Expr.equal, x.equal_iff, y.equal_iff, and_assoc]
  | .compare _ _ x y, b => by
    cases b <;> simp [Expr.equal, x.equal_iff, y.equal_iff, and_assoc]
  | .unary _ _ x _, b => by cases b <;> simp [Expr.equal, x.equal_iff, and_assoc]
  | .call _ _ xs _ _, b => by
    cases b <;> simp [Expr.equal, Expr.equalList_iff xs, and_assoc]
  | .range _ x, b => by cases b <;> simp [Expr.equal, x.equal_iff]

theorem Expr.equalList_iff : (xs ys : List Expr) → (Expr.equalList xs ys = true ↔ xs = ys)
  | [], ys => by cases ys <;> simp [Expr.equalList]
  | x :: xs, ys => by cases ys <;> simp [Expr.equalList, x.equal_iff, Expr.equalList_iff xs]

theorem Segment.equal_iff : (s t : Segment) → (s.equal t = true ↔ s = t)
  | .text _, t => by cases t <;> simp [Segment.equal]
  | .embedded x, t => by cases t <;> simp [Segment.equal, x.equal_iff]

theorem Segment.equalList_iff : (xs ys : List Segment) →
    (Segment.equalList xs ys = true ↔ xs = ys)
  | [], ys => by cases ys <;> simp [Segment.equalList]
  | x :: xs, ys => by cases ys <;> simp [Segment.equalList, x.equal_iff, Segment.equalList_iff xs]

end

instance : DecidableEq Expr := fun a b => decidable_of_iff _ (a.equal_iff b)

instance : DecidableEq Segment := fun s t => decidable_of_iff _ (s.equal_iff t)

end Roar
