import Roar.Analysis.Resolve
import Roar.Proofs.Scoping.Scopes

/-!
# What is known of the scopes of an analysis

`chainOf f chain` keeps of every symbol in a chain of scopes its name and what `f` says of it. A look
up there finds what a look up in the chain finds (`lookup?_chainOf`), a definition adds to it
(`chainOf_defineIn`), and a change of symbols that `f` does not see leaves it as it is
(`chainOf_modifyAt`).
-/

namespace Roar

variable {α : Type}

/-- The symbols of a chain of scopes, as far as `f` tells them apart. -/
def chainOf (f : Meaning → α) (chain : List Scope) : Scopes α :=
  chain.map fun s => s.meanings.map fun m => (m.name, f m)

theorem chainOf_cons (f : Meaning → α) (s : Scope) (chain : List Scope) :
    chainOf f (s :: chain) = (s.meanings.map fun m => (m.name, f m)) :: chainOf f chain := rfl

theorem lookup_chainOf (f : Meaning → α) (s : Scope) (x : Bytes) :
    (s.meanings.map fun m => (m.name, f m)).lookup x = (s.local? x).map f := by
  unfold Scope.local?
  induction s.meanings with
  | nil => rfl
  | cons m ms ih =>
    rw [List.find?_cons, List.map_cons, List.lookup_cons, BEq.comm (a := x)]
    cases m.name == x <;> simp [ih]

theorem Scope.lookup?_cons (s : Scope) (outer : List Scope) (x : Bytes) :
    Scope.lookup? x (s :: outer) = (s.local? x).or (Scope.lookup? x outer) := by
  rw [Scope.lookup?, Scope.find?]
  cases s.local? x <;> rfl

theorem lookup?_chainOf (f : Meaning → α) (chain : List Scope) (x : Bytes) :
    Scopes.lookup? (chainOf f chain) x = (Scope.lookup? x chain).map f := by
  induction chain with
  | nil => rfl
  | cons s outer ih =>
    rw [chainOf_cons, Scopes.lookup?_cons, ih, lookup_chainOf, Scope.lookup?_cons]
    cases s.local? x <;> rfl

theorem chainOf_defineIn (f : Meaning → α) (m : Meaning) (chain : List Scope) :
    chainOf f (Scope.defineIn m chain) = Scopes.bind m.name (f m) (chainOf f chain) := by
  cases chain <;> rfl

/-- Changing what is neither the name of a symbol nor seen by `f` changes nothing. -/
theorem chainOf_modifyAt {f : Meaning → α} {change : Meaning → Meaning}
    (hc : ∀ m, (change m).name = m.name ∧ f (change m) = f m) (depth : Nat) (x : Bytes)
    (chain : List Scope) : chainOf f (Scope.modifyAt depth x change chain) = chainOf f chain := by
  have hgo (ms : List Meaning) :
      (Scope.modify.go x change ms).map (fun m => (m.name, f m)) =
        ms.map fun m => (m.name, f m) := by
    induction ms with
    | nil => rfl
    | cons m ms ih =>
      unfold Scope.modify.go
      split
      · rw [List.map_cons, List.map_cons, (hc m).1, (hc m).2]
      · rw [List.map_cons, List.map_cons, ih]
  induction chain with
  | nil => rfl
  | cons s outer ih =>
    unfold Scope.modifyAt
    split
    · simp only [chainOf, List.map_cons, Scope.modify, hgo]
    · rw [chainOf_cons, chainOf_cons, ih]

end Roar
