import Roar.Optimize.Pass
import Roar.Proofs.Bytes
import Roar.Proofs.Target.Names

/-!
# What a table of names answers

A table of names is asked to declare a name, to resolve one, to open a scope and to leave one. What
it has been asked, the latest first, says all that it answers:

* no name is handed out twice, and none is a reserved word (`Names.nodup_handedOut`);
* a declaration gets its own name if that is free, else the name with the first number with which it
  is free; the numbers are the words of 32 bits, in their order from two on (`Names.given_getsNext`), so
  that it is the least from two on unless all but two words are spent (`Names.given_getsFree`);
* a name means the latest declaration of it in the innermost scope that has one and is still open
  (`Names.resolve?_resolves`);
* the outermost scope is never left.

So the names that an output declares are all different, and none is reserved (`names_never_clash`).
-/

namespace Roar

/-- What a table of names is asked. -/
inductive NameCall where
  | declare (name : Bytes)
  | resolve (name : Bytes)
  | push
  | pop
deriving DecidableEq, Repr

namespace Names

/-! ## What the calls say -/

/-- The table after one more call. -/
def step (t : Names) : NameCall → Names
  | .declare name => (t.declare name).2
  | .resolve _ => t
  | .push => t.push
  | .pop => t.pop

/-- The table after some calls, the latest first. -/
def after : List NameCall → Names
  | [] => {}
  | c :: earlier => (after earlier).step c

/-- The name that a declaration after some calls is given. -/
def given (earlier : List NameCall) (name : Bytes) : Bytes := ((after earlier).declare name).1

/-- The names that some calls were given, the latest first. -/
def handedOut : List NameCall → List Bytes
  | [] => []
  | .declare name :: earlier => given earlier name :: handedOut earlier
  | _ :: earlier => handedOut earlier

/-- The name is neither reserved nor handed out. -/
def IsFree (calls : List NameCall) (name : Bytes) : Prop :=
  name ∉ reservedWords ∧ name ∉ handedOut calls

/-- A declaration of the name gets the name itself if it is free, else the first free one among the
numbered names in the order in which they are tried: `name_2`, `name_3` and so on, and after the last
word `name_0` and `name_1`. -/
def GetsNext (calls : List NameCall) (name output : Bytes) : Prop :=
  (IsFree calls name → output = name) ∧
    (¬ IsFree calls name → ∃ i < UInt32.size, output = numbered name (trial 2 i) ∧
      IsFree calls output ∧ ∀ j < i, ¬ IsFree calls (numbered name (trial 2 j)))

/-- A declaration of the name gets the name itself if it is free, else the first free one among
`name_2`, `name_3` and so on. -/
def GetsFree (calls : List NameCall) (name output : Bytes) : Prop :=
  (IsFree calls name → output = name) ∧
    (¬ IsFree calls name → ∃ k, 2 ≤ k ∧ output = numbered name k ∧ IsFree calls output ∧
      ∀ j, 2 ≤ j → j < k → ¬ IsFree calls (numbered name j))

/-- How many scopes are open after some calls. One always is. -/
def openScopes : List NameCall → Nat
  | [] => 1
  | .push :: earlier => openScopes earlier + 1
  | .pop :: earlier => max 1 (openScopes earlier - 1)
  | _ :: earlier => openScopes earlier

/-- The name was declared after the `earlier` calls, in a scope that has been open ever since. -/
structure Stands (calls : List NameCall) (name : Bytes) (earlier : List NameCall) : Prop where
  made : .declare name :: earlier <:+ calls
  isOpen : ∀ moment, moment <:+ calls → earlier <:+ moment → openScopes earlier ≤ openScopes moment

/-- Of the declarations of the name that stand, this is the latest in the innermost scope that has
one. -/
structure IsFound (calls : List NameCall) (name : Bytes) (earlier : List NameCall) : Prop where
  stands : Stands calls name earlier
  innermost : ∀ other, Stands calls name other → openScopes other ≤ openScopes earlier
  latest : ∀ other, Stands calls name other → openScopes other = openScopes earlier →
    other.length ≤ earlier.length

/-- The answer is what the declaration that is found was given, or nothing if none stands. -/
def Resolves (calls : List NameCall) (name : Bytes) : Option Bytes → Prop
  | some output => ∃ earlier, IsFound calls name earlier ∧ given earlier name = output
  | none => ∀ earlier, ¬ Stands calls name earlier

/-! ## Names that are handed out -/

@[simp] theorem used_push (t : Names) : t.push.used = t.used := rfl

@[simp] theorem used_pop (t : Names) : t.pop.used = t.used := by
  unfold pop
  split <;> rfl

/-- What is in use is what is reserved and what was handed out. -/
theorem used_after (calls : List NameCall) :
    (after calls).used = handedOut calls ++ reservedWords := by
  induction calls with
  | nil => rfl
  | cons c earlier ih =>
    cases c with
    | declare name => exact congrArg (given earlier name :: ·) ih
    | resolve name => exact ih
    | push => exact ih
    | pop => exact (used_pop _).trans ih

theorem isFree_iff {calls : List NameCall} {name : Bytes} :
    IsFree calls name ↔ name ∉ (after calls).used := by
  rw [used_after, List.mem_append, not_or, and_comm]
  rfl

/-- No two names that are handed out are the same, and none is reserved. -/
theorem nodup_handedOut (calls : List NameCall) : (handedOut calls ++ reservedWords).Nodup := by
  induction calls with
  | nil => decide +kernel
  | cons c earlier ih =>
    cases c with
    | declare name =>
      have hfresh := fresh_notMem (after earlier).used name
      rw [used_after] at hfresh
      have hgiven : given earlier name ∉ handedOut earlier ++ reservedWords := by
        rw [given, declare, used_after]
        exact hfresh
      exact List.nodup_cons.mpr ⟨hgiven, ih⟩
    | resolve name => exact ih
    | push => exact ih
    | pop => exact ih

theorem length_handedOut_le (calls : List NameCall) : (handedOut calls).length ≤ calls.length := by
  induction calls with
  | nil => exact Nat.le_refl 0
  | cons c earlier ih =>
    cases c with
    | declare name => exact Nat.succ_le_succ ih
    | resolve | push | pop => exact Nat.le_succ_of_le ih

/-- A numbered name is not reserved: it has an underscore. -/
theorem numbered_notMem_reserved (name : Bytes) (k : Nat) : numbered name k ∉ reservedWords := by
  intro h
  have hnone : ∀ word ∈ reservedWords, byte '_' ∉ word := by decide +kernel
  exact hnone _ h (by simp [numbered, ascii, byte])

theorem trial_two {i : Nat} (h : i + 2 < UInt32.size) : trial 2 i = i + 2 := by
  simp only [trial, UInt32.toNat_add, UInt32.toNat_ofNat']
  simp only [UInt32.size] at h
  rw [Nat.mod_eq_of_lt (a := i) (by omega)]
  show (2 + i) % 4294967296 = i + 2
  omega

private theorem trial_inj {i j : Nat} (hi : i < UInt32.size) (hj : j < UInt32.size)
    (h : trial 2 i = trial 2 j) : i = j := ofNat_inj_of_add hi hj (UInt32.toNat_inj.mp h)

/-- Of more numbered names than were handed out, one is free. -/
theorem exists_isFree (calls : List NameCall) (name : Bytes) {m : Nat}
    (hmany : (handedOut calls).length < m) (hm : m ≤ UInt32.size) :
    ∃ i < m, IsFree calls (numbered name (trial 2 i)) := by
  by_contra hnone
  let tried := (List.range m).map fun i => numbered name (trial 2 i)
  have hnodup : tried.Nodup := by
    refine List.Nodup.map_on (fun i hi j hj hij => ?_) List.nodup_range
    rw [List.mem_range] at hi hj
    exact trial_inj (by omega) (by omega) (numbered_inj hij)
  have hsubset : tried ⊆ handedOut calls := by
    intro x hx
    obtain ⟨i, hi, rfl⟩ := List.mem_map.mp hx
    by_contra hout
    exact hnone ⟨i, List.mem_range.mp hi, numbered_notMem_reserved name _, hout⟩
  have hlength := hnodup.length_le_of_subset hsubset
  simp only [tried, List.length_map, List.length_range] at hlength
  omega

theorem given_getsNext {calls : List NameCall} (hfew : calls.length + 1 < UInt32.size) (name : Bytes) :
    GetsNext calls name (given calls name) := by
  have hgiven : given calls name = fresh (after calls).used name := rfl
  constructor
  · intro hfree
    rw [hgiven, fresh, if_neg (by simpa using isFree_iff.mp hfree)]
  · intro hused
    rw [isFree_iff, Decidable.not_not] at hused
    rw [hgiven, fresh, if_pos (by simpa using hused)]
    cases hfirst : firstFree? (after calls).used name UInt32.size 2 with
    | none =>
      have hhanded := length_handedOut_le calls
      obtain ⟨i, hi, hfree⟩ := exists_isFree calls name (by omega) (Nat.le_refl _)
      exact absurd (firstFree?_eq_none hfirst i hi) (isFree_iff.mp hfree)
    | some output =>
      obtain ⟨i, hi, houtput, hnot, hless⟩ := firstFree?_eq_some hfirst
      refine ⟨i, hi, houtput, isFree_iff.mpr hnot, fun j hj hfree => ?_⟩
      exact isFree_iff.mp hfree (hless j hj)

/-- With two words to spare the search does not come to the last one. -/
theorem given_getsFree {calls : List NameCall} (hfew : calls.length + 1 < UInt32.size - 1)
    (name : Bytes) : GetsFree calls name (given calls name) := by
  have hfew' : calls.length + 1 < UInt32.size := by omega
  obtain ⟨hown, hnumbered⟩ := given_getsNext hfew' name
  refine ⟨hown, fun hused => ?_⟩
  obtain ⟨i, -, houtput, hfree, hless⟩ := hnumbered hused
  have hhanded := length_handedOut_le calls
  obtain ⟨m, hm, hspare⟩ := exists_isFree calls name (m := UInt32.size - 2) (by omega)
    (by omega)
  have hi : i ≤ m := by
    by_contra hlt
    exact hless m (by omega) hspare
  refine ⟨i + 2, by omega, ?_, hfree, fun j hj hlt => ?_⟩
  · rw [houtput, trial_two (by omega)]
  · have hbefore := hless (j - 2) (by omega)
    rwa [trial_two (by omega), Nat.sub_add_cancel hj] at hbefore

/-! ## Declarations that stand -/

section Standing

variable {calls earlier : List NameCall} {c : NameCall} {name : Bytes}

theorem Stands.openScopes_le (h : Stands calls name earlier) :
    openScopes earlier ≤ openScopes calls :=
  h.isOpen calls (List.suffix_refl calls) ((List.suffix_cons _ _).trans h.made)

theorem Stands.length_lt (h : Stands calls name earlier) : earlier.length < calls.length := by
  have hle := h.made.length_le
  rwa [List.length_cons] at hle

/-- A declaration stands after one more call if it is that call, or if it stood and its scope is not
left. -/
theorem stands_cons_iff : Stands (c :: calls) name earlier ↔
    c = .declare name ∧ earlier = calls ∨
      Stands calls name earlier ∧ openScopes earlier ≤ openScopes (c :: calls) := by
  constructor
  · intro h
    rcases List.suffix_cons_iff.mp h.made with hnew | hold
    · obtain ⟨rfl, rfl⟩ := List.cons.inj hnew
      exact .inl ⟨rfl, rfl⟩
    · refine .inr ⟨⟨hold, fun moment hm he => ?_⟩, h.openScopes_le⟩
      exact h.isOpen moment (hm.trans (List.suffix_cons _ _)) he
  · rintro (⟨rfl, rfl⟩ | ⟨hstands, hle⟩)
    · refine ⟨List.suffix_refl _, fun moment hm he => ?_⟩
      rcases List.suffix_cons_iff.mp hm with rfl | hm
      · exact Nat.le_refl _
      · exact Nat.le_of_eq (congrArg openScopes (he.eq_of_length_le hm.length_le))
    · refine ⟨hstands.made.trans (List.suffix_cons _ _), fun moment hm he => ?_⟩
      rcases List.suffix_cons_iff.mp hm with rfl | hm
      · exact hle
      · exact hstands.isOpen moment hm he

/-- The call declares nothing that matters here, and leaves no scope that does. -/
theorem stands_cons_iff_of (hnew : c = .declare name → earlier ≠ calls)
    (hle : Stands calls name earlier → openScopes earlier ≤ openScopes (c :: calls)) :
    Stands (c :: calls) name earlier ↔ Stands calls name earlier := by
  rw [stands_cons_iff]
  constructor
  · rintro (⟨hc, he⟩ | ⟨hstands, -⟩)
    · exact absurd he (hnew hc)
    · exact hstands
  · exact fun hstands => .inr ⟨hstands, hle hstands⟩

end Standing

/-! ## The scopes of a table, counted from the outermost -/

/-- The scope with so many scopes around it and itself. -/
def levelOf : List (List (Bytes × Bytes)) → Nat → List (Bytes × Bytes)
  | [], _ => []
  | scope :: outer, d => if d = outer.length + 1 then scope else levelOf outer d

theorem levelOf_of_length_lt {scopes : List (List (Bytes × Bytes))} {d : Nat}
    (h : scopes.length < d) : levelOf scopes d = [] := by
  induction scopes with
  | nil => rfl
  | cons scope outer ih =>
    rw [List.length_cons] at h
    rw [levelOf, if_neg (by omega), ih (by omega)]

/-- A name is looked up from the innermost scope on. -/
theorem findSome?_levelOf (scopes : List (List (Bytes × Bytes))) (name : Bytes) :
    (∀ output, scopes.findSome? (·.lookup name) = some output →
      ∃ d, (levelOf scopes d).lookup name = some output ∧
        ∀ d', d < d' → (levelOf scopes d').lookup name = none) ∧
    (scopes.findSome? (·.lookup name) = none → ∀ d, (levelOf scopes d).lookup name = none) := by
  induction scopes with
  | nil => exact ⟨fun output h => (nomatch h), fun _ d => rfl⟩
  | cons scope outer ih =>
    rw [List.findSome?_cons]
    cases hscope : scope.lookup name with
    | some x =>
      refine ⟨fun output h => ⟨outer.length + 1, ?_, fun d' hd' => ?_⟩, fun h => (nomatch h)⟩
      · rw [levelOf, if_pos rfl, hscope]
        exact h
      · rw [levelOf_of_length_lt (by simpa using hd')]
        rfl
    | none =>
      have hlevel (d : Nat) (h : (levelOf outer d).lookup name = none) :
          (levelOf (scope :: outer) d).lookup name = none := by
        rw [levelOf]
        split
        · exact hscope
        · exact h
      refine ⟨fun output h => ?_, fun h d => hlevel d (ih.2 h d)⟩
      obtain ⟨d, hd, hinner⟩ := ih.1 output h
      refine ⟨d, ?_, fun d' hd' => hlevel d' (hinner d' hd')⟩
      rw [levelOf, if_neg ?_, hd]
      rintro rfl
      rw [levelOf_of_length_lt (Nat.lt_succ_self _)] at hd
      cases hd

private theorem length_scopes_pop (t : Names) : t.pop.scopes.length = max 1 (t.scopes.length - 1) := by
  unfold pop
  split <;> rename_i h <;> simp [scopes, h]

/-- As many scopes are open in the table as the calls say. -/
theorem length_scopes_after (calls : List NameCall) :
    (after calls).scopes.length = openScopes calls := by
  induction calls with
  | nil => rfl
  | cons c earlier ih =>
    cases c with
    | declare name => exact ih
    | resolve name => exact ih
    | push => exact congrArg (· + 1) ih
    | pop => rw [after, step, length_scopes_pop, ih, openScopes]

theorem levelOf_declare (t : Names) (name : Bytes) (d : Nat) :
    levelOf (t.declare name).2.scopes d =
      if d = t.scopes.length then (name, (t.declare name).1) :: levelOf t.scopes d
      else levelOf t.scopes d := by
  simp only [scopes, declare, levelOf, List.length_cons]
  split <;> rfl

theorem levelOf_push (t : Names) (d : Nat) :
    levelOf t.push.scopes d = if d = t.scopes.length + 1 then [] else levelOf t.scopes d := rfl

theorem levelOf_pop (t : Names) (d : Nat) :
    levelOf t.pop.scopes d = if d ≤ t.pop.scopes.length then levelOf t.scopes d else [] := by
  split
  · rename_i hd
    unfold pop at hd ⊢
    split
    · rfl
    · rename_i scope outer h
      rw [h] at hd
      have hskip : levelOf (t.innermost :: t.outer) d = levelOf t.outer d := by
        rw [levelOf, if_neg]
        rintro rfl
        simp only [scopes, h, List.length_cons] at hd
        omega
      rw [scopes, scopes, hskip, h]
  · rename_i hd
    exact levelOf_of_length_lt (by omega)

/-! ## What the scopes say -/

/-- Of the declarations of the name that stand with so many scopes open, this is the latest. -/
structure IsTop (calls : List NameCall) (name : Bytes) (d : Nat) (earlier : List NameCall) :
    Prop where
  stands : Stands calls name earlier
  level : openScopes earlier = d
  latest : ∀ other, Stands calls name other → openScopes other = d → other.length ≤ earlier.length

/-- The answer of one scope is what the latest declaration in it was given. -/
def LevelSays (calls : List NameCall) (name : Bytes) (d : Nat) : Option Bytes → Prop
  | some output => ∃ earlier, IsTop calls name d earlier ∧ given earlier name = output
  | none => ∀ earlier, Stands calls name earlier → openScopes earlier ≠ d

theorem LevelSays.congr {calls calls' : List NameCall} {name : Bytes} {d : Nat} {o : Option Bytes}
    (h : LevelSays calls name d o)
    (hsame : ∀ e, openScopes e = d → (Stands calls' name e ↔ Stands calls name e)) :
    LevelSays calls' name d o := by
  cases o with
  | none => exact fun e hstands hd => h e ((hsame e hd).mp hstands) hd
  | some output =>
    obtain ⟨e, htop, hgiven⟩ := h
    refine ⟨e, ⟨(hsame e htop.level).mpr htop.stands, htop.level, fun other ho hd => ?_⟩, hgiven⟩
    exact htop.latest other ((hsame other hd).mp ho) hd

/-- A declaration adds to the innermost scope. -/
theorem LevelSays.declare {earlier : List NameCall} {name : Bytes} {d : Nat}
    (h : LevelSays earlier name d ((levelOf (after earlier).scopes d).lookup name)) (x : Bytes) :
    LevelSays (.declare x :: earlier) name d
      ((levelOf ((after earlier).declare x).2.scopes d).lookup name) := by
  have hle {e : List NameCall} (hstands : Stands earlier name e) :
      openScopes e ≤ openScopes (.declare x :: earlier) := hstands.openScopes_le
  rw [levelOf_declare, length_scopes_after]
  split
  · rename_i hd
    by_cases hx : name = x
    · subst hx
      rw [Scopes.lookup_cons_self]
      refine ⟨earlier, ⟨stands_cons_iff.mpr (.inl ⟨rfl, rfl⟩), hd.symm, fun other ho _ => ?_⟩, rfl⟩
      exact Nat.le_of_lt_succ ho.length_lt
    · rw [Scopes.lookup_cons_ne hx]
      exact h.congr fun e _ => stands_cons_iff_of (fun hc => by cases hc; exact absurd rfl hx) hle
  · rename_i hd
    exact h.congr fun e he => stands_cons_iff_of (fun _ hnew => hd (by rw [← he, hnew])) hle

/-- Every scope of the table answers as the calls say. -/
theorem levelSays_after (calls : List NameCall) (name : Bytes) (d : Nat) :
    LevelSays calls name d ((levelOf (after calls).scopes d).lookup name) := by
  induction calls with
  | nil =>
    have hnone : (levelOf (after []).scopes d).lookup name = none := by
      simp only [after, scopes, levelOf]
      split <;> rfl
    rw [hnone]
    intro e hstands
    exact absurd hstands.length_lt (Nat.not_lt_zero _)
  | cons c earlier ih =>
    cases c with
    | declare x => exact ih.declare x
    | resolve x =>
      exact ih.congr fun e _ => stands_cons_iff_of (fun hc => nomatch hc) Stands.openScopes_le
    | push =>
      have hle {e : List NameCall} (hstands : Stands earlier name e) :
          openScopes e ≤ openScopes (.push :: earlier) :=
        Nat.le_succ_of_le hstands.openScopes_le
      have hsame (e : List NameCall) :
          Stands (.push :: earlier) name e ↔ Stands earlier name e :=
        stands_cons_iff_of (fun hc => nomatch hc) hle
      rw [after, step, levelOf_push, length_scopes_after]
      split
      · -- in the new scope nothing stands: all earlier calls were made in scopes around it
        rename_i hd
        intro e hstands
        have := ((hsame e).mp hstands).openScopes_le
        omega
      · exact ih.congr fun e _ => hsame e
    | pop =>
      have hlength : (after earlier).pop.scopes.length = openScopes (.pop :: earlier) :=
        length_scopes_after (.pop :: earlier)
      rw [after, step, levelOf_pop, hlength]
      split
      · rename_i hd
        exact ih.congr fun e he => stands_cons_iff_of (fun hc => nomatch hc) fun _ => by omega
      · -- nothing stands in a scope that is closed
        rename_i hd
        intro e hstands
        have := hstands.openScopes_le
        omega

/-- A name means what the calls say. -/
theorem resolve?_resolves (calls : List NameCall) (name : Bytes) :
    Resolves calls name ((after calls).resolve? name) := by
  obtain ⟨hfound, hmissing⟩ := findSome?_levelOf (after calls).scopes name
  have hlevel := levelSays_after calls name
  unfold resolve?
  cases hresult : (after calls).scopes.findSome? (·.lookup name) with
  | none =>
    intro e hstands
    have hnone := hlevel (openScopes e)
    rw [hmissing hresult] at hnone
    exact hnone e hstands rfl
  | some output =>
    obtain ⟨d, hd, hinner⟩ := hfound output hresult
    have htop := hlevel d
    rw [hd] at htop
    obtain ⟨e, htop, hgiven⟩ := htop
    refine ⟨e, ⟨htop.stands, fun other ho => ?_, fun other ho hother => ?_⟩, hgiven⟩
    · by_contra hlt
      have hnone := hlevel (openScopes other)
      rw [hinner _ (by have := htop.level; omega)] at hnone
      exact hnone other ho rfl
    · exact htop.latest other ho (hother.trans htop.level)

/-- The outermost scope stays. -/
theorem pop_after (calls : List NameCall) (h : openScopes calls = 1) :
    (after calls).pop = after calls := by
  rw [← length_scopes_after, scopes, List.length_cons, Nat.add_eq_right, List.length_eq_zero_iff]
    at h
  rw [pop, h]

end Names

/-! ## What an output declares -/

/-- Something that the output declares: what the program declares, or the bound of a loop. -/
inductive Declarator where
  | declaration (d : Declaration)
  | bound
deriving DecidableEq, Repr

/-- What a piece declares, if it introduces a name. -/
def Piece.declarator? : Piece → Option Declarator
  | .declared named => some (.declaration named.declaration)
  | .bound _ => some .bound
  | _ => none

/-- What the pieces declare, in order. -/
def Piece.declarators (pieces : List Piece) : List Declarator :=
  (introducing pieces).filterMap declarator?

/-- A loop declares its counter, and a name for its bound unless that is a literal. -/
def loopDeclarators (counter : Identifier) (bound : Expr) : List Declarator :=
  .declaration ⟨.loopVariable, counter.name, counter.loc⟩ ::
    if Script.isLiteralBound bound then [] else [.bound]

mutual

/-- What a statement has to declare, in order. -/
def Stmt.declarators : Stmt → List Declarator
  | .block _ body => Stmt.declaratorsList body
  | .assign _ target _ declares =>
    if declares then [.declaration ⟨.assigned, target.name, target.loc⟩] else []
  | .function loc name params _ body _ =>
    .declaration ⟨.function, name, loc⟩ ::
      (params.map fun x => .declaration ⟨.parameter, x, loc⟩) ++ Stmt.declaratorsList body
  | .branch _ _ _ thenBody alternate => Stmt.declaratorsList thenBody ++ alternate.declarators
  | .loop _ counter _ bound _ body => loopDeclarators counter bound ++ Stmt.declaratorsList body
  | .print .. | .serve .. | .leave _ | .comment .. | .expression .. => []

def Alternate.declarators : Alternate → List Declarator
  | .none => []
  | .block _ body => Stmt.declaratorsList body
  | .branch _ _ _ thenBody alternate => Stmt.declaratorsList thenBody ++ alternate.declarators

def Stmt.declaratorsList : List Stmt → List Declarator
  | [] => []
  | s :: ss => s.declarators ++ Stmt.declaratorsList ss

end

open Piece (introducing introduced)

@[simp] theorem Naming.declaration_declare (st : Naming) (d : Declaration) :
    (st.declare d).1.declaration = d := rfl

theorem Naming.declaration_declareAll (st : Naming) (ds : List Declaration) :
    (st.declareAll ds).1.map (·.declaration) = ds := by
  induction ds generalizing st with
  | nil => rfl
  | cons d ds ih => exact congrArg (d :: ·) (ih (st.declare d).2)

theorem declarators_functionHeadPieces (st : Naming) (loc : Location) (name : Bytes)
    (params : List Bytes) :
    (introducing (functionHeadPieces st loc name params).1).filterMap Piece.declarator? =
      .declaration ⟨.function, name, loc⟩ ::
        params.map fun x => .declaration ⟨.parameter, x, loc⟩ := by
  have hparams := (st.declare ⟨.function, name, loc⟩).2.push.declaration_declareAll
    (params.map (⟨.parameter, ·, loc⟩))
  have hmap := congrArg (List.map Declarator.declaration) hparams
  simp only [List.map_map, Function.comp_def] at hmap
  simp [functionHeadPieces, introducing_params, Piece.declarator?, List.filterMap_map,
    Function.comp_def, hmap]

theorem declarators_loopHeadPieces (st : Naming) (counter : Identifier) (bound : Expr) :
    (introducing (loopHeadPieces st counter bound).1).filterMap Piece.declarator? =
      loopDeclarators counter bound := by
  by_cases hbound : Script.isLiteralBound bound <;>
    simp [loopHeadPieces, loopDeclarators, hbound, Piece.declarator?]

theorem declarators_assignmentPieces (st : Naming) (target : Identifier) (value : Expr)
    (declares : Bool) :
    (introducing (assignmentPieces st target value declares).1).filterMap Piece.declarator? =
      if declares then [.declaration ⟨.assigned, target.name, target.loc⟩] else [] := by
  cases declares <;> simp [assignmentPieces, Piece.declarator?]

mutual

/-- The output declares what the program has to declare, and nothing else. -/
theorem Stmt.declarators_pieces (depth : Nat) (st : Naming) :
    (s : Stmt) → Piece.declarators (s.pieces depth st).1.flatten = s.declarators
  | .block _ body => by
    simpa [Piece.declarators, Stmt.pieces, Stmt.declarators] using
      Stmt.declarators_piecesList (depth + 1) st.push body
  | .assign _ target value declares => by
    simpa [Piece.declarators, Stmt.pieces, Stmt.declarators] using
      declarators_assignmentPieces st target value declares
  | .print .. | .serve .. | .expression .. | .leave _ | .comment .. => by
    simp [Piece.declarators, Stmt.pieces, Stmt.declarators]
  | .function loc name params _ body _ => by
    have hhead := declarators_functionHeadPieces st loc name params
    have hbody := Stmt.declarators_piecesList (depth + 1) (functionHeadPieces st loc name params).2
      body
    rw [Piece.declarators] at hbody
    simp [Piece.declarators, Stmt.pieces, Stmt.declarators, hhead, hbody]
  | .branch _ condition _ thenBody alternate => by
    have hthen := Stmt.declarators_piecesList (depth + 1) st.push thenBody
    have helse := alternate.declarators_pieces depth (Stmt.piecesList (depth + 1) st.push thenBody).2.pop
    rw [Piece.declarators] at hthen helse
    simp [Piece.declarators, Stmt.pieces, Stmt.declarators, hthen, helse]
  | .loop _ counter _ bound _ body => by
    have hhead := declarators_loopHeadPieces st counter bound
    have hbody := Stmt.declarators_piecesList (depth + 1) (loopHeadPieces st counter bound).2 body
    rw [Piece.declarators] at hbody
    simp [Piece.declarators, Stmt.pieces, Stmt.declarators, hhead, hbody]

theorem Alternate.declarators_pieces (depth : Nat) (st : Naming) :
    (a : Alternate) → Piece.declarators (a.pieces depth st).1.flatten = a.declarators
  | .none => by simp [Piece.declarators, Alternate.pieces, Alternate.declarators]
  | .block _ body => by
    simpa [Piece.declarators, Alternate.pieces, Alternate.declarators] using
      Stmt.declarators_piecesList (depth + 1) st.push body
  | .branch _ condition _ thenBody alternate => by
    have hthen := Stmt.declarators_piecesList (depth + 1) st.push thenBody
    have helse := alternate.declarators_pieces depth (Stmt.piecesList (depth + 1) st.push thenBody).2.pop
    rw [Piece.declarators] at hthen helse
    simp [Piece.declarators, Alternate.pieces, Alternate.declarators, hthen, helse]

theorem Stmt.declarators_piecesList (depth : Nat) (st : Naming) :
    (ss : List Stmt) →
      Piece.declarators (Stmt.piecesList depth st ss).1.flatten = Stmt.declaratorsList ss
  | [] => rfl
  | s :: ss => by
    have hs := s.declarators_pieces depth st
    have hss := Stmt.declarators_piecesList depth (s.pieces depth st).2 ss
    rw [Piece.declarators] at hs hss
    simp [Piece.declarators, Stmt.piecesList, Stmt.declaratorsList, hs, hss]

end

/-- The output of a program is made of pieces that declare what the program has to declare, under
names that are all different and not reserved. -/
def Program.DeclaresDistinct (p : Program) : Prop :=
  generate p (ascii "js") = .ok (Bytes.join (ascii "\n") (p.annotated.map Piece.render)) ∧
    Piece.declarators p.pieces = Stmt.declaratorsList p.statements ∧
    (introduced p.pieces).Nodup ∧ ∀ x ∈ introduced p.pieces, x ∉ reservedWords

theorem Program.declaresDistinct (p : Program) : p.DeclaresDistinct := by
  refine ⟨?_, Stmt.declarators_piecesList 0 {} p.statements, ?_⟩
  · rw [generate, if_neg (by decide), if_pos rfl, p.render_annotated]
  · obtain ⟨hnodup, -, hdisjoint⟩ := List.nodup_append.mp p.nodup_introduced
    exact ⟨hnodup, fun x hx hreserved => hdisjoint x hx x hreserved rfl⟩

/-- A table of names never hands out a name that clashes with another, and so the names that an
output declares are all different. -/
theorem names_never_clash :
    (∀ calls : List NameCall,
      (Names.handedOut calls).Nodup ∧ (∀ x ∈ Names.handedOut calls, x ∉ reservedWords) ∧
      (calls.length + 1 < UInt32.size →
        ∀ name, Names.GetsNext calls name (Names.given calls name)) ∧
      (calls.length + 1 < UInt32.size - 1 →
        ∀ name, Names.GetsFree calls name (Names.given calls name)) ∧
      (∀ name, Names.Resolves calls name ((Names.after calls).resolve? name)) ∧
      (Names.after calls).depth = Names.openScopes calls ∧
      (Names.openScopes calls = 1 → (Names.after calls).pop = Names.after calls)) ∧
    ∀ p : Program, p.DeclaresDistinct ∧ p.optimize.DeclaresDistinct := by
  refine ⟨fun calls => ?_, fun p => ⟨p.declaresDistinct, p.optimize.declaresDistinct⟩⟩
  obtain ⟨hnodup, -, hdisjoint⟩ := List.nodup_append.mp (Names.nodup_handedOut calls)
  exact ⟨hnodup, fun x hx hreserved => hdisjoint x hx x hreserved rfl, Names.given_getsNext,
    Names.given_getsFree, Names.resolve?_resolves calls, Names.length_scopes_after calls,
    Names.pop_after calls⟩

/-- A name is declared three times, once in a scope that is left again, and a name that looks like the
second one is declared in between. -/
def reusedNameCalls : List NameCall :=
  [.pop, .declare (ascii "x"), .pop, .declare (ascii "x_3"), .declare (ascii "x"), .push,
    .declare (ascii "x")]

theorem reusedNameCalls_never_clash :
    (Names.handedOut reusedNameCalls).Nodup ∧
      Names.GetsFree reusedNameCalls (ascii "x_2") (ascii "x_2_2") ∧
      Names.handedOut reusedNameCalls =
        [ascii "x_4", ascii "x_3", ascii "x_2", ascii "x"] ∧
      Names.Resolves reusedNameCalls (ascii "x") (some (ascii "x_4")) ∧
      Names.Resolves reusedNameCalls (ascii "x_3") none ∧
      Names.openScopes reusedNameCalls = 1 ∧
      (Names.after reusedNameCalls).pop = Names.after reusedNameCalls := by
  obtain ⟨hnodup, -, -, hfree, hresolves, -, hpop⟩ := names_never_clash.1 reusedNameCalls
  have hgiven : Names.given reusedNameCalls (ascii "x_2") = ascii "x_2_2" := by decide +kernel
  have hx : (Names.after reusedNameCalls).resolve? (ascii "x") = some (ascii "x_4") := by
    decide +kernel
  have hleft : (Names.after reusedNameCalls).resolve? (ascii "x_3") = none := by decide +kernel
  have hopen : Names.openScopes reusedNameCalls = 1 := by decide +kernel
  exact ⟨hnodup, hgiven ▸ hfree (by decide) (ascii "x_2"), by decide +kernel,
    hx ▸ hresolves (ascii "x"), hleft ▸ hresolves (ascii "x_3"),
    hopen, hpop hopen⟩

/-! ## Spent numbers -/

namespace Names

/-- The first `n` numbers of a reserved word, from two on, are names of their own. -/
def spendNumbers : Nat → List NameCall
  | 0 => []
  | n + 1 => .declare (numbered (ascii "let") (n + 2)) :: spendNumbers n

theorem length_spendNumbers (n : Nat) : (spendNumbers n).length = n := by
  induction n with
  | zero => rfl
  | succ n ih => rw [spendNumbers, List.length_cons, ih]

/-- Each of them is free when it is declared. -/
theorem mem_handedOut_spendNumbers {n : Nat} (hn : n + 1 < UInt32.size) (x : Bytes) :
    x ∈ handedOut (spendNumbers n) ↔ ∃ i < n, x = numbered (ascii "let") (i + 2) := by
  induction n generalizing x with
  | zero => simp [spendNumbers, handedOut]
  | succ n ih =>
    have hfree : IsFree (spendNumbers n) (numbered (ascii "let") (n + 2)) := by
      refine ⟨numbered_notMem_reserved _ _, fun hmem => ?_⟩
      obtain ⟨i, hi, heq⟩ := (ih (by omega) _).mp hmem
      have := numbered_inj heq
      omega
    have hgiven := (given_getsNext (by rw [length_spendNumbers]; omega) _).1 hfree
    rw [spendNumbers, handedOut, hgiven, List.mem_cons, ih (by omega) x]
    constructor
    · rintro (rfl | ⟨i, hi, rfl⟩)
      · exact ⟨n, by omega, rfl⟩
      · exact ⟨i, by omega, rfl⟩
    · rintro ⟨i, hi, rfl⟩
      by_cases heq : i = n
      · exact .inl (by rw [heq])
      · exact .inr ⟨i, by omega, rfl⟩

/-- Once the numbers from two on are spent, the next one is zero. -/
theorem given_spendNumbers {n : Nat} (hn : n + 2 = UInt32.size) :
    given (spendNumbers n) (ascii "let") = numbered (ascii "let") 0 := by
  have hfew : (spendNumbers n).length + 1 < UInt32.size := by rw [length_spendNumbers]; omega
  have hreserved : ascii "let" ∈ reservedWords := by decide +kernel
  obtain ⟨i, hi, houtput, hfree, hless⟩ := (given_getsNext hfew (ascii "let")).2 fun h => h.1 hreserved
  have hmem := mem_handedOut_spendNumbers (n := n) (by omega)
  have hzero : trial 2 n = 0 := by
    obtain rfl : n = 4294967294 := by simpa [UInt32.size] using hn
    rfl
  obtain rfl : i = n := by
    rcases Nat.lt_trichotomy i n with hlt | heq | hgt
    · -- the numbers below are handed out
      refine absurd ((hmem _).mpr ⟨i, hlt, ?_⟩) hfree.2
      rw [houtput, trial_two (by omega)]
    · exact heq
    · -- zero is not
      refine absurd ⟨numbered_notMem_reserved _ _, fun hout => ?_⟩ (hless n hgt)
      obtain ⟨j, -, hj⟩ := (hmem _).mp hout
      have := numbered_inj hj
      omega
  rw [houtput, hzero]

end Names

/-- A comment over two lines, of which the second is no comment in the output. -/
def declaringComment : Program := ⟨[.comment {} (ascii "note\nlet x = 1; let x = 2;")]⟩

/-- After all numbers from two on the next number of a reserved word is zero, which is not the least free
one from two on. And a comment over several lines leaves text that can declare a name twice. -/
theorem spentNumbers_wrap :
    ((Names.spendNumbers (UInt32.size - 2)).length + 1 < UInt32.size ∧
      Names.given (Names.spendNumbers (UInt32.size - 2)) (ascii "let") = ascii "let_0" ∧
      ¬ Names.GetsFree (Names.spendNumbers (UInt32.size - 2)) (ascii "let")
        (Names.given (Names.spendNumbers (UInt32.size - 2)) (ascii "let"))) ∧
    generate declaringComment (ascii "js") = .ok (ascii "// note\nlet x = 1; let x = 2;") := by
  have hgiven := Names.given_spendNumbers (n := UInt32.size - 2) (by decide)
  refine ⟨⟨?_, hgiven, ?_⟩, by rfl⟩
  · rw [Names.length_spendNumbers]
    decide
  · rw [hgiven]
    intro hfree
    obtain ⟨k, hk, heq, -⟩ := hfree.2 fun h => h.1 (by decide +kernel)
    have := Names.numbered_inj heq
    omega

end Roar
