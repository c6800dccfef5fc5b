import Roar.Proofs.Token.Stream

/-!
# Looking ahead

A reader can be asked for its next token with or without taking it, in any order (`Reader.Call`,
`Reader.performAll`). Reading ahead moves the scanner before the token is taken, and with it all that
decides what a dash means and which strings are open. This makes no difference: after any calls the
reader is the one of as many `next` calls alone, or that reader one token further with this token
pending (`Reader.Tracks`). `Tracks.perform` is what one call does to it and `Tracks.performAll` what any
number of calls do. The result is `peeking_inert`.
-/

namespace Roar.Reader

/-- What a reader can be asked for. -/
inductive Call where
  | peek
  | next
deriving DecidableEq, Repr

/-- One call. -/
def perform (r : Reader) : Call → Token × Reader
  | .peek => r.peek
  | .next => r.next

/-- One call after the other, with the answers. -/
def performAll (r : Reader) : List Call → List Token × Reader
  | [] => ([], r)
  | call :: calls =>
    ((r.perform call).1 :: ((r.perform call).2.performAll calls).1,
      ((r.perform call).2.performAll calls).2)

/-- So many tokens taken, and no other call. -/
def nexts (n : Nat) : List Call := List.replicate n .next

/-- Of the answers to some calls, the tokens that were taken. -/
def takenTokens : List Call → List Token → List Token
  | .next :: calls, t :: answers => t :: takenTokens calls answers
  | .peek :: calls, _ :: answers => takenTokens calls answers
  | _, _ => []

/-- How many tokens have been read after some calls: those that were taken, and one more if the last
call has only looked at its token. -/
def produced (calls : List Call) : Nat :=
  calls.count .next + (calls.getLast? == some .peek).toNat

/-! ## One call -/

/-- The token that a reader gives after `k` others. -/
def tokenAt (s : Reader) (k : Nat) : Token := (taken k s).next.1

/-- The reader is `s` after `k` tokens were taken, perhaps with the next one read ahead. -/
inductive Tracks (s : Reader) (k : Nat) : Bool → Reader → Prop
  | level : Tracks s k false (taken k s)
  | ahead : Tracks s k true { taken (k + 1) s with pending := some (s.tokenAt k) }

variable {s r : Reader} {k : Nat} {ahead : Bool}

theorem Tracks.start : Tracks s 0 false s := .level

theorem Tracks.eq_taken (h : Tracks s k false r) : r = taken k s := by
  cases h
  rfl

theorem taken_succ (k : Nat) (s : Reader) : taken (k + 1) s = (taken k s).next.2 := taken_add k 1 s

private theorem fetch_taken (h : s.pending = none) (k : Nat) :
    (taken k s).fetch = (s.tokenAt k, taken (k + 1) s) := by
  rw [taken_succ, ← next_eq_fetch (pending_taken h k)]
  rfl

theorem Tracks.peek (h : s.pending = none) (ht : Tracks s k ahead r) :
    r.peek.1 = s.tokenAt k ∧ Tracks s k true r.peek.2 := by
  cases ht with
  | level =>
    unfold Reader.peek
    rw [pending_taken h k, fetch_taken h k]
    exact ⟨rfl, .ahead⟩
  | ahead => exact ⟨rfl, .ahead⟩

/-- Taking the pending token changes nothing else. -/
theorem next_of_pending (h : r.pending = none) (t : Token) :
    { r with pending := some t }.next = (t, r) := by
  cases r
  cases h
  rfl

theorem Tracks.next (h : s.pending = none) (ht : Tracks s k ahead r) :
    r.next.1 = s.tokenAt k ∧ Tracks s (k + 1) false r.next.2 := by
  cases ht with
  | level => exact ⟨rfl, taken_succ k s ▸ .level⟩
  | ahead =>
    rw [next_of_pending (pending_taken h (k + 1))]
    exact ⟨rfl, .level⟩

/-- Either call answers with the token that follows those taken; only `next` takes it. -/
theorem Tracks.perform (h : s.pending = none) (ht : Tracks s k ahead r) (call : Call) :
    (r.perform call).1 = s.tokenAt k ∧
      Tracks s (k + if call == .next then 1 else 0) (call == .peek) (r.perform call).2 := by
  cases call with
  | peek => exact ht.peek h
  | next => exact ht.next h

theorem Tracks.report (h : Tracks s k ahead r) : r.report = (taken (k + ahead.toNat) s).report := by
  cases h <;> rfl

/-! ## Any number of calls -/

/-- Every call is answered with the token that follows those taken before it, and the reader has read
ahead if the last call did. -/
theorem Tracks.performAll (h : s.pending = none) (ht : Tracks s k ahead r) (calls : List Call) :
    (∀ i, (r.performAll calls).1[i]? =
        calls[i]?.map fun _ => s.tokenAt (k + (calls.take i).count .next)) ∧
      Tracks s (k + calls.count .next) (calls.getLast?.elim ahead (· == .peek))
        (r.performAll calls).2 := by
  induction calls generalizing k ahead r with
  | nil => exact ⟨fun i => by simp [Reader.performAll], ht⟩
  | cons call calls ih =>
    obtain ⟨htoken, hstep⟩ := ht.perform h call
    obtain ⟨hanswers, hlast⟩ := ih hstep
    have hcount (rest : List Call) : k + (call :: rest).count .next =
        (k + if call == .next then 1 else 0) + rest.count .next := by
      rw [List.count_cons, Nat.add_comm (rest.count _), Nat.add_assoc]
    constructor
    · intro i
      cases i with
      | zero => simp [Reader.performAll, htoken]
      | succ i =>
        rw [List.take_succ_cons, hcount]
        exact hanswers i
    · rw [hcount]
      cases calls with
      | nil => exact hlast
      | cons => exact hlast

/-- The tokens that are taken follow one another. -/
theorem Tracks.takenTokens_performAll (h : s.pending = none) (ht : Tracks s k ahead r)
    (calls : List Call) :
    takenTokens calls (r.performAll calls).1 =
      (List.range' k (calls.count .next)).map s.tokenAt := by
  induction calls generalizing k ahead r with
  | nil => rfl
  | cons call calls ih =>
    cases call with
    | peek => exact ih (ht.peek h).2
    | next =>
      obtain ⟨htoken, hstep⟩ := ht.next h
      rw [List.count_cons_self, List.range'_succ, List.map_cons, ← ih hstep, ← htoken]
      rfl

section Runs

variable (h : s.pending = none)

include h

theorem tracks_performAll (calls : List Call) :
    Tracks s (calls.count .next) (calls.getLast? == some .peek) (s.performAll calls).2 := by
  have hlast := (Tracks.start.performAll h calls).2
  rw [Nat.zero_add] at hlast
  have hahead : (calls.getLast?.elim false (· == .peek)) = (calls.getLast? == some .peek) := by
    cases calls.getLast? <;> rfl
  rwa [hahead] at hlast

theorem answer_performAll (calls : List Call) (i : Nat) :
    (s.performAll calls).1[i]? =
      calls[i]?.map fun _ => s.tokenAt ((calls.take i).count .next) := by
  have hanswers := (Tracks.start.performAll h calls).1 i
  rwa [Nat.zero_add] at hanswers

private theorem answers_nexts (n : Nat) :
    (s.performAll (nexts n)).1 = (List.range n).map s.tokenAt := by
  apply List.ext_getElem?
  intro i
  rw [answer_performAll h, nexts, List.take_replicate, List.count_replicate_self]
  by_cases hi : i < n
  · simp [hi, Nat.min_eq_left (Nat.le_of_lt hi)]
  · simp [hi]

private theorem performAll_nexts (n : Nat) : (s.performAll (nexts n)).2 = taken n s := by
  have htracks := tracks_performAll h (nexts n)
  have hlast : ((nexts n).getLast? == some .peek) = false := by
    rw [nexts, List.getLast?_replicate]
    split <;> rfl
  rw [hlast, nexts, List.count_replicate_self] at htracks
  exact htracks.eq_taken

end Runs

/-- Looking ahead disturbs nothing, whatever the calls. The tokens taken are the first of those that
`next` alone gives. A token that is looked at is the one that the following `next` gives. What has been
reported is what `next` alone reports while it reads as many tokens, the one looked at included. -/
theorem peeking_inert (source : Bytes) (file : Nat) (calls : List Call) :
    (∀ n, calls.count .next ≤ n →
      takenTokens calls ((start source file).performAll calls).1 =
        ((start source file).performAll (nexts n)).1.take (calls.count .next)) ∧
    (∀ before between after, calls = before ++ .peek :: (between ++ after) → .next ∉ between →
      ((start source file).performAll calls).1[before.length]? =
        some ((start source file).performAll (before ++ .peek :: between)).2.next.1) ∧
    ((start source file).performAll calls).2.report =
      ((start source file).performAll (nexts (produced calls))).2.report := by
  have h : (start source file).pending = none := rfl
  refine ⟨?_, ?_, ?_⟩
  · intro n hn
    rw [Tracks.start.takenTokens_performAll h, answers_nexts h, ← List.map_take, List.take_range,
      Nat.min_eq_left hn, List.range_eq_range']
  · rintro before between after rfl hbetween
    have hnext := ((tracks_performAll h (before ++ .peek :: between)).next h).1
    have hcount : (before ++ .peek :: between).count .next = before.count .next := by
      rw [List.count_append, List.count_cons_of_ne (by decide), List.count_eq_zero.mpr hbetween,
        Nat.add_zero]
    rw [hnext, hcount, answer_performAll h, List.getElem?_append_right (Nat.le_refl _),
      List.take_left, Nat.sub_self]
    rfl
  · rw [(tracks_performAll h calls).report, performAll_nexts h, produced]

end Roar.Reader
