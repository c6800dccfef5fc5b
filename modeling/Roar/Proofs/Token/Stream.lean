import Roar.Proofs.Token.Steps

/-!
# Tokens on demand

A reader gives a token whenever it is asked (`Reader.taken`), also behind a fault and behind the end of
input. `Scanner.stream` is what it gives. It comes to the end of input while the source is being used up
(`Reader.exists_end`), and from then on it changes no more (`Reader.taken_of_end`). What it has reported
are the faults among the tokens that it gave (`Reader.report_taken`).
-/

namespace Roar

namespace Scanner

/-- So many tokens, whatever they are. -/
def stream (n : Nat) (s : Scanner) : List Token := collect (fun _ => false) n s

theorem stream_succ (n : Nat) (s : Scanner) : stream (n + 1) s = s.next.1 :: stream n s.next.2 := rfl

theorem take_stream {k n : Nat} (h : k ≤ n) (s : Scanner) : (stream n s).take k = stream k s := by
  induction n generalizing k s with
  | zero =>
    obtain rfl : k = 0 := by omega
    rfl
  | succ n ih =>
    cases k with
    | zero => rfl
    | succ k => rw [stream_succ, stream_succ, List.take_succ_cons, ih (by omega)]

end Scanner

/-- The faults among tokens, as they are reported. -/
def faults (ts : List Token) : List Diagnostic := ts.filterMap Token.diagnostic?

namespace Reader

/-- The reader after `k` tokens were taken. -/
def taken : Nat → Reader → Reader
  | 0, r => r
  | k + 1, r => taken k r.next.2

variable {r : Reader}

theorem next_eq_fetch (h : r.pending = none) : r.next = r.fetch := by
  unfold next
  rw [h]

theorem scanner_next (h : r.pending = none) : r.next.2.scanner = r.scanner.next.2 := by
  rw [next_eq_fetch h]
  rfl

theorem pending_next (h : r.pending = none) : r.next.2.pending = none := by
  rw [next_eq_fetch h]
  exact h

/-- A reader comes to the end of input after as many tokens as there is weight left, or before. -/
theorem exists_end (h : r.pending = none) :
    ∃ k ≤ r.scanner.weight, (taken k r).next.1.lexeme.isEnd := by
  generalize hw : r.scanner.weight = w
  induction w using Nat.strongRecOn generalizing r with
  | ind w ih =>
    have htoken : r.next.1 = r.scanner.next.1 := by
      rw [next_eq_fetch h]
      rfl
    by_cases hend : r.scanner.next.1.lexeme.isEnd
    · exact ⟨0, Nat.zero_le w, htoken ▸ hend⟩
    · have hlighter : r.next.2.scanner.weight < w := by
        rw [scanner_next h, ← hw]
        apply Scanner.weight_next
        intro heq
        rw [heq] at hend
        exact hend rfl
      obtain ⟨k, hk, hlast⟩ := ih _ hlighter (pending_next h) rfl
      exact ⟨k + 1, by omega, hlast⟩

theorem pending_taken (h : r.pending = none) (k : Nat) : (taken k r).pending = none := by
  induction k generalizing r with
  | zero => exact h
  | succ k ih => exact ih (pending_next h)

theorem taken_add (k j : Nat) (r : Reader) : taken (k + j) r = taken j (taken k r) := by
  induction k generalizing r with
  | zero => rw [Nat.zero_add]; rfl
  | succ k ih => rw [Nat.succ_add]; exact ih r.next.2

/-- A reader that has given the end of input gives it again and stays as it is. -/
theorem next_of_end (h : r.pending = none) (hend : r.next.1.lexeme.isEnd) :
    r.next.2.next = (⟨.endOfInput, [], r.next.2.scanner.location, []⟩, r.next.2) := by
  rw [next_eq_fetch (pending_next h), next_eq_fetch h]
  rw [next_eq_fetch h] at hend
  have hstays : r.scanner.next.2.next = (⟨.endOfInput, [], r.scanner.next.2.location, []⟩, _) :=
    Scanner.next_of_end hend
  simp only [fetch, hstays]
  rfl

private theorem taken_of_fixed {t : Token} (h : r.next = (t, r)) (k : Nat) : taken k r = r := by
  induction k with
  | zero => rfl
  | succ k ih =>
    simp only [taken, h]
    exact ih

/-- After the end of input, a reader changes no more. -/
theorem taken_of_end {k j : Nat} (h : r.pending = none) (hend : (taken k r).next.1.lexeme.isEnd)
    (hj : k < j) :
    taken j r = taken (k + 1) r ∧
      (taken j r).next = (⟨.endOfInput, [], (taken j r).scanner.location, []⟩, taken j r) := by
  have hlast : taken (k + 1) r = (taken k r).next.2 := taken_add k 1 r
  have hfixed := next_of_end (pending_taken h k) hend
  rw [← hlast] at hfixed
  obtain ⟨i, rfl⟩ : ∃ i, j = k + 1 + i := ⟨j - (k + 1), by omega⟩
  have hstays : taken (k + 1 + i) r = taken (k + 1) r := by
    rw [taken_add, taken_of_fixed hfixed]
  rw [hstays]
  exact ⟨rfl, hfixed⟩

theorem report_next (h : r.pending = none) :
    r.next.2.report.entries = r.report.entries ++ faults [r.scanner.next.1] := by
  rw [next_eq_fetch h]
  cases hd : r.scanner.next.1.diagnostic? with
  | none => simp [fetch, faults, hd]
  | some d => simp [fetch, faults, hd, Report.add]

/-- A reader reports the faults among the tokens that it gives, in their order. -/
theorem report_taken (h : r.pending = none) (k : Nat) :
    (taken k r).report.entries = r.report.entries ++ faults (Scanner.stream k r.scanner) := by
  induction k generalizing r with
  | zero => simp [taken, Scanner.stream, Scanner.collect, faults]
  | succ k ih =>
    rw [taken, ih (pending_next h), report_next h, scanner_next h, Scanner.stream_succ,
      List.append_assoc]
    unfold faults
    rw [← List.filterMap_append]
    rfl

end Reader

end Roar
