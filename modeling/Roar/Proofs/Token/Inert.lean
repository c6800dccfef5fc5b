import Roar.Proofs.Token.LookAhead

/-!
# Comments between tokens

A comment is put between two tokens of a source, with blanks around it, and the tokens of both
sources are compared, but for their places and comments (`Token.bare`). Two scanners go over the
sources side by side: up to the comment one has it before it and the other has not (`Inserted`),
behind the comment they have the same before them (`Same`).

* `Inserted.next`, `Inserted.next_here`, `Same.next`: they give the same token, before the comment
  only if a dash keeps its meaning (`KeepsDash`).
* `bareTokens_inserted_iff`: they give the same tokens to the end if and only if every dash before
  the comment does so.
* `keepsDash_commented_iff`: which dashes a plain comment leaves their meaning (`ClosesBefore`).
* `comment_inert_iff`: where a comment leaves the tokens of a source as they are.
-/

namespace Roar

open Byte

/-! ## Gaps with more in them -/

theorem Blank.append {gap more : Bytes} (h : Blank gap) (hmore : Blank more) : Blank (gap ++ more) := by
  induction h with
  | nil => exact hmore
  | white hc _ ih => exact .white hc ih
  | comment htext _ ih =>
    rw [List.cons_append, List.append_assoc, List.cons_append]
    exact .comment htext ih

theorem blank_commented {text : Bytes} (h : byte '~' ∉ text) : Blank (commented text) :=
  .white rfl (.comment h (.white rfl .nil))

/-- A token is read again where there is more before it. -/
theorem ReadsAs.insert {spans : List Span} {afterOperand : Bool} {gap added later : Bytes} {r : Reading}
    (h : ReadsAs spans afterOperand (gap ++ later) r) (outside : inName spans = false)
    (hgap : Blank gap) (hadded : Blank added) :
    ReadsAs spans afterOperand (gap ++ (added ++ later)) r := by
  have hblank {more : Bytes} (hmore : Blank more) : Blank (gap ++ (added ++ more)) :=
    hgap.append (hadded.append hmore)
  generalize hrest : gap ++ later = rest at h
  cases h with
  | word span =>
    rw [span] at outside
    cases outside
  | tail span =>
    rw [span] at outside
    cases outside
  | closing span blank =>
    obtain ⟨more, hmore, rfl⟩ := hgap.exists_rest blank rfl hrest
    rw [← List.append_assoc, ← List.append_assoc, List.append_assoc gap]
    exact .closing span (hblank hmore)
  | @lexeme _ cs c _ blank start inner =>
    have hstart : (c :: cs).head?.any startsGap = false := start
    obtain ⟨more, hmore, rfl⟩ := hgap.exists_rest blank hstart hrest
    rw [← List.append_assoc, ← List.append_assoc, List.append_assoc gap]
    exact .lexeme outside (hblank hmore) start inner
  | ended _ blank =>
    rw [← List.append_nil rest] at hrest
    obtain ⟨more, hmore, rfl⟩ := hgap.exists_rest blank rfl hrest
    rw [List.append_nil]
    exact .ended outside (hblank hmore)

/-! ## Names in strings -/

/-- If a `$name` comes next behind the reading, then its word does. -/
def Reading.Named (r : Reading) : Prop :=
  r.spans.head? = some .name → r.rest.head?.any isIdentifierStart

theorem Reading.Named.of_ne {r : Reading} (h : r.spans.head? ≠ some .name) : r.Named :=
  fun hhead => absurd hhead h

section Named

variable {spans : List Span} (hspans : spans.head? ≠ some .name)

include hspans

theorem named_readString (closed opened : Bytes → Lexeme) (opening rest : Bytes) :
    (readString closed opened spans opening rest).Named := by
  simp only [readString]
  split
  · exact .of_ne hspans
  · rename_i hstop
    exact fun _ => head?_rest_readText rest hstop
  · exact .of_ne (by simp)
  · exact .of_ne hspans
  · exact .of_ne hspans

private theorem head?_openParen : (openParen spans).head? ≠ some .name := by
  unfold openParen
  split
  · simp
  · exact hspans

private theorem head?_closeParen : (closeParen spans).head? ≠ some .name := by
  unfold closeParen
  split
  · simp
  · exact hspans

theorem ReadsLexeme.named {c : UInt8} {cs : Bytes} {r : Reading} (h : ReadsLexeme spans c cs r) :
    r.Named := by
  cases h with
  | word | minus => exact .of_ne hspans
  | number =>
    simp only [readNumber]
    split
    · exact .of_ne hspans
    · exact .of_ne hspans
  | string => exact named_readString hspans _ _ _ _
  | sign h =>
    cases h with
    | single | unexpected => exact .of_ne hspans
    | @equals single double =>
      obtain heq | ⟨ds, -, heq⟩ := readEquals_cases spans c cs single double
      · exact heq ▸ .of_ne hspans
      · exact heq ▸ .of_ne hspans
    | opening => exact .of_ne (head?_openParen hspans)
    | closing => exact .of_ne (head?_closeParen hspans)

end Named

theorem ReadsAs.named {spans : List Span} {afterOperand : Bool} {rest : Bytes} {r : Reading}
    (h : ReadsAs spans afterOperand rest r)
    (hgroups : ∀ span ∈ spans.tail, ∃ depth, span = .group depth) : r.Named := by
  have houter {span : Span} {outer : List Span} (hspans : spans = span :: outer) :
      outer.head? ≠ some .name := by
    intro hhead
    obtain ⟨more, rfl⟩ := List.head?_eq_some_iff.mp hhead
    obtain ⟨depth, hdepth⟩ := hgroups .name (by simp [hspans])
    cases hdepth
  cases h with
  | word => exact .of_ne (by simp [readWord])
  | tail span => exact named_readString (houter span) _ _ _ _
  | closing span => exact named_readString (houter span) _ _ _ _
  | lexeme outside =>
    refine (readLexeme_readsLexeme spans _ _ afterOperand).named fun hhead => ?_
    obtain ⟨outer, rfl⟩ := List.head?_eq_some_iff.mp hhead
    cases outside
  | ended outside =>
    refine .of_ne fun hhead => ?_
    obtain ⟨outer, rfl⟩ := List.head?_eq_some_iff.mp hhead
    cases outside

/-- A token is read from something, if the word of a `$name` that comes next is there. -/
theorem ReadsAs.shorter {spans : List Span} {afterOperand : Bool} {rest : Bytes} {r : Reading}
    (h : ReadsAs spans afterOperand rest r) (hok : r.lexeme.isFault = false)
    (hmore : r.lexeme.isEnd = false)
    (hword : spans.head? = some .name → rest.head?.any isIdentifierStart) :
    r.rest.length < rest.length := by
  have hlonger {text rest more : Bytes} (hcut : text ++ rest = more) (hne : text ≠ []) :
      rest.length < more.length := by
    have := List.length_pos_iff.mpr hne
    rw [← hcut, List.length_append]
    omega
  cases h with
  | @word outer _ span =>
    have hstart := hword (by rw [span]; rfl)
    cases rest with
    | nil => cases hstart
    | cons c cs =>
      exact hlonger List.takeWhile_append_dropWhile (text_readWord_ne_nil (.tail :: outer) hstart cs)
  | tail =>
    rw [readTail, rest_readString]
    exact (readText_rest rest).2 (stop_ne_unterminated hok)
  | @closing _ gap cs =>
    have hle := (readText_rest cs).1
    rw [readTail, rest_readString, List.length_append, List.length_cons]
    omega
  | @lexeme gap cs c outside =>
    have hlt := hlonger (readLexeme_takes outside afterOperand c cs).cut
      (readLexeme_readsLexeme spans c cs afterOperand).text_ne_nil
    rw [List.length_append]
    omega
  | ended => cases hmore

/-! ## Scanners side by side -/

/-- What a token is, apart from its place and from the comments before it. -/
def Token.bare (t : Token) : Lexeme × Bytes := (t.lexeme, t.text)

namespace Scanner

variable {s s' : Scanner}

/-- The two scanners have the same before them, perhaps at different places. -/
structure Same (s s' : Scanner) : Prop where
  rest : s'.rest = s.rest
  spans : s'.spans = s.spans
  operand : s'.afterOperand = s.afterOperand

/-- Scanners that read the same give the same token and are alike behind it. -/
theorem same_of_readsAs {r : Reading} (h : ReadsAs s.spans s.afterOperand s.rest r)
    (h' : ReadsAs s'.spans s'.afterOperand s'.rest r) :
    s'.next.1.bare = s.next.1.bare ∧ Same s.next.2 s'.next.2 := by
  obtain ⟨comments, l, hnext⟩ := h.next
  obtain ⟨comments', l', hnext'⟩ := h'.next
  rw [hnext, hnext']
  exact ⟨rfl, rfl, rfl, rfl⟩

theorem Same.next (h : Same s s') (hok : s.next.1.lexeme.isFault = false) :
    s'.next.1.bare = s.next.1.bare ∧ Same s.next.2 s'.next.2 := by
  obtain ⟨r, hreads, -⟩ := s.next_readsAs hok
  refine same_of_readsAs hreads ?_
  rw [h.rest, h.spans, h.operand]
  exact hreads

theorem collect_succ (last : Lexeme → Bool) (n : ℕ) (s : Scanner) :
    collect last (n + 1) s =
      if last s.next.1.lexeme then [s.next.1] else s.next.1 :: collect last n s.next.2 := rfl

/-- The tokens of a scanner, but for places and comments. -/
def bareTokens (n : ℕ) (s : Scanner) : List (Lexeme × Bytes) := (collect (·.isEnd) n s).map Token.bare

private theorem bareTokens_end {n : ℕ} (h : s.next.1.lexeme.isEnd) :
    bareTokens (n + 1) s = [s.next.1.bare] := by
  rw [bareTokens, collect_succ, if_pos h]
  rfl

theorem bareTokens_cons {n : ℕ} (h : s.next.1.lexeme.isEnd = false) :
    bareTokens (n + 1) s = s.next.1.bare :: bareTokens n s.next.2 := by
  rw [bareTokens, collect_succ, if_neg (by simp [h])]
  rfl

theorem head?_bareTokens (n : ℕ) (s : Scanner) : (bareTokens (n + 1) s).head? = some s.next.1.bare := by
  rw [bareTokens, collect_succ]
  split <;> rfl

/-- Two scanners that give the same token give the same tokens if they do so behind it. -/
theorem bareTokens_succ_eq {n n' : ℕ} (hbare : s'.next.1.bare = s.next.1.bare)
    (hrest : s.next.1.lexeme.isEnd = false → s'.next.1.lexeme.isEnd = false →
      bareTokens n' s'.next.2 = bareTokens n s.next.2) :
    bareTokens (n' + 1) s' = bareTokens (n + 1) s := by
  have hlexeme : s'.next.1.lexeme = s.next.1.lexeme := congrArg Prod.fst hbare
  cases hend : s.next.1.lexeme.isEnd with
  | true => rw [bareTokens_end hend, bareTokens_end (hlexeme ▸ hend), hbare]
  | false =>
    have hend' : s'.next.1.lexeme.isEnd = false := hlexeme ▸ hend
    rw [bareTokens_cons hend, bareTokens_cons hend', hbare, hrest hend hend']

instance (ts : List Token) : Decidable (FaultFree ts) :=
  inferInstanceAs (Decidable (∀ t ∈ ts, t.lexeme.isFault = false))

/-- A scanner with enough fuel for all its tokens, none of which is a fault. -/
structure Runs (n : ℕ) (s : Scanner) : Prop where
  enough : s.weight < n
  clean : FaultFree (collect (·.isEnd) n s)

theorem Runs.first {n : ℕ} (h : Runs n s) : s.next.1.lexeme.isFault = false := by
  obtain ⟨k, rfl⟩ : ∃ k, n = k + 1 := ⟨n - 1, by have := h.enough; omega⟩
  refine h.clean _ ?_
  rw [collect_succ]
  split <;> exact List.mem_cons_self

theorem weight_next_lt {n : ℕ} (henough : s.weight < n + 1) (hmore : s.next.1.lexeme.isEnd = false) :
    s.next.2.weight < n := by
  have hlighter := weight_next s fun h => by
    rw [h] at hmore
    cases hmore
  omega

theorem Runs.next {n : ℕ} (h : Runs (n + 1) s) (hmore : s.next.1.lexeme.isEnd = false) :
    Runs n s.next.2 := by
  refine ⟨weight_next_lt h.enough hmore, fun t ht => h.clean t ?_⟩
  rw [collect_succ, if_neg (by simp [hmore])]
  exact List.mem_cons_of_mem _ ht

theorem bareTokens_same {n n' : ℕ} (h : Same s s') (hruns : Runs n s) (henough : s'.weight < n') :
    bareTokens n' s' = bareTokens n s := by
  induction n generalizing s s' n' with
  | zero => exact absurd hruns.enough (Nat.not_lt_zero _)
  | succ n ih =>
    obtain ⟨n', rfl⟩ : ∃ k, n' = k + 1 := ⟨n' - 1, by omega⟩
    obtain ⟨hbare, hsame⟩ := h.next hruns.first
    exact bareTokens_succ_eq hbare fun hend hend' =>
      ih hsame (hruns.next hend) (weight_next_lt henough hend')

/-! ## Up to the place of the comment -/

/-- What a run without faults keeps: only the innermost span may be that of a `$name`, and its word
comes next. -/
structure Poised (s : Scanner) : Prop where
  groups : ∀ span ∈ s.spans.tail, ∃ depth, span = .group depth
  word : s.spans.head? = some .name → s.rest.head?.any isIdentifierStart

theorem poised_start (source : Bytes) (file : ℕ) : (start source file).Poised :=
  ⟨fun _ h => (by cases h), fun h => (by cases h)⟩

/-- A token leaves the spans around the innermost one as they were, or takes away what was inside. -/
theorem groups_tail_of_move {spans spans' : List Span} {t : Token} (h : SpanMove spans t spans')
    (hgroups : ∀ span ∈ spans.tail, ∃ depth, span = .group depth) :
    ∀ span ∈ spans'.tail, ∃ depth, span = .group depth := by
  cases h with
  | word => exact hgroups
  | finish => exact fun span hspan => hgroups span (List.mem_of_mem_tail hspan)
  | resume => exact hgroups
  | start outside =>
    intro span hspan
    rcases spans with _ | ⟨_ | _ | depth, outer⟩
    · cases hspan
    · cases outside
    · cases outside
    · rcases List.mem_cons.mp hspan with rfl | hspan
      · exact ⟨depth, rfl⟩
      · exact hgroups span hspan
  | openParen =>
    unfold openParen
    split
    · exact hgroups
    · exact hgroups
  | closeParen =>
    unfold closeParen
    split
    · exact hgroups
    · exact hgroups
  | other => exact hgroups

theorem Poised.next (h : s.Poised) (hok : s.next.1.lexeme.isFault = false) : s.next.2.Poised := by
  obtain ⟨r, hreads, comments, l, hnext⟩ := s.next_readsAs hok
  refine ⟨groups_tail_of_move (next_spanMove s hok) h.groups, ?_⟩
  rw [hnext]
  exact hreads.named h.groups

theorem Poised.shorter (h : s.Poised) (hok : s.next.1.lexeme.isFault = false)
    (hmore : s.next.1.lexeme.isEnd = false) : s.next.2.rest.length < s.rest.length := by
  obtain ⟨r, hreads, comments, l, hnext⟩ := s.next_readsAs hok
  rw [hnext] at hok hmore ⊢
  exact hreads.shorter hok hmore h.word

theorem length_rest_after_le (n : ℕ) (s : Scanner) : (s.after n).rest.length ≤ s.rest.length := by
  induction n generalizing s with
  | zero => exact le_rfl
  | succ n ih =>
    obtain ⟨gap, hsteps⟩ := s.next_steps
    have hle : s.next.2.rest.length ≤ s.rest.length := by
      rw [hsteps.source, List.length_append]
      exact Nat.le_add_left _ _
    exact (ih s.next.2).trans hle

/-- After `n` tokens and a gap, and before another token or the end of input, this is left. The place
is not beside the word of a `$name`. -/
structure Arrives (n : ℕ) (later : Bytes) (s : Scanner) : Prop where
  more : ∀ m < n, (s.after m).next.1.lexeme.isEnd = false
  gap : ∃ gap, Blank gap ∧ (s.after n).rest = gap ++ later
  outside : inName (s.after n).spans = false

theorem Arrives.next {n : ℕ} {later : Bytes} (h : Arrives (n + 1) later s) : Arrives n later s.next.2 :=
  ⟨fun m hm => h.more (m + 1) (Nat.succ_lt_succ hm), h.gap, h.outside⟩

theorem Arrives.exists_front {n : ℕ} {later : Bytes} (h : Arrives n later s) :
    ∃ front, s.rest = front ++ later := by
  induction n generalizing s with
  | zero =>
    obtain ⟨gap, -, hrest⟩ := h.gap
    exact ⟨gap, hrest⟩
  | succ n ih =>
    obtain ⟨front, hfront⟩ := ih h.next
    obtain ⟨gap, hsteps⟩ := s.next_steps
    exact ⟨gap ++ s.next.1.text ++ front, by rw [hsteps.source, hfront, List.append_assoc _ front]⟩

/-- The second scanner has the same before it, but for what was added before `later`. -/
structure Inserted (added later : Bytes) (s s' : Scanner) : Prop where
  rest : ∃ front, s.rest = front ++ later ∧ s'.rest = front ++ (added ++ later)
  spans : s'.spans = s.spans
  operand : s'.afterOperand = s.afterOperand

/-- A dash that comes next, behind no operand, keeps its meaning. -/
def KeepsDash (added later : Bytes) (s : Scanner) : Prop :=
  ∀ behind, MeetsDash s.spans s.afterOperand s.rest (behind ++ later) →
    opensString (behind ++ (added ++ later)) = opensString (behind ++ later)

/-- What is left behind a token is more than `later` if the place is further on. -/
theorem Arrives.front_ne_nil {n : ℕ} {later front : Bytes} (h : Arrives (n + 1) later s)
    (hpoised : s.Poised) (hok : s.next.1.lexeme.isFault = false) (hrest : s.rest = front ++ later) :
    front ≠ [] := by
  rintro rfl
  have hshorter := hpoised.shorter hok (h.more 0 (Nat.succ_pos n))
  obtain ⟨gap, -, hgap⟩ := h.gap
  have hle : (s.after (n + 1)).rest.length ≤ s.next.2.rest.length := length_rest_after_le n s.next.2
  rw [hgap, List.length_append] at hle
  rw [hrest, List.nil_append] at hshorter
  omega

/-- Before the place of the addition both scanners give the same token, if a dash keeps its meaning.
-/
theorem Inserted.next {n : ℕ} {added later : Bytes} (h : Inserted (byte ' ' :: added) later s s')
    (hpoised : s.Poised) (harrives : Arrives (n + 1) later s)
    (hok : s.next.1.lexeme.isFault = false)
    (hok' : n ≠ 0 → s.next.2.next.1.lexeme.isFault = false)
    (hkeeps : KeepsDash (byte ' ' :: added) later s) :
    s'.next.1.bare = s.next.1.bare ∧ Inserted (byte ' ' :: added) later s.next.2 s'.next.2 := by
  have hmore : s.next.1.lexeme.isEnd = false := harrives.more 0 (Nat.succ_pos n)
  obtain ⟨r, hreads, comments, l, hnext⟩ := s.next_readsAs hok
  obtain ⟨front, hfront⟩ := harrives.next.exists_front
  -- a name that was opened lies before the place of the addition
  have hname : inName r.spans → (front ++ (byte ' ' :: added ++ later)).head? = r.rest.head? := by
    intro hin
    have hne : front ≠ [] := by
      cases n with
      | zero =>
        have houtside : inName s.next.2.spans = false := harrives.outside
        rw [hnext] at houtside
        exact absurd hin (Bool.eq_false_iff.mp houtside)
      | succ n =>
        exact harrives.next.front_ne_nil (hpoised.next hok) (hok' (Nat.succ_ne_zero n)) hfront
    have hrest : r.rest = front ++ later := by rw [← hfront, hnext]; rfl
    rw [hrest, List.head?_append_of_ne_nil _ hne, List.head?_append_of_ne_nil _ hne]
  rw [hnext] at hok hmore hfront ⊢
  have hrest : r.rest = front ++ later := hfront
  have hends : EndsBefore r.rest (front ++ (byte ' ' :: added ++ later)) :=
    hrest ▸ endsBefore_blank front later (added ++ later)
  obtain ⟨text, htext, hagain⟩ := hreads.withRest hok hmore hends hname fun behind hmeets => by
    rw [hrest] at hmeets ⊢
    have hsame := hkeeps (behind ++ front) (by rwa [List.append_assoc])
    rwa [List.append_assoc, List.append_assoc] at hsame
  obtain ⟨start, hstart, hstart'⟩ := h.rest
  obtain rfl : start = text ++ front := by
    rw [htext, hrest, ← List.append_assoc] at hstart
    exact (List.append_cancel_right hstart).symm
  rw [List.append_assoc] at hstart'
  rw [← hstart', ← h.spans, ← h.operand] at hagain
  obtain ⟨comments', l', hnext'⟩ := hagain.next
  rw [hnext']
  exact ⟨rfl, ⟨front, hrest, rfl⟩, rfl, rfl⟩

/-- At the place of the addition both scanners give the same token, and are alike behind it. -/
theorem Inserted.next_here {added later : Bytes} (h : Inserted added later s s')
    (harrives : Arrives 0 later s) (hadded : Blank added) (hok : s.next.1.lexeme.isFault = false) :
    s'.next.1.bare = s.next.1.bare ∧ Same s.next.2 s'.next.2 := by
  obtain ⟨gap, hgap, hrest⟩ := harrives.gap
  obtain ⟨front, hfront, hfront'⟩ := h.rest
  obtain rfl : front = gap := List.append_cancel_right (hfront.symm.trans hrest)
  obtain ⟨r, hreads, -⟩ := s.next_readsAs hok
  refine same_of_readsAs hreads ?_
  rw [hfront] at hreads
  rw [hfront', h.spans, h.operand]
  exact hreads.insert harrives.outside hgap hadded

/-- A dash behind no operand is a minus sign if no string opens. -/
theorem lexeme_of_meetsDash {behind : Bytes}
    (h : MeetsDash s.spans s.afterOperand s.rest behind) :
    s.next.1.lexeme = .symbol .minus ↔ opensString behind = false := by
  obtain ⟨outside, hoperand, gap, hgap, hrest⟩ := h
  have hreads : ReadsAs s.spans s.afterOperand s.rest
      (readLexeme s.spans s.afterOperand (byte '-') behind) := by
    rw [hrest]
    exact .lexeme outside hgap rfl fun _ => by decide
  obtain ⟨comments, l, hnext⟩ := hreads.next
  rw [hnext, readLexeme_dash_eq, hoperand]
  cases hopens : opensString behind with
  | true =>
    have hne : (readString .string .stringStart s.spans [byte '-'] behind).lexeme ≠ .symbol .minus := by
      simp only [readString]
      split <;> simp
    exact ⟨fun hminus => absurd hminus hne, fun hfalse => by cases hfalse⟩
  | false => exact ⟨fun _ => rfl, fun _ => rfl⟩

/-- Where a dash changes its meaning, the token changes. -/
theorem Inserted.keepsDash {added later : Bytes} (h : Inserted added later s s')
    (hbare : s'.next.1.bare = s.next.1.bare) : KeepsDash added later s := by
  intro behind hmeets
  have hmeets' : MeetsDash s'.spans s'.afterOperand s'.rest (behind ++ (added ++ later)) := by
    obtain ⟨outside, hoperand, gap, hgap, hrest⟩ := hmeets
    obtain ⟨front, hfront, hfront'⟩ := h.rest
    obtain rfl : front = gap ++ byte '-' :: behind := by
      rw [hrest, ← List.cons_append, ← List.append_assoc] at hfront
      exact (List.append_cancel_right hfront).symm
    refine ⟨h.spans ▸ outside, h.operand ▸ hoperand, gap, hgap, ?_⟩
    rw [hfront', List.append_assoc, List.cons_append]
  have hlexeme : s'.next.1.lexeme = s.next.1.lexeme := congrArg Prod.fst hbare
  have hiff := (lexeme_of_meetsDash hmeets').symm.trans
    ((iff_of_eq (congrArg (· = _) hlexeme)).trans (lexeme_of_meetsDash hmeets))
  exact Bool.eq_iff_iff.mpr (by simpa using not_congr hiff)

/-- The addition leaves the tokens as they are if and only if no dash before it changes its meaning.
-/
theorem bareTokens_inserted_iff {n k k' : ℕ} {added later : Bytes}
    (h : Inserted (byte ' ' :: added) later s s') (hadded : Blank (byte ' ' :: added))
    (hpoised : s.Poised) (harrives : Arrives n later s) (hruns : Runs k s) (henough : s'.weight < k') :
    bareTokens k' s' = bareTokens k s ↔ ∀ m < n, KeepsDash (byte ' ' :: added) later (s.after m) := by
  induction n generalizing s s' k k' with
  | zero =>
    refine iff_of_true ?_ fun m hm => absurd hm (Nat.not_lt_zero m)
    obtain ⟨k, rfl⟩ : ∃ j, k = j + 1 := ⟨k - 1, by have := hruns.enough; omega⟩
    obtain ⟨k', rfl⟩ : ∃ j, k' = j + 1 := ⟨k' - 1, by omega⟩
    obtain ⟨hbare, hsame⟩ := h.next_here harrives hadded hruns.first
    exact bareTokens_succ_eq hbare fun hend hend' =>
      bareTokens_same hsame (hruns.next hend) (weight_next_lt henough hend')
  | succ n ih =>
    obtain ⟨k, rfl⟩ : ∃ j, k = j + 1 := ⟨k - 1, by have := hruns.enough; omega⟩
    obtain ⟨k', rfl⟩ : ∃ j, k' = j + 1 := ⟨k' - 1, by omega⟩
    have hmore : s.next.1.lexeme.isEnd = false := harrives.more 0 (Nat.succ_pos n)
    rw [Nat.forall_lt_succ_left]
    by_cases hkeeps : KeepsDash (byte ' ' :: added) later s
    · obtain ⟨hbare, hinserted⟩ := h.next hpoised harrives hruns.first
        (fun _ => (hruns.next hmore).first) hkeeps
      have hmore' : s'.next.1.lexeme.isEnd = false := by
        rw [show s'.next.1.lexeme = s.next.1.lexeme from congrArg Prod.fst hbare]
        exact hmore
      rw [bareTokens_cons hmore, bareTokens_cons hmore', hbare, List.cons_inj_right,
        ih hinserted (hpoised.next hruns.first) harrives.next (hruns.next hmore)
          (weight_next_lt henough hmore')]
      exact (and_iff_right hkeeps).symm
    · refine iff_of_false (fun heq => hkeeps (h.keepsDash ?_)) fun hall => hkeeps hall.1
      have hheads := congrArg List.head? heq
      rw [head?_bareTokens, head?_bareTokens] at hheads
      exact Option.some.inj hheads

/-- There are tokens left before the last one. -/
theorem isEnd_of_lt_length {n k : ℕ} (h : n < (collect (·.isEnd) k s).length) :
    ∀ m < n, (s.after m).next.1.lexeme.isEnd = false := by
  induction n generalizing s k with
  | zero => exact fun m hm => absurd hm (Nat.not_lt_zero m)
  | succ n ih =>
    cases k with
    | zero => cases h
    | succ k =>
      rw [collect_succ] at h
      split at h
      · exact absurd h (by simp)
      · rename_i hmore
        rw [Nat.forall_lt_succ_left]
        exact ⟨Bool.eq_false_iff.mpr hmore, ih (Nat.lt_of_succ_lt_succ h)⟩

/-! ## Plain comments -/

theorem Arrives.after {m n : ℕ} {later : Bytes} (h : Arrives (m + n) later s) :
    Arrives n later (s.after m) := by
  induction m generalizing s with
  | zero => rwa [Nat.zero_add] at h
  | succ m ih =>
    rw [Nat.succ_add] at h
    exact ih h.next

theorem Runs.after {m k : ℕ} (h : Runs k s) (hmore : ∀ j < m, (s.after j).next.1.lexeme.isEnd = false) :
    ∃ k', Runs k' (s.after m) := by
  induction m generalizing s k with
  | zero => exact ⟨k, h⟩
  | succ m ih =>
    obtain ⟨k, rfl⟩ : ∃ j, k = j + 1 := ⟨k - 1, by have := h.enough; omega⟩
    rw [Nat.forall_lt_succ_left] at hmore
    exact ih (h.next hmore.1) hmore.2

/-- The place of the comment is a border. -/
theorem Arrives.border {n : ℕ} {later : Bytes} (h : Arrives (n + 1) later s)
    (hok : (s.after n).next.1.lexeme.isFault = false) :
    ∃ front, s.rest = front ++ later ∧ front ≠ [] ∧ Border front later := by
  induction n generalizing s with
  | zero =>
    have hok : s.next.1.lexeme.isFault = false := hok
    have hmore : s.next.1.lexeme.isEnd = false := h.more 0 Nat.one_pos
    have houtside : inName s.next.2.spans = false := h.outside
    obtain ⟨gap, hgap, hrest⟩ : ∃ gap, Blank gap ∧ s.next.2.rest = gap ++ later := h.gap
    obtain ⟨r, hreads, comments, l, hnext⟩ := s.next_readsAs hok
    rw [hnext] at hok hmore houtside hrest
    obtain ⟨front, hfront, hne, hborder⟩ := hreads.border hok hmore houtside
    have hrest : r.rest = gap ++ later := hrest
    refine ⟨front ++ gap, by rw [hfront, hrest, List.append_assoc], by simp [hne], ?_⟩
    -- either the token or the gap behind it ends at the border
    by_cases hempty : gap = []
    · subst hempty
      rw [hrest, List.nil_append] at hborder
      rwa [List.append_nil]
    · exact (hgap.border hempty).prepend hempty
  | succ n ih =>
    obtain ⟨front, hfront, hne, hborder⟩ := ih h.next hok
    obtain ⟨gap, hsteps⟩ := s.next_steps
    refine ⟨gap ++ s.next.1.text ++ front, ?_, by simp [hne], hborder.prepend hne⟩
    rw [hsteps.source, hfront, List.append_assoc _ front]

/-- The dash that comes next, behind no operand, is a minus sign only because an operand comes behind
the closing dash, which has nothing but blanks between it and `later`. -/
def ClosesBefore (later : Bytes) (s : Scanner) : Prop :=
  ∃ first blanks, MeetsDash s.spans s.afterOperand s.rest (first ++ byte '-' :: (blanks ++ later)) ∧
    (∀ c ∈ blanks, c = byte ' ' ∨ c = byte '\t') ∧
    closingDash? (first ++ byte '-' :: (blanks ++ later)) = some (blanks ++ later) ∧ startsOperand later

theorem keepsDash_commented_iff {text front later : Bytes} (hplain : PlainComment text)
    (hfront : s.rest = front ++ later) (hborder : Border front later) :
    KeepsDash (commented text) later s ↔ ¬ ClosesBefore later s := by
  have hbehind {behind : Bytes} (hmeets : MeetsDash s.spans s.afterOperand s.rest (behind ++ later)) :
      Border behind later := by
    obtain ⟨-, -, gap, -, hrest⟩ := hmeets
    obtain rfl : front = gap ++ byte '-' :: behind := by
      rw [hfront, ← List.cons_append, ← List.append_assoc] at hrest
      exact List.append_cancel_right hrest
    exact hborder.of_append.of_cons
  constructor
  · rintro hkeeps ⟨first, blanks, hmeets, hblanks, hclosing, hoperand⟩
    rw [← List.cons_append, ← List.append_assoc] at hmeets hclosing
    exact (opensString_commented_iff hplain (hbehind hmeets)).mp (hkeeps _ hmeets)
      ⟨first, blanks, rfl, hblanks, hclosing, hoperand⟩
  · intro hnot behind hmeets
    refine (opensString_commented_iff hplain (hbehind hmeets)).mpr ?_
    rintro ⟨first, blanks, rfl, hblanks, hclosing, hoperand⟩
    rw [List.append_assoc, List.cons_append] at hmeets hclosing
    exact hnot ⟨first, blanks, hmeets, hblanks, hclosing, hoperand⟩

/-! ## Comments between the tokens of a source -/

/-- `later` is what is left of the source behind `n` of its tokens and perhaps a gap, and before the
next token or the end of input. The place is not beside the word of a `$name`. -/
structure Boundary (before later : Bytes) (file n : ℕ) : Prop where
  tokens : n < (tokens (before ++ later) file).length
  gap : ∃ gap, Blank gap ∧ ((start (before ++ later) file).after n).rest = gap ++ later
  outside : inName ((start (before ++ later) file).after n).spans = false

theorem Boundary.arrives {before later : Bytes} {file n : ℕ} (h : Boundary before later file n) :
    Arrives n later (start (before ++ later) file) :=
  ⟨isEnd_of_lt_length h.tokens, h.gap, h.outside⟩

theorem weight_start_lt (source : Bytes) (file : ℕ) :
    (start source file).weight < tokenLimit source := by
  rw [weight_start, tokenLimit]
  exact Nat.lt_succ_self _

private theorem runs_start {source : Bytes} {file : ℕ} (h : FaultFree (tokens source file)) :
    Runs (tokenLimit source) (start source file) :=
  ⟨weight_start_lt source file, h⟩

/-- A comment with blanks around it, put between two tokens of a source without faults or behind the
last one, leaves all tokens as they are, but for their places and comments, if and only if each dash
before it that follows no operand keeps its meaning, be it a minus sign or the opening of a string.
If the comment is plain, then this is so unless one of these dashes is a minus sign only because of
an operand right behind the comment. -/
theorem comment_inert_iff {before later text : Bytes} {file n : ℕ} (h : Boundary before later file n)
    (hclean : FaultFree (tokens (before ++ later) file)) (htext : byte '~' ∉ text) :
    ((tokens (before ++ (commented text ++ later)) file).map Token.bare =
        (tokens (before ++ later) file).map Token.bare ↔
      ∀ m < n, KeepsDash (commented text) later ((start (before ++ later) file).after m)) ∧
    (PlainComment text →
      ((tokens (before ++ (commented text ++ later)) file).map Token.bare =
          (tokens (before ++ later) file).map Token.bare ↔
        ∀ m < n, ¬ ClosesBefore later ((start (before ++ later) file).after m))) := by
  have hruns := runs_start hclean
  have hinserted : Inserted (commented text) later (start (before ++ later) file)
      (start (before ++ (commented text ++ later)) file) := ⟨⟨before, rfl, rfl⟩, rfl, rfl⟩
  have hiff := bareTokens_inserted_iff hinserted (blank_commented htext) (poised_start _ file)
    h.arrives hruns (weight_start_lt _ file)
  refine ⟨hiff, fun hplain => hiff.trans (forall₂_congr fun m hm => ?_)⟩
  obtain ⟨j, rfl⟩ : ∃ j, n = m + (j + 1) := ⟨n - m - 1, by omega⟩
  obtain ⟨k, hhere⟩ := hruns.after fun i hi => h.arrives.more i (Nat.lt_add_right (j + 1) hi)
  have harrives := h.arrives.after
  obtain ⟨k', hlast⟩ := hhere.after fun i hi => harrives.more i (Nat.lt_succ_of_lt hi)
  obtain ⟨front, hfront, -, hborder⟩ := harrives.border hlast.first
  exact keepsDash_commented_iff hplain hfront hborder

/-- A comment behind the digit leaves both dashes minus signs. -/
theorem comment_before_minus_inert :
    Boundary (ascii "x = -5") (ascii " - 3") 0 4 ∧
      FaultFree (tokens (ascii "x = -5" ++ ascii " - 3") 0) ∧
      (tokens (ascii "x = -5" ++ (commented (ascii "c") ++ ascii " - 3")) 0).map Token.bare =
        (tokens (ascii "x = -5" ++ ascii " - 3") 0).map Token.bare ∧
      ∀ m < 4, ¬ ClosesBefore (ascii " - 3") ((start (ascii "x = -5" ++ ascii " - 3") 0).after m) := by
  have hboundary : Boundary (ascii "x = -5") (ascii " - 3") 0 4 :=
    ⟨by decide +kernel, ⟨[], .nil, by decide +kernel⟩, by decide +kernel⟩
  have hclean : FaultFree (tokens (ascii "x = -5" ++ ascii " - 3") 0) := by decide +kernel
  have hsame : (tokens (ascii "x = -5" ++ (commented (ascii "c") ++ ascii " - 3")) 0).map Token.bare =
      (tokens (ascii "x = -5" ++ ascii " - 3") 0).map Token.bare := by decide +kernel
  exact ⟨hboundary, hclean, hsame,
    ((comment_inert_iff hboundary hclean (by decide +kernel)).2 (by decide +kernel)).mp hsame⟩

/-- A comment behind the second dash makes a string of what stands between the two. -/
theorem comment_behind_minus_not_inert :
    Boundary (ascii "x = -5 -") (ascii " 3") 0 5 ∧
      FaultFree (tokens (ascii "x = -5 -" ++ ascii " 3") 0) ∧
      byte '~' ∉ ascii "c" ∧ PlainComment (ascii "c") ∧
      (tokens (ascii "x = -5 -" ++ ascii " 3") 0).map Token.text =
        [ascii "x", ascii "=", ascii "-", ascii "5", ascii "-", ascii "3", []] ∧
      (tokens (ascii "x = -5 -" ++ (commented (ascii "c") ++ ascii " 3")) 0).map Token.text =
        [ascii "x", ascii "=", ascii "-5 -", ascii "3", []] := by
  refine ⟨⟨by decide +kernel, ⟨[], .nil, by decide +kernel⟩, by decide +kernel⟩, ?_⟩
  decide +kernel

end Scanner

end Roar
