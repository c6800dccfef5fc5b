import Roar.Proofs.Token.Progress

/-!
# What one token is read from

A token takes a gap and then its own text from the front of the source. What may stand in the gap
depends on the token and on the span that is open before it (`GapBefore`): blanks and whole comments
(`Blank`), behind which the parenthesis that closes an embedded expression or a comment without an end
may stand, and nothing at all inside `$name`.

Which spans are open is told by the tokens themselves: `spansAfter` goes over one token, from its
lexeme and its text alone.

* `Scanner.next_steps`: every token does all this, whatever state the scanner is in.
* `Scanner.next_of_end`: the end of input is where a scanner stays.
-/

namespace Roar

open Byte

/-! ## Gaps -/

/-- Blanks and comments that end. -/
inductive Blank : Bytes → Prop
  | nil : Blank []
  | white {c : UInt8} {cs : Bytes} (white : isWhitespace c) (rest : Blank cs) : Blank (c :: cs)
  | comment {text cs : Bytes} (text_free : byte '~' ∉ text) (rest : Blank cs) :
      Blank (byte '~' :: (text ++ byte '~' :: cs))

/-- What a gap that was skipped consists of: it is blank, or it is blank up to a comment that has no
end, which begins at `start`. -/
def Gap.Covers (l : Location) (cs : Bytes) : Gap → Prop
  | clear _ l' rest => ∃ gap, Blank gap ∧ cs = gap ++ rest ∧ l' = l.after gap
  | unclosed start stop =>
    ∃ gap text, Blank gap ∧ byte '~' ∉ text ∧ cs = gap ++ byte '~' :: text ∧
      start = l.after gap ∧ stop = l.after cs

theorem Gap.Covers.push {l : Location} {cs : Bytes} {g : Gap} (h : g.Covers l cs)
    (comment : Comment) : (g.push comment).Covers l cs := by
  cases g <;> exact h

/-- A blank in front. -/
theorem Gap.Covers.white {l : Location} {c : UInt8} {cs : Bytes} {g : Gap}
    (h : g.Covers (l.step c) cs) (hc : isWhitespace c) : g.Covers l (c :: cs) := by
  cases g with
  | clear comments l' rest =>
    obtain ⟨gap, hgap, rfl, rfl⟩ := h
    exact ⟨c :: gap, .white hc hgap, rfl, rfl⟩
  | unclosed start stop =>
    obtain ⟨gap, text, hgap, htext, rfl, rfl, rfl⟩ := h
    exact ⟨c :: gap, text, .white hc hgap, htext, rfl, rfl, rfl⟩

/-- A comment in front, of which `text` is what stands between its two tildes. -/
theorem Gap.Covers.comment {l : Location} {text cs : Bytes} {g : Gap}
    (h : g.Covers (l.after (byte '~' :: (text ++ [byte '~']))) cs) (htext : byte '~' ∉ text) :
    g.Covers l (byte '~' :: (text ++ byte '~' :: cs)) := by
  have hafter (gap : Bytes) : (l.after (byte '~' :: (text ++ [byte '~']))).after gap =
      l.after (byte '~' :: (text ++ byte '~' :: gap)) := by
    simp [Location.after]
  cases g with
  | clear comments l' rest =>
    obtain ⟨gap, hgap, rfl, rfl⟩ := h
    exact ⟨_, .comment htext hgap, by simp, hafter gap⟩
  | unclosed start stop =>
    obtain ⟨gap, more, hgap, hmore, rfl, rfl, rfl⟩ := h
    exact ⟨_, more, .comment htext hgap, hmore, by simp, hafter gap, hafter _⟩

mutual

theorem skipBlank_covers (l : Location) : (cs : Bytes) → (skipBlank l cs).Covers l cs
  | [] => ⟨[], .nil, rfl, rfl⟩
  | c :: cs => by
    unfold skipBlank
    split
    · rename_i hc
      exact (skipBlank_covers (l.step c) cs).white hc
    · split
      · rename_i hc
        obtain rfl : c = byte '~' := by simpa using hc
        exact skipComment_covers l [] (by simp) cs
      · exact ⟨[], .nil, rfl, rfl⟩

/-- The same behind the first tilde of a comment, of which `read` was read, the last byte first. -/
theorem skipComment_covers (l : Location) (read : Bytes) (hread : byte '~' ∉ read) :
    (cs : Bytes) →
      (skipComment l read (l.after (byte '~' :: read.reverse)) cs).Covers l
        (byte '~' :: (read.reverse ++ cs))
  | [] => ⟨[], read.reverse, .nil, by simpa using hread, by simp, rfl, by simp⟩
  | c :: cs => by
    have hstep : (l.after (byte '~' :: read.reverse)).step c =
        l.after (byte '~' :: (read.reverse ++ [c])) := by
      simp [Location.after]
    unfold skipComment
    split
    · rename_i hc
      obtain rfl : c = byte '~' := by simpa using hc
      rw [hstep]
      exact ((skipBlank_covers _ cs).comment (by simpa using hread)).push _
    · rename_i hc
      have hfree : byte '~' ∉ c :: read := by
        rintro (_ | ⟨_, hmem⟩)
        · exact hc (beq_self_eq_true _)
        · exact hread hmem
      have hmore := skipComment_covers l (c :: read) hfree cs
      rw [hstep]
      simpa using hmore

end

/-! ## Spans -/

/-- The rest of a string behind an embedded expression, or what went wrong in it. A fault in a string
from its first dash on has that dash in its text. -/
def isTail (x : Lexeme) (text : Bytes) : Bool :=
  match x with
  | .stringMiddle _ | .stringEnd _ => true
  | .fault .unterminatedString _ | .fault (.invalidEscape _) _ => text.head? != some (byte '-')
  | _ => false

/-- The span that the text of a string opens at its end. -/
def openedBy (text : Bytes) : Span := if text.getLast? = some (byte '(') then .group 0 else .name

/-- The word of an embedded name was read. -/
def named : List Span → List Span
  | .name :: outer => .tail :: outer
  | spans => spans

/-- The spans that are open behind a token, from those before it. -/
def spansAfter (spans : List Span) (x : Lexeme) (text : Bytes) : List Span :=
  let outer := if isTail x text then spans.tail else spans
  match x with
  | .stringStart _ | .stringMiddle _ => openedBy text :: outer
  | .identifier | .keyword _ => named outer
  | .symbol .openParen => openParen outer
  | .symbol .closeParen => closeParen outer
  | _ => outer

/-- The scanner is inside `$name`: at its word, or behind it. -/
def inName : List Span → Bool
  | .name :: _ | .tail :: _ => true
  | _ => false

/-- The fault of a comment that has no end. -/
def isUnclosed : Lexeme → Bool
  | .fault (.unterminatedComment _) _ => true
  | _ => false

/-- What may stand between a token and the one before it, where these spans are open. -/
inductive GapBefore (spans : List Span) (x : Lexeme) (text : Bytes) : Bytes → Prop
  | inName (span : inName spans) : GapBefore spans x text []
  | blank {gap : Bytes} (span : inName spans = false) (tail : isTail x text = false)
      (closed : isUnclosed x = false) (blank : Blank gap) : GapBefore spans x text gap
  | closing {gap : Bytes} (span : spans.head? = some (.group 0)) (tail : isTail x text)
      (blank : Blank gap) : GapBefore spans x text (gap ++ [byte ')'])
  | unclosed {gap comment : Bytes} (span : inName spans = false) (fault : isUnclosed x)
      (empty : text = []) (blank : Blank gap) (text_free : byte '~' ∉ comment) :
      GapBefore spans x text (gap ++ byte '~' :: comment)

/-! ## Strings -/

/-- The text of a string takes what it says from the source. -/
theorem readText_append (cs : Bytes) : (readText cs).text ++ (readText cs).rest = cs := by
  fun_induction readText cs <;> grind [Stretch.push, List.head?_eq_some_iff]

/-- Where the text of a string stops at an embedded expression, it ends with what opens that. -/
theorem readText_last (cs : Bytes) :
    ((readText cs).stop = .name → (readText cs).text.getLast? = some (byte '$')) ∧
      ((readText cs).stop = .group → (readText cs).text.getLast? = some (byte '(')) := by
  fun_induction readText cs <;> grind [Stretch.push]

/-- A dash at the front closes the string. -/
theorem readText_head (cs : Bytes) (h : (readText cs).stop ≠ .closed) :
    (readText cs).text.head? ≠ some (byte '-') := by
  fun_induction readText cs <;> grind [Stretch.push]

/-! ## Lexemes -/

/-- The reading takes its own text from the front of `source`, as the rest of a string or not, and
changes the open spans as its text says. -/
structure Reading.Takes (spans : List Span) (tail : Bool) (source : Bytes) (r : Reading) : Prop where
  cut : r.text ++ r.rest = source
  spans : r.spans = spansAfter spans r.lexeme r.text
  tail : isTail r.lexeme r.text = tail
  closed : isUnclosed r.lexeme = false
  more : r.lexeme.isEnd = false

/-- The span that the text of a string has opened, whatever stands in front of the text. -/
theorem openedBy_append (opening cs : Bytes) :
    ((readText cs).stop = .name → openedBy (opening ++ (readText cs).text) = .name) ∧
      ((readText cs).stop = .group → openedBy (opening ++ (readText cs).text) = .group 0) := by
  obtain ⟨hname, hgroup⟩ := readText_last cs
  constructor
  · intro hstop
    simp [openedBy, hname hstop]
  · intro hstop
    simp [openedBy, hgroup hstop]

theorem readString_takes (spans : List Span) (rest : Bytes) :
    (readString .string .stringStart spans [byte '-'] rest).Takes spans false
      (byte '-' :: rest) := by
  have hcut : [byte '-'] ++ (readText rest).text ++ (readText rest).rest = byte '-' :: rest := by
    simp [readText_append]
  obtain ⟨hname, hgroup⟩ := openedBy_append [byte '-'] rest
  simp only [readString]
  split
  case h_1 => exact ⟨hcut, rfl, rfl, rfl, rfl⟩
  case h_2 hstop => exact ⟨hcut, congrArg (· :: spans) (hname hstop).symm, rfl, rfl, rfl⟩
  case h_3 hstop => exact ⟨hcut, congrArg (· :: spans) (hgroup hstop).symm, rfl, rfl, rfl⟩
  case h_4 => exact ⟨hcut, rfl, rfl, rfl, rfl⟩
  case h_5 => exact ⟨hcut, rfl, rfl, rfl, rfl⟩

theorem readTail_takes (span : Span) (outer : List Span) (rest : Bytes) :
    (readTail outer rest).Takes (span :: outer) true rest := by
  have hcut : [] ++ (readText rest).text ++ (readText rest).rest = rest := readText_append rest
  obtain ⟨hname, hgroup⟩ := openedBy_append [] rest
  have hhead := readText_head rest
  simp only [readTail, readString]
  split
  case h_1 => exact ⟨hcut, rfl, rfl, rfl, rfl⟩
  case h_2 hstop => exact ⟨hcut, congrArg (· :: outer) (hname hstop).symm, rfl, rfl, rfl⟩
  case h_3 hstop => exact ⟨hcut, congrArg (· :: outer) (hgroup hstop).symm, rfl, rfl, rfl⟩
  case h_4 hstop =>
    have htail : isTail (.fault .unterminatedString (readText rest).value)
        ([] ++ (readText rest).text) = true := by
      simpa [isTail] using hhead (by simp [hstop])
    exact ⟨hcut, (if_pos htail).symm, htail, rfl, rfl⟩
  case h_5 e hstop =>
    have htail : isTail (.fault (.invalidEscape e) (readText rest).value)
        ([] ++ (readText rest).text) = true := by
      simpa [isTail] using hhead (by simp [hstop])
    exact ⟨hcut, (if_pos htail).symm, htail, rfl, rfl⟩

/-! ## Words, numbers and signs -/

/-- A word, which ends an embedded name. -/
theorem readWord_takes (spans : List Span) (rest : Bytes) :
    (readWord (named spans) rest).Takes spans false rest := by
  have hcut := List.takeWhile_append_dropWhile (p := isIdentifierContinue) (l := rest)
  simp only [readWord]
  split
  · exact ⟨hcut, rfl, rfl, rfl, rfl⟩
  · exact ⟨hcut, rfl, rfl, rfl, rfl⟩

private theorem numeral_append (rest : Bytes) : (numeral rest).1 ++ (numeral rest).2 = rest := by
  have hcut := List.takeWhile_append_dropWhile (p := isDigit) (l := rest)
  simp only [numeral]
  split
  · rename_i c d more hdrop
    have hmore := List.takeWhile_append_dropWhile (p := isDigit) (l := d :: more)
    rw [hdrop] at hcut
    split
    · rw [List.append_assoc, List.cons_append, hmore, hcut]
    · exact hcut
  · exact hcut

theorem readNumber_takes (spans : List Span) (rest : Bytes) :
    (readNumber spans rest).Takes spans false rest := by
  have hcut := numeral_append rest
  have hword := List.takeWhile_append_dropWhile (p := isIdentifierContinue) (l := (numeral rest).2)
  simp only [readNumber]
  split
  · exact ⟨hcut, rfl, rfl, rfl, rfl⟩
  · rename_i hmore
    refine ⟨?_, rfl, rfl, rfl, rfl⟩
    rw [List.append_assoc, hword, hcut]

/-- The parentheses are the only signs that change the spans. -/
theorem spansAfter_symbol (spans : List Span) {x : Symbol} (hx : x ∉ parens) (text : Bytes) :
    spansAfter spans (.symbol x) text = spans := by
  cases x with
  | openParen | closeParen => exact absurd (by decide) hx
  | _ => rfl

theorem ReadsSign.takes {spans : List Span} {c : UInt8} {read : Bytes → Reading}
    (h : ReadsSign spans c read) (cs : Bytes) : (read cs).Takes spans false (c :: cs) := by
  cases h with
  | single hx => exact ⟨rfl, (spansAfter_symbol spans hx [c]).symm, rfl, rfl, rfl⟩
  | @equals single double hsingle hdouble =>
    obtain heq | ⟨ds, rfl, heq⟩ := readEquals_cases spans c cs single double
    · rw [heq]
      exact ⟨rfl, (spansAfter_symbol spans hsingle _).symm, rfl, rfl, rfl⟩
    · rw [heq]
      exact ⟨rfl, (spansAfter_symbol spans hdouble _).symm, rfl, rfl, rfl⟩
  | _ => exact ⟨rfl, rfl, rfl, rfl, rfl⟩

theorem named_of_not_inName {spans : List Span} (h : inName spans = false) : named spans = spans := by
  unfold named
  split
  · cases h
  · rfl

/-- Outside `$name` every lexeme is read from its own text. -/
theorem readLexeme_takes {spans : List Span} (h : inName spans = false) (afterOperand : Bool)
    (c : UInt8) (cs : Bytes) : (readLexeme spans afterOperand c cs).Takes spans false (c :: cs) := by
  have hread := readLexeme_readsLexeme spans c cs afterOperand
  generalize readLexeme spans afterOperand c cs = r at hread
  cases hread with
  | word =>
    have hword := readWord_takes spans (c :: cs)
    rwa [named_of_not_inName h] at hword
  | number => exact readNumber_takes spans (c :: cs)
  | string hc =>
    subst hc
    exact readString_takes spans cs
  | minus => exact ⟨rfl, rfl, rfl, rfl, rfl⟩
  | sign hsign => exact hsign.takes cs

/-! ## Tokens -/

namespace Scanner

/-- What one call does to a scanner: the token, behind a gap, is taken from the source. A comment
without an end is reported where it begins. -/
structure Steps (s : Scanner) (gap : Bytes) (t : Token) (s' : Scanner) : Prop where
  source : s.rest = gap ++ t.text ++ s'.rest
  location : t.location = s.location.after gap
  after : s'.location = t.location.after t.text
  spans : s'.spans = spansAfter s.spans t.lexeme t.text
  between : GapBefore s.spans t.lexeme t.text gap
  ended : t.lexeme.isEnd → s'.rest = [] ∧ inName s'.spans = false ∧ s'.afterOperand = false
  reported : ∀ start value, t.lexeme = .fault (.unterminatedComment start) value →
    ∃ blank comment, gap = blank ++ byte '~' :: comment ∧ start = s.location.after blank

/-- A token that a reading gives behind a gap. -/
theorem steps_emit {s : Scanner} {gap rest : Bytes} {comments : List Comment} {tail : Bool}
    {r : Reading} (h : r.Takes s.spans tail rest) (hrest : s.rest = gap ++ rest)
    (hgap : GapBefore s.spans r.lexeme r.text gap) :
    s.Steps gap (emit comments (s.location.after gap) r).1
      (emit comments (s.location.after gap) r).2 where
  source := by simp [emit, hrest, ← h.cut]
  location := rfl
  after := rfl
  spans := h.spans
  between := hgap
  ended := by
    intro hend
    exact absurd hend (by simp [emit, h.more])
  reported := by
    intro start value hfault
    have hclosed := h.closed
    rw [show r.lexeme = .fault (.unterminatedComment start) value from hfault] at hclosed
    cases hclosed

theorem next_steps (s : Scanner) : ∃ gap, s.Steps gap s.next.1 s.next.2 := by
  obtain ⟨rest, l, spans, afterOperand⟩ := s
  unfold next
  split
  · rename_i outer hspans
    obtain rfl : spans = .name :: outer := hspans
    exact ⟨[], steps_emit (readWord_takes (.name :: outer) rest) rfl (.inName rfl)⟩
  · rename_i outer hspans
    obtain rfl : spans = .tail :: outer := hspans
    exact ⟨[], steps_emit (readTail_takes .tail outer rest) rfl (.inName rfl)⟩
  · rename_i hname htail
    have hspans : inName spans = false := by
      unfold inName
      split
      · exact absurd rfl (hname _)
      · exact absurd rfl (htail _)
      · rfl
    have hcovers := skipBlank_covers l rest
    split
    · rename_i start stop hgap
      simp only [hgap] at hcovers
      obtain ⟨blank, text, hblank, htext, rfl, rfl, rfl⟩ := hcovers
      refine ⟨blank ++ byte '~' :: text, by simp [emit], rfl, rfl, rfl,
        .unclosed hspans rfl rfl hblank htext, fun hend => (by cases hend), ?_⟩
      intro start value hfault
      cases hfault
      exact ⟨blank, text, rfl, rfl⟩
    · rename_i comments l' hgap
      simp only [hgap] at hcovers
      obtain ⟨blank, hblank, rfl, rfl⟩ := hcovers
      refine ⟨blank, by simp [emit], rfl, rfl, rfl, .blank hspans rfl rfl hblank,
        fun _ => ⟨rfl, hspans, rfl⟩, ?_⟩
      intro start value hfault
      cases hfault
    · rename_i comments l' c cs hgap
      simp only [hgap] at hcovers
      obtain ⟨blank, hblank, rfl, rfl⟩ := hcovers
      have hlexeme := readLexeme_takes hspans afterOperand c cs
      have hsteps : ∃ gap, (⟨blank ++ c :: cs, l, spans, afterOperand⟩ : Scanner).Steps gap
          (emit comments (l.after blank) (readLexeme spans afterOperand c cs)).1
          (emit comments (l.after blank) (readLexeme spans afterOperand c cs)).2 :=
        ⟨blank, steps_emit hlexeme rfl (.blank hspans hlexeme.tail hlexeme.closed hblank)⟩
      split
      · rename_i outer hgroup
        obtain rfl : spans = .group 0 :: outer := hgroup
        split
        · rename_i hparen
          obtain rfl : c = byte ')' := by simpa using hparen
          have htail := readTail_takes (.group 0) outer cs
          have hstep : (l.after blank).step (byte ')') = l.after (blank ++ [byte ')']) := by
            simp [Location.after]
          rw [hstep]
          exact ⟨blank ++ [byte ')'], steps_emit htail (by simp) (.closing rfl htail.tail hblank)⟩
        · exact hsteps
      · exact hsteps

/-- A scanner stays at the end of input. -/
theorem next_of_end {s : Scanner} (h : s.next.1.lexeme.isEnd) :
    s.next.2.next = (⟨.endOfInput, [], s.next.2.location, []⟩, s.next.2) := by
  obtain ⟨gap, hsteps⟩ := s.next_steps
  obtain ⟨hrest, hspans, hoperand⟩ := hsteps.ended h
  generalize s.next.2 = s' at hrest hspans hoperand ⊢
  obtain ⟨rest, l, spans, afterOperand⟩ := s'
  obtain rfl : rest = [] := hrest
  obtain rfl : afterOperand = false := hoperand
  unfold next
  split
  · rename_i hname
    obtain rfl : spans = _ := hname
    cases hspans
  · rename_i htail
    obtain rfl : spans = _ := htail
    cases hspans
  · rfl

end Scanner

end Roar
