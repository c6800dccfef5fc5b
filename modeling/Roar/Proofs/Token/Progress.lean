import Roar.Proofs.Token.Readings

/-!
# Every token takes something from the source

What is left of a source weighs two for each byte, and one or two for an embedded name whose string
goes on behind it (`Scanner.weight`). Every token but the end of input makes it lighter
(`Scanner.weight_next`), also those that are read from no bytes at all: an unfinished string, and the
rest of a string that ends at once. So the tokens of a source end (`Scanner.collect_ends`). They all
stand in the file of the source (`Scanner.file_next`).
-/

namespace Roar

/-! ## Blanks, texts and words -/

/-- How much of the source is left behind a gap. -/
def Gap.rest : Gap → Bytes
  | clear _ _ rest => rest
  | unclosed .. => []

@[simp] theorem Gap.rest_push (comment : Comment) (g : Gap) : (g.push comment).rest = g.rest := by
  cases g <;> rfl

mutual

theorem skipBlank_rest_le (l : Location) : (cs : Bytes) → (skipBlank l cs).rest.length ≤ cs.length
  | [] => by simp [skipBlank, Gap.rest]
  | c :: cs => by
    unfold skipBlank
    split
    · have := skipBlank_rest_le (l.step c) cs
      simp only [List.length_cons]
      omega
    · split
      · have := skipComment_rest_le l [] (l.step c) cs
        simp only [List.length_cons]
        omega
      · simp [Gap.rest]

theorem skipComment_rest_le (start : Location) (read : Bytes) (l : Location) :
    (cs : Bytes) → (skipComment start read l cs).rest.length ≤ cs.length
  | [] => by simp [skipComment, Gap.rest]
  | c :: cs => by
    unfold skipComment
    split
    · have := skipBlank_rest_le (l.step c) cs
      simp only [Gap.rest_push, List.length_cons]
      omega
    · have := skipComment_rest_le start (c :: read) (l.step c) cs
      simp only [List.length_cons]
      omega

end

@[simp] theorem Location.file_step (l : Location) (c : UInt8) : (l.step c).file = l.file := by
  unfold step
  split <;> rfl

/-- The file that a gap is in. -/
def Gap.file : Gap → Nat
  | clear _ l _ => l.file
  | unclosed _ stop => stop.file

@[simp] theorem Gap.file_push (comment : Comment) (g : Gap) : (g.push comment).file = g.file := by
  cases g <;> rfl

mutual

theorem skipBlank_file (l : Location) : (cs : Bytes) → (skipBlank l cs).file = l.file
  | [] => rfl
  | c :: cs => by
    unfold skipBlank
    split
    · simpa using skipBlank_file (l.step c) cs
    · split
      · simpa using skipComment_file l [] (l.step c) cs
      · rfl

theorem skipComment_file (start : Location) (read : Bytes) (l : Location) :
    (cs : Bytes) → (skipComment start read l cs).file = l.file
  | [] => rfl
  | c :: cs => by
    unfold skipComment
    split
    · simpa using skipBlank_file (l.step c) cs
    · simpa using skipComment_file start (c :: read) (l.step c) cs

end

/-- A comment without an end has a beginning. -/
theorem length_pos_of_unclosed {l start stop : Location} {cs : Bytes}
    (h : skipBlank l cs = .unclosed start stop) : 0 < cs.length := by
  cases cs with
  | nil => cases h
  | cons c cs => simp

/-- The text of a string is read up to a byte that stops it, unless it has no end. -/
theorem readText_rest (cs : Bytes) :
    (readText cs).rest.length ≤ cs.length ∧
      ((readText cs).stop ≠ .unterminated → (readText cs).rest.length < cs.length) := by
  fun_induction readText cs <;> grind [Stretch.push]

/-! ## Lexemes -/

/-- What a scanner has in mind of open strings: the name that comes next and the rest of the string
behind it are two tokens, which may both be empty. -/
def Span.weight : Span → Nat
  | name => 2
  | tail => 1
  | group _ => 0

def spanWeight : List Span → Nat
  | [] => 0
  | span :: spans => span.weight + spanWeight spans

@[simp] theorem spanWeight_cons (span : Span) (spans : List Span) :
    spanWeight (span :: spans) = span.weight + spanWeight spans := rfl

/-- Parentheses in an embedded expression weigh nothing. -/
theorem spanWeight_openParen (spans : List Span) : spanWeight (openParen spans) = spanWeight spans := by
  unfold openParen
  split <;> simp [Span.weight]

theorem spanWeight_closeParen (spans : List Span) :
    spanWeight (closeParen spans) = spanWeight spans := by
  unfold closeParen
  split <;> simp [Span.weight]

/-- How much is left behind a lexeme. -/
def Reading.weight (r : Reading) : Nat := 2 * r.rest.length + spanWeight r.spans

theorem Reading.weight_mk (lexeme : Lexeme) (text rest : Bytes) (spans : List Span) :
    (⟨lexeme, text, rest, spans⟩ : Reading).weight = 2 * rest.length + spanWeight spans := rfl

theorem weight_readString (closed opened : Bytes → Lexeme) (spans : List Span)
    (opening rest : Bytes) :
    (readString closed opened spans opening rest).weight ≤ 2 * rest.length + spanWeight spans := by
  obtain ⟨hle, hlt⟩ := readText_rest rest
  simp only [readString]
  split
  case h_2 hname =>
    have hstopped : (readText rest).rest.length < rest.length := hlt (by simp [hname])
    simp only [Reading.weight_mk, spanWeight_cons, Span.weight]
    omega
  all_goals
    simp only [Reading.weight_mk, spanWeight_cons, Span.weight]
    omega

theorem weight_readWord (spans : List Span) (rest : Bytes) :
    (readWord spans rest).weight ≤ 2 * rest.length + spanWeight spans := by
  have hle := (List.dropWhile_sublist (l := rest) Byte.isIdentifierContinue).length_le
  simp only [readWord, Reading.weight]
  omega

private theorem numeral_rest_le (rest : Bytes) :
    (numeral rest).2.length ≤ (rest.dropWhile Byte.isDigit).length := by
  simp only [numeral]
  split
  · rename_i c d more hdrop
    split
    · have hle := (List.dropWhile_sublist (l := d :: more) Byte.isDigit).length_le
      simp only [hdrop, List.length_cons] at hle ⊢
      omega
    · exact Nat.le_of_eq (congrArg List.length hdrop.symm)
  · exact Nat.le_refl _

theorem weight_readNumber (spans : List Span) (rest : Bytes) :
    (readNumber spans rest).weight ≤
      2 * (rest.dropWhile Byte.isDigit).length + spanWeight spans := by
  have hle := numeral_rest_le rest
  simp only [readNumber]
  split
  · simp only [Reading.weight_mk]
    omega
  · have hmore := (List.dropWhile_sublist (l := (numeral rest).2) Byte.isIdentifierContinue).length_le
    simp only [Reading.weight]
    omega

theorem weight_readEquals (spans : List Span) (single double : Symbol) (c : UInt8) (cs : Bytes) :
    (readEquals spans single double c cs).weight ≤ 2 * cs.length + spanWeight spans := by
  unfold readEquals
  split
  · split <;> simp only [Reading.weight, List.length_cons] <;> omega
  · simp [Reading.weight]

theorem ReadsSign.weight {spans : List Span} {c : UInt8} {read : Bytes → Reading}
    (h : ReadsSign spans c read) (cs : Bytes) :
    (read cs).weight ≤ 2 * cs.length + spanWeight spans := by
  cases h with
  | single | unexpected => exact Nat.le_refl _
  | equals => exact weight_readEquals spans _ _ c cs
  | opening => simp [Reading.weight_mk, spanWeight_openParen]
  | closing => simp [Reading.weight_mk, spanWeight_closeParen]

/-- A lexeme takes at least the byte that it begins with. -/
theorem weight_readLexeme (spans : List Span) (afterOperand : Bool) (c : UInt8) (cs : Bytes) :
    (readLexeme spans afterOperand c cs).weight ≤ 2 * cs.length + spanWeight spans := by
  have hread := readLexeme_readsLexeme spans c cs afterOperand
  generalize readLexeme spans afterOperand c cs = r at hread
  cases hread with
  | word hc =>
    have hdrop : (c :: cs).dropWhile Byte.isIdentifierContinue =
        cs.dropWhile Byte.isIdentifierContinue := by simp [isIdentifierContinue_of_start hc]
    have hle := (List.dropWhile_sublist (l := cs) Byte.isIdentifierContinue).length_le
    simp only [readWord, Reading.weight, hdrop]
    omega
  | number hc =>
    have hdrop : (c :: cs).dropWhile Byte.isDigit = cs.dropWhile Byte.isDigit := by simp [hc]
    have hle := (List.dropWhile_sublist (l := cs) Byte.isDigit).length_le
    have hnumber := weight_readNumber spans (c :: cs)
    rw [hdrop] at hnumber
    omega
  | string => exact weight_readString _ _ _ _ _
  | minus => exact Nat.le_refl _
  | sign h => exact h.weight cs

/-! ## Tokens -/

namespace Scanner

/-- How much a scanner has before it. -/
def weight (s : Scanner) : Nat := 2 * s.rest.length + spanWeight s.spans

theorem weight_start (source : Bytes) (file : Nat) : (start source file).weight = 2 * source.length :=
  rfl

theorem weight_mk (rest : Bytes) (l : Location) (spans : List Span) (afterOperand : Bool) :
    (⟨rest, l, spans, afterOperand⟩ : Scanner).weight = 2 * rest.length + spanWeight spans := rfl

theorem weight_emit (comments : List Comment) (l : Location) (r : Reading) :
    (emit comments l r).2.weight = r.weight := rfl

/-- A token that begins with the byte `c`. -/
theorem weight_lexeme (comments : List Comment) (l : Location) (spans : List Span)
    (afterOperand : Bool) (c : UInt8) (cs : Bytes) :
    (emit comments l (readLexeme spans afterOperand c cs)).2.weight <
      2 * (c :: cs).length + spanWeight spans := by
  have hlexeme := weight_readLexeme spans afterOperand c cs
  rw [weight_emit, List.length_cons]
  omega

/-- Every token but the end of input takes something. -/
theorem weight_next (s : Scanner) (h : s.next.1.lexeme ≠ .endOfInput) :
    s.next.2.weight < s.weight := by
  obtain ⟨rest, l, spans, afterOperand⟩ := s
  unfold next at h ⊢
  split
  · rename_i outer hspans
    obtain rfl : spans = .name :: outer := hspans
    have hword := weight_readWord (.tail :: outer) rest
    simp only [weight_emit, weight_mk, spanWeight_cons, Span.weight] at hword ⊢
    omega
  · rename_i outer hspans
    obtain rfl : spans = .tail :: outer := hspans
    have htail := weight_readString .stringEnd .stringMiddle outer [] rest
    simp only [weight_emit, weight_mk, spanWeight_cons, Span.weight, readTail]
    omega
  · have hgap := skipBlank_rest_le l rest
    split
    · rename_i start stop hunclosed
      have hpos : 0 < rest.length := length_pos_of_unclosed hunclosed
      simp only [weight_emit, weight_mk, Reading.weight_mk, List.length_nil]
      omega
    · rename_i comments l' hclear
      simp [hclear, emit] at h
    · rename_i comments l' c cs hclear
      rw [hclear] at hgap
      have hlexeme := weight_lexeme comments l' spans afterOperand c cs
      simp only [Gap.rest] at hgap
      simp only [weight_mk]
      split
      · rename_i outer _ _
        split
        · have htail := weight_readString .stringEnd .stringMiddle outer [] cs
          simp only [weight_emit, spanWeight_cons, Span.weight, readTail, List.length_cons] at hgap ⊢
          omega
        · omega
      · omega

theorem file_next (s : Scanner) : s.next.1.location.file = s.location.file := by
  have hgap := skipBlank_file s.location s.rest
  unfold next
  split
  · rfl
  · rfl
  · split
    · rename_i hunclosed
      rwa [hunclosed] at hgap
    · rename_i hclear
      rwa [hclear] at hgap
    · rename_i c cs hclear
      rw [hclear] at hgap
      split
      · split
        · exact (Location.file_step _ c).trans hgap
        · exact hgap
      · exact hgap

/-- The tokens of a scanner, up to the first that `last` accepts, end with one that it accepts. -/
theorem collect_ends {last : Lexeme → Bool} (hlast : last .endOfInput) {n : Nat} {s : Scanner}
    (hn : s.weight < n) :
    ∃ ts t, collect last n s = ts ++ [t] ∧ last t.lexeme ∧ ∀ u ∈ ts, ¬ last u.lexeme := by
  induction n generalizing s with
  | zero => omega
  | succ n ih =>
    by_cases hstop : last s.next.1.lexeme
    · refine ⟨[], s.next.1, ?_, hstop, by simp⟩
      simp [collect, hstop]
    · have hmore : s.next.1.lexeme ≠ .endOfInput := by
        intro hend
        rw [hend] at hstop
        exact hstop hlast
      obtain ⟨ts, t, hts, ht, hnot⟩ := ih (s := s.next.2) (by have := weight_next s hmore; omega)
      refine ⟨s.next.1 :: ts, t, ?_, ht, List.forall_mem_cons.mpr ⟨hstop, hnot⟩⟩
      simp [collect, hstop, hts]

/-- Up to a token that `last` accepts it makes no difference what is accepted besides. -/
theorem collect_eq_of_imp {last last' : Lexeme → Bool} (himp : ∀ x, last' x → last x) {n : Nat}
    {s : Scanner} {ts : List Token} {t : Token} (h : collect last n s = ts ++ [t])
    (ht : last' t.lexeme) : collect last' n s = ts ++ [t] := by
  induction n generalizing s ts with
  | zero => simp [collect] at h
  | succ n ih =>
    unfold collect at h ⊢
    by_cases hstop : last s.next.1.lexeme
    · simp only [hstop, if_true] at h
      obtain ⟨rfl, rfl⟩ : ts = [] ∧ t = s.next.1 := by
        cases ts with
        | nil => simpa using h.symm
        | cons u ts => simp at h
      simp [ht]
    · have hstop' : ¬ last' s.next.1.lexeme := fun hl => hstop (himp _ hl)
      simp only [hstop, hstop'] at h ⊢
      cases ts with
      | nil =>
        obtain ⟨rfl, -⟩ : s.next.1 = t ∧ _ := by simpa using h
        exact absurd ht hstop'
      | cons u ts =>
        obtain ⟨rfl, hrest⟩ : s.next.1 = u ∧ collect last n s.next.2 = ts ++ [t] := by simpa using h
        simp [ih hrest]

end Scanner

end Roar
