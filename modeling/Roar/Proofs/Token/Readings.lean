import Roar.Token.Scanner

/-!
# What a lexeme can be read as

`ReadsSign` lists what `readSymbol` can make of a byte, and `ReadsLexeme` what `readLexeme` can. What
holds of every lexeme is proved by cases on these, and the tests that the scanner makes one after the
other are gone through only here (`readSymbol_readsSign`, `readLexeme_readsLexeme`).
-/

namespace Roar

open Byte

/-- The signs that open and close spans. -/
def parens : List Symbol := [.openParen, .closeParen]

/-- How a sign is read, whatever stands behind it. -/
inductive ReadsSign (spans : List Span) (c : UInt8) : (Bytes → Reading) → Prop
  | single {x : Symbol} (hx : x ∉ parens) (hc : c ∈ ascii "+*/%,|") :
      ReadsSign spans c fun cs => ⟨.symbol x, [c], cs, spans⟩
  | equals {single double : Symbol} (hsingle : single ∉ parens) (hdouble : double ∉ parens)
      (hc : c ∈ ascii "!=<>") : ReadsSign spans c (readEquals spans single double c)
  | opening (hc : c = byte '(') :
      ReadsSign spans c fun cs => ⟨.symbol .openParen, [c], cs, openParen spans⟩
  | closing (hc : c = byte ')') :
      ReadsSign spans c fun cs => ⟨.symbol .closeParen, [c], cs, closeParen spans⟩
  | unexpected : ReadsSign spans c fun cs => ⟨.fault (.unexpectedByte c) [], [c], cs, spans⟩

/-- How a lexeme is read that begins with the byte `c`. -/
inductive ReadsLexeme (spans : List Span) (c : UInt8) (cs : Bytes) : Reading → Prop
  | word (hc : isIdentifierStart c) : ReadsLexeme spans c cs (readWord spans (c :: cs))
  | number (hc : isDigit c) : ReadsLexeme spans c cs (readNumber spans (c :: cs))
  | string (hc : c = byte '-') :
      ReadsLexeme spans c cs (readString .string .stringStart spans [c] cs)
  | minus (hc : c = byte '-') : ReadsLexeme spans c cs ⟨.symbol .minus, [c], cs, spans⟩
  | sign {read : Bytes → Reading} (h : ReadsSign spans c read) : ReadsLexeme spans c cs (read cs)

section Reads

variable (spans : List Span) (c : UInt8) (cs : Bytes)

theorem ReadsSign.ite {spans : List Span} {c d : UInt8} {read read' : Bytes → Reading}
    (h : c = d → ReadsSign spans c read) (h' : ReadsSign spans c read') :
    ReadsSign spans c fun cs => if c == d then read cs else read' cs := by
  by_cases hc : c = d
  · simpa only [hc, beq_self_eq_true, if_true] using hc ▸ h hc
  · simpa only [beq_eq_false_iff_ne.mpr hc, Bool.false_eq_true, if_false] using h'

theorem readSymbol_readsSign : ReadsSign spans c (readSymbol spans c) := by
  -- six plain signs, four that an equals sign may follow, and the parentheses
  unfold readSymbol
  iterate 6 refine .ite (fun hc => .single (by decide) (hc ▸ by decide)) ?_
  iterate 4 refine .ite (fun hc => .equals (by decide) (by decide) (hc ▸ by decide)) ?_
  exact .ite .opening (.ite .closing .unexpected)

theorem readLexeme_readsLexeme (afterOperand : Bool) :
    ReadsLexeme spans c cs (readLexeme spans afterOperand c cs) := by
  unfold readLexeme
  split
  · rename_i hc
    exact .word hc
  split
  · rename_i hc
    exact .number hc
  split
  · rename_i hc
    split
    · exact .string (beq_iff_eq.mp hc)
    · exact .minus (beq_iff_eq.mp hc)
  · exact .sign (readSymbol_readsSign spans c)

/-- An equals sign that follows belongs to the sign. -/
theorem readEquals_cases (single double : Symbol) :
    readEquals spans single double c cs = ⟨.symbol single, [c], cs, spans⟩ ∨
      ∃ ds, cs = byte '=' :: ds ∧
        readEquals spans single double c cs = ⟨.symbol double, [c, byte '='], ds, spans⟩ := by
  unfold readEquals
  split
  · rename_i d ds
    split
    · rename_i hd
      obtain rfl := beq_iff_eq.mp hd
      exact .inr ⟨ds, rfl, rfl⟩
    · exact .inl rfl
  · exact .inl rfl

end Reads

/-! ## Texts and kinds -/

section Kinds

variable {spans : List Span} {c : UInt8} {cs : Bytes} {r : Reading}

theorem isIdentifierContinue_of_start (h : isIdentifierStart c) : isIdentifierContinue c := by
  unfold isIdentifierStart at h
  unfold isIdentifierContinue
  grind

theorem text_readWord_ne_nil (spans : List Span) (h : isIdentifierStart c) (cs : Bytes) :
    (readWord spans (c :: cs)).text ≠ [] := by
  simp [readWord, isIdentifierContinue_of_start h]

theorem text_readNumber_ne_nil (spans : List Span) (h : isDigit c) (cs : Bytes) :
    (readNumber spans (c :: cs)).text ≠ [] := by
  have hnumeral : (numeral (c :: cs)).1 ≠ [] := by
    simp only [numeral, List.takeWhile_cons_of_pos h]
    split
    · split <;> simp
    · simp
  simp only [readNumber]
  split <;> simp [hnumeral]

theorem text_readString {closed opened : Bytes → Lexeme} {opening rest : Bytes} :
    (readString closed opened spans opening rest).text = opening ++ (readText rest).text := by
  simp only [readString]
  split <;> rfl

/-- A lexeme is read from at least one byte. -/
theorem ReadsLexeme.text_ne_nil (h : ReadsLexeme spans c cs r) : r.text ≠ [] := by
  cases h with
  | word hc => exact text_readWord_ne_nil spans hc cs
  | number hc => exact text_readNumber_ne_nil spans hc cs
  | string =>
    rw [text_readString]
    exact List.cons_ne_nil _ _
  | minus => exact List.cons_ne_nil _ _
  | sign h =>
    cases h with
    | @equals single double =>
      obtain heq | ⟨ds, -, heq⟩ := readEquals_cases spans c cs single double
      · rw [heq]
        exact List.cons_ne_nil _ _
      · rw [heq]
        exact List.cons_ne_nil _ _
    | _ => exact List.cons_ne_nil _ _

/-- Only a closing parenthesis is read as one. -/
theorem ReadsLexeme.eq_closeParen (h : ReadsLexeme spans c cs r)
    (hr : r.lexeme = .symbol .closeParen) : c = byte ')' := by
  cases h with
  | word =>
    simp only [readWord] at hr
    split at hr <;> cases hr
  | number =>
    simp only [readNumber] at hr
    split at hr <;> cases hr
  | string =>
    simp only [readString] at hr
    split at hr <;> cases hr
  | minus => cases hr
  | sign h =>
    cases h with
    | single hx =>
      cases hr
      exact absurd (by decide) hx
    | @equals single double hsingle hdouble =>
      obtain heq | ⟨ds, -, heq⟩ := readEquals_cases spans c cs single double
      · rw [heq] at hr
        cases hr
        exact absurd (by decide) hsingle
      · rw [heq] at hr
        cases hr
        exact absurd (by decide) hdouble
    | opening => cases hr
    | closing hc => exact hc
    | unexpected => cases hr

end Kinds

end Roar
