import Roar.Bytes

/-!
# Texts cut into pieces, and counts in words

A text is its pieces joined again (`Bytes.join_splitOn`), and pieces that do not hold the separator
are the pieces of their joined text (`Bytes.splitOn_join`). No piece holds the separator, and what
stands before a text without the separator joins its first piece. A stretch of bytes of one class ends
before a text that does not begin with one (`Bytes.span_append`).

Counts below `2 ^ 32` differ as words of 32 bits, from wherever they are counted (`ofNat_inj_of_add`).
-/

namespace Roar

namespace Bytes

theorem splitOn_eq (sep : UInt8) (text : Bytes) : splitOn sep text = List.splitOn sep text := by
  induction text with
  | nil => rw [List.splitOn_nil]; rfl
  | cons c cs ih =>
    rw [List.splitOn_cons_eq_if_modifyHead, splitOn, ih]
    split
    · rfl
    · obtain ⟨piece, pieces, h⟩ := List.exists_cons_of_ne_nil (List.splitOn_ne_nil sep cs)
      rw [h]; rfl

theorem splitOn_ne_nil (sep : UInt8) (text : Bytes) : splitOn sep text ≠ [] := by
  rw [splitOn_eq]; exact List.splitOn_ne_nil sep text

theorem splitOn_cons_of_ne {sep c : UInt8} (h : c ≠ sep) (cs : Bytes) :
    splitOn sep (c :: cs) = (splitOn sep cs).modifyHead (c :: ·) := by
  rw [splitOn_eq, splitOn_eq, List.splitOn_cons_eq_if_modifyHead, if_neg (by simpa using h)]

/-- A front without the separator joins the first piece. -/
theorem splitOn_append {sep : UInt8} {front : Bytes} (h : sep ∉ front) (text : Bytes) :
    splitOn sep (front ++ text) = (splitOn sep text).modifyHead (front ++ ·) := by
  induction front with
  | nil => exact (congrFun List.modifyHead_id _).symm
  | cons c cs ih =>
    rw [List.mem_cons, not_or] at h
    rw [List.cons_append, splitOn_cons_of_ne (Ne.symm h.1), ih h.2, List.modifyHead_modifyHead]
    rfl

theorem not_mem_of_mem_splitOn {sep : UInt8} {text piece : Bytes}
    (h : piece ∈ splitOn sep text) : sep ∉ piece := by
  induction text generalizing piece with
  | nil => rw [List.mem_singleton.mp h]; exact List.not_mem_nil
  | cons c cs ih =>
    by_cases hc : c = sep
    · rw [splitOn, if_pos (by simpa using hc)] at h
      rcases List.mem_cons.mp h with rfl | h
      · exact List.not_mem_nil
      · exact ih h
    · obtain ⟨first, rest, hs⟩ := List.exists_cons_of_ne_nil (splitOn_ne_nil sep cs)
      rw [splitOn_cons_of_ne hc, hs, List.modifyHead_cons] at h
      rcases List.mem_cons.mp h with rfl | h
      · rw [List.mem_cons, not_or]
        exact ⟨Ne.symm hc, ih (hs ▸ List.mem_cons_self)⟩
      · exact ih (hs ▸ List.mem_cons_of_mem _ h)

theorem join_append (sep : Bytes) {front rest : List Bytes} (hf : front ≠ []) (hr : rest ≠ []) :
    join sep (front ++ rest) = join sep front ++ sep ++ join sep rest := by
  simp only [join]
  induction front with
  | nil => exact absurd rfl hf
  | cons first more ih =>
    by_cases hm : more = []
    · rw [hm, List.singleton_append, List.intercalate_cons_of_ne_nil hr, List.intercalate_singleton]
    · rw [List.cons_append, List.intercalate_cons_of_ne_nil (List.append_ne_nil_of_left_ne_nil hm _),
        ih hm, List.intercalate_cons_of_ne_nil hm]
      simp only [List.append_assoc]

theorem join_splitOn (sep : UInt8) (text : Bytes) : join [sep] (splitOn sep text) = text := by
  rw [splitOn_eq]; exact List.intercalate_splitOn sep

/-- Pieces without the separator are found again in their joined text. -/
theorem splitOn_join {sep : UInt8} {pieces : List Bytes} (h : ∀ piece ∈ pieces, sep ∉ piece)
    (hne : pieces ≠ []) : splitOn sep (join [sep] pieces) = pieces := by
  rw [splitOn_eq]; exact List.splitOn_intercalate sep h hne

/-- Cutting the texts at the separator before joining them with it changes nothing. -/
theorem join_flatMap_splitOn (sep : UInt8) (texts : List Bytes) :
    join [sep] (texts.flatMap (splitOn sep)) = join [sep] texts := by
  induction texts with
  | nil => rfl
  | cons first rest ih =>
    rw [List.flatMap_cons]
    by_cases hr : rest = []
    · rw [hr, List.flatMap_nil, List.append_nil, join_splitOn]
      exact List.intercalate_singleton.symm
    · have hne : rest.flatMap (splitOn sep) ≠ [] := by
        obtain ⟨second, more, rfl⟩ := List.exists_cons_of_ne_nil hr
        rw [List.flatMap_cons]
        exact List.append_ne_nil_of_left_ne_nil (splitOn_ne_nil sep second) _
      rw [join_append [sep] (splitOn_ne_nil sep first) hne, join_splitOn, ih]
      exact (List.intercalate_cons_of_ne_nil hr).symm

theorem span_append {p : UInt8 → Bool} {text rest : Bytes} (htext : ∀ c ∈ text, p c)
    (hrest : rest.head?.any p = false) :
    (text ++ rest).takeWhile p = text ∧ (text ++ rest).dropWhile p = rest := by
  rw [List.takeWhile_append_of_pos htext, List.dropWhile_append_of_pos htext]
  cases rest with
  | nil => exact ⟨List.append_nil _, rfl⟩
  | cons c cs =>
    have hc : ¬ p c := by simpa using hrest
    rw [List.takeWhile_cons_of_neg hc, List.append_nil]
    exact ⟨rfl, List.dropWhile_cons_of_neg hc⟩

end Bytes

/-- Two counts from one word on are the same if they come to the same word. -/
theorem ofNat_inj_of_add {k : UInt32} {m n : Nat} (hm : m < UInt32.size) (hn : n < UInt32.size)
    (h : k + UInt32.ofNat m = k + UInt32.ofNat n) : m = n := by
  have hnat := congrArg UInt32.toNat ((UInt32.add_right_inj k).mp h)
  rwa [UInt32.toNat_ofNat_of_lt' hm, UInt32.toNat_ofNat_of_lt' hn] at hnat

end Roar
