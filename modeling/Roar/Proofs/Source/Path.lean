import Roar.Proofs.Bytes
import Roar.Source.Path

/-!
# Normal paths

The names that are kept of a path are never empty nor `.`, and `..` is kept only at the front of a
path that does not begin at the root (`Kept`). `kept_enter` is one piece of a path and `kept_foldl`
all of them. The text of such names is cut at its slashes into the names again (`splitOn_text`), and
following these changes nothing (`foldl_pieces`), so that a normal path is its own normal form
(`normalize_normalize`).
-/

namespace Roar.Path

/-! ## Names that are kept -/

/-- A piece of a path that says where to go. -/
structure IsName (piece : Bytes) : Prop where
  nonempty : piece ≠ []
  moves : piece ≠ dot
  whole : byte '/' ∉ piece

/-- The names of a normal path, the last one first. Above a `..` there are only others, and none at
the root. -/
inductive Kept (rooted : Bool) : List Bytes → Prop
  | nil : Kept rooted []
  | up {names : List Bytes} (unrooted : rooted = false) (above : ∀ name ∈ names, name = dotdot)
      (rest : Kept rooted names) : Kept rooted (dotdot :: names)
  | down {name : Bytes} {names : List Bytes} (isName : IsName name) (other : name ≠ dotdot)
      (rest : Kept rooted names) : Kept rooted (name :: names)

private theorem isName_dotdot : IsName dotdot := ⟨by decide, by decide, by decide⟩

variable {rooted : Bool}

theorem Kept.isName {names : List Bytes} (h : Kept rooted names) : ∀ name ∈ names, IsName name := by
  induction h with
  | nil => exact List.forall_mem_nil _
  | up _ _ _ ih => exact List.forall_mem_cons.mpr ⟨isName_dotdot, ih⟩
  | down isName _ _ ih => exact List.forall_mem_cons.mpr ⟨isName, ih⟩

theorem Kept.tail {name : Bytes} {names : List Bytes} (h : Kept rooted (name :: names)) :
    Kept rooted names := by
  cases h with
  | up _ _ rest => exact rest
  | down _ _ rest => exact rest

/-- Only further `..` stand above a last `..`. -/
theorem Kept.above {names : List Bytes} (h : Kept rooted (dotdot :: names)) :
    rooted = false ∧ ∀ name ∈ names, name = dotdot := by
  cases h with
  | up unrooted above => exact ⟨unrooted, above⟩
  | down _ other => exact absurd rfl other

/-- One piece of a path keeps the names normal. -/
theorem kept_enter {t : Trail} {piece : Bytes} (h : Kept rooted t.names)
    (hpiece : byte '/' ∉ piece) : Kept rooted (t.enter rooted piece).names := by
  obtain ⟨names, slash⟩ := t
  unfold Trail.enter
  split
  · exact h
  · rename_i hstays
    obtain ⟨hempty, hdot⟩ := not_or.mp hstays
    split
    · cases names with
      | nil =>
        cases rooted with
        | true => exact .nil
        | false => exact .up rfl (List.forall_mem_nil _) .nil
      | cons name names =>
        simp only
        split
        · rename_i hup
          subst hup
          obtain ⟨hrooted, habove⟩ := h.above
          exact .up hrooted (List.forall_mem_cons.mpr ⟨rfl, habove⟩) h
        · exact h.tail
    · rename_i hup
      exact .down ⟨hempty, hdot, hpiece⟩ hup h

theorem kept_foldl {pieces : List Bytes} (hpieces : ∀ piece ∈ pieces, byte '/' ∉ piece) {t : Trail}
    (h : Kept rooted t.names) : Kept rooted (pieces.foldl (Trail.enter rooted) t).names := by
  induction pieces generalizing t with
  | nil => exact h
  | cons piece pieces ih =>
    obtain ⟨hpiece, hrest⟩ := List.forall_mem_cons.mp hpieces
    exact ih hrest (kept_enter h hpiece)

/-! ## The text of the names -/

/-- The text of a trail ends with a slash. -/
def Trail.ends (t : Trail) : Bool := t.slash && t.names.head?.any (· != dotdot)

/-- The pieces of the text of a trail that keeps a name. -/
def Trail.pieces (rooted : Bool) (t : Trail) : List Bytes :=
  (if rooted then [[]] else []) ++ t.names.reverse ++ if t.ends then [[]] else []

theorem Trail.text_eq_join {t : Trail} (hne : t.names ≠ []) (h : Kept rooted t.names) :
    t.text rooted = Bytes.join [byte '/'] (t.pieces rooted) := by
  have hreverse : t.names.reverse ≠ [] := by simpa using hne
  have hbody : Bytes.join [byte '/'] t.names.reverse ≠ [] := by
    obtain ⟨name, names, heq⟩ := List.exists_cons_of_ne_nil hreverse
    have hname := (h.isName name (by rw [← List.mem_reverse, heq]; simp)).nonempty
    rw [heq]
    cases names with
    | nil => simpa [Bytes.join] using hname
    | cons => simp [Bytes.join, hname]
  have hjoin : Bytes.join [byte '/'] (t.pieces rooted) =
      (if rooted then ascii "/" else []) ++ Bytes.join (ascii "/") t.names.reverse ++
        if t.ends then ascii "/" else [] := by
    have hroot : Bytes.join [byte '/'] ((if rooted then [[]] else []) ++ t.names.reverse) =
        (if rooted then ascii "/" else []) ++ Bytes.join (ascii "/") t.names.reverse := by
      cases rooted with
      | false => rfl
      | true => exact Bytes.join_append _ (by simp) hreverse
    rw [← hroot, Trail.pieces]
    cases t.ends with
    | false => simp
    | true =>
      rw [if_pos rfl, if_pos rfl, Bytes.join_append _ (by simp [hne]) (by simp)]
      simp [Bytes.join, ascii]
  rw [hjoin]
  refine if_neg fun hnil => hbody ?_
  exact (List.append_eq_nil_iff.mp (List.append_eq_nil_iff.mp hnil).1).2

theorem Trail.splitOn_text {t : Trail} (hne : t.names ≠ []) (h : Kept rooted t.names) :
    Bytes.splitOn (byte '/') (t.text rooted) = t.pieces rooted := by
  rw [Trail.text_eq_join hne h]
  refine Bytes.splitOn_join (fun piece hpiece => ?_) (by simp [Trail.pieces, hne])
  simp only [Trail.pieces, List.mem_append, List.mem_reverse] at hpiece
  have hempty {b : Bool} (hmem : piece ∈ if b then [[]] else []) : byte '/' ∉ piece := by
    cases b with
    | false => cases hmem
    | true =>
      rw [List.mem_singleton.mp hmem]
      exact List.not_mem_nil
  rcases hpiece with (hroot | hname) | hend
  · exact hempty hroot
  · exact (h.isName piece hname).whole
  · exact hempty hend

/-- Following the names of a normal path leads back to them. -/
theorem foldl_names {names : List Bytes} (h : Kept rooted names) (slash : Bool) :
    names.reverse.foldl (Trail.enter rooted) ⟨[], slash⟩ =
      ⟨names, if names = [] then slash else false⟩ := by
  induction h with
  | nil => rfl
  | @up names unrooted above _ ih =>
    rw [List.reverse_cons, List.foldl_append, ih, List.foldl_cons, List.foldl_nil, Trail.enter,
      if_neg (by decide), if_pos rfl]
    cases names with
    | nil => simp [unrooted]
    | cons name names => simp [above name]
  | @down name names isName other _ ih =>
    rw [List.reverse_cons, List.foldl_append, ih, List.foldl_cons, List.foldl_nil, Trail.enter,
      if_neg (not_or.mpr ⟨isName.nonempty, isName.moves⟩), if_neg other]
    simp

/-- Following the pieces of the text of a trail leads back to the trail, with the slash that the text
has at its end. -/
theorem foldl_pieces {t : Trail} (hne : t.names ≠ []) (h : Kept rooted t.names) :
    (t.pieces rooted).foldl (Trail.enter rooted) {} = ⟨t.names, t.ends⟩ := by
  have hroot : (if rooted then [[]] else []).foldl (Trail.enter rooted) {} = ⟨[], rooted⟩ := by
    cases rooted <;> rfl
  rw [Trail.pieces, List.foldl_append, List.foldl_append, hroot, foldl_names h, if_neg hne]
  cases t.ends with
  | false => rfl
  | true => simp [Trail.enter]

theorem Trail.text_ne_nil (rooted : Bool) (t : Trail) : t.text rooted ≠ [] := by
  have hdot (body : Bytes) : (if body = [] then dot else body) ≠ [] := by
    split
    · decide
    · assumption
  exact hdot _

theorem Trail.head?_text {t : Trail} (hne : t.names ≠ []) (h : Kept rooted t.names) :
    ((t.text rooted).head? == some (byte '/')) = rooted := by
  obtain ⟨name, names, heq⟩ := List.exists_cons_of_ne_nil (l := t.names.reverse) (by simpa using hne)
  have hname := h.isName name (by rw [← List.mem_reverse, heq]; simp)
  obtain ⟨c, cs, rfl⟩ := List.exists_cons_of_ne_nil hname.nonempty
  have hc : c ≠ byte '/' := fun hc => hname.whole (hc ▸ List.mem_cons_self)
  rw [Trail.text_eq_join hne h, Trail.pieces, heq]
  cases rooted with
  | true => simp [Bytes.join, List.intercalate_cons_of_ne_nil]
  | false =>
    have hhead (more : List Bytes) : (Bytes.join [byte '/'] ((c :: cs) :: more)).head? = some c := by
      cases more <;> simp [Bytes.join]
    simp only [Bool.false_eq_true, if_false, List.nil_append, List.cons_append, hhead]
    exact beq_eq_false_iff_ne.mpr fun heq => hc (Option.some.inj heq)

/-- The text of a trail that is normal is its own normal form. -/
theorem Trail.normalize_text {t : Trail} (h : Kept rooted t.names) :
    normalize (t.text rooted) = t.text rooted := by
  by_cases hne : t.names = []
  · obtain ⟨names, slash⟩ := t
    obtain rfl : names = [] := hne
    cases rooted <;> cases slash <;> decide
  · rw [normalize, if_neg (Trail.text_ne_nil rooted t)]
    simp only [Trail.head?_text hne h, Trail.splitOn_text hne h, foldl_pieces hne h]
    simp [Trail.text, Trail.ends]

theorem normalize_normalize (path : Bytes) : normalize (normalize path) = normalize path := by
  by_cases hpath : path = []
  · rw [hpath]
    rfl
  · have hpieces : ∀ piece ∈ Bytes.splitOn (byte '/') path, byte '/' ∉ piece := fun _ hpiece =>
      Bytes.not_mem_of_mem_splitOn hpiece
    rw [show normalize path = Trail.text _ _ from if_neg hpath]
    exact Trail.normalize_text (kept_foldl hpieces .nil)

end Roar.Path
