import Roar.Proofs.Target.Mentions

/-!
# Which names are written as the bound of a loop

A loop over a computed bound keeps it under a name of its own, made from the name of the counter. No
declaration has that name (`declared_notMem_boundNames`), and a mention has it if and only if it is
spelled like the bound of a loop around it that is not around what it means
(`text_mem_boundNames_iff`). There are such programs: bounds are in the same table as the names of the
program (`use_written_as_bound`).
-/

namespace Roar

/-- The names under which the loops of a program keep their bounds. -/
def Program.boundNames (p : Program) : List Bytes :=
  p.pieces.filterMap fun piece =>
    match piece with
    | .bound output => some output
    | _ => none

/-- No name that is used or assigned to is written as the bound of a loop. -/
def Program.KeepsBoundsHidden (p : Program) : Prop :=
  (∀ m ∈ p.mentions, m.reference.kind ≠ .callee → m.text ∉ p.boundNames) ∧
    ∀ named, .declared named ∈ p.pieces → named.output ∉ p.boundNames

section

variable {p : Program}

theorem mem_boundNames_iff {output : Bytes} : output ∈ p.boundNames ↔ .bound output ∈ p.pieces := by
  unfold Program.boundNames
  rw [List.mem_filterMap]
  constructor
  · rintro ⟨piece, hmem, hpiece⟩
    cases piece with
    | bound output' =>
      cases hpiece
      exact hmem
    | _ => cases hpiece
  · exact fun hmem => ⟨_, hmem, rfl⟩

/-- No declaration has the name of a bound. -/
theorem declared_notMem_boundNames {named : Named} (h : .declared named ∈ p.pieces) :
    named.output ∉ p.boundNames := by
  rw [mem_boundNames_iff]
  intro hbound
  have hnodup : (Piece.introduced p.pieces).Nodup := (List.nodup_append.mp p.nodup_introduced).1
  have heq := Piece.eq_of_text_eq hnodup (Piece.mem_introducing.mpr ⟨h, rfl⟩)
    (Piece.mem_introducing.mpr ⟨hbound, rfl⟩) rfl
  cases heq

/-- No built-in function has the name of a bound. -/
theorem builtinScript_notMem_boundNames : ∀ x ∈ builtinNames, builtinScript x ∉ p.boundNames := by
  intro x hx
  rw [mem_boundNames_iff]
  intro hbound
  have hscore := (Stmt.handsOutList 0 {} p.statements).bounds _
    (Piece.mem_introducing.mpr ⟨hbound, rfl⟩)
  have hnone : ∀ x ∈ builtinNames, byte '_' ∉ builtinScript x := by decide +kernel
  exact hnone x hx hscore

/-- A name is written as a bound if and only if it is spelled like one that is passed. -/
theorem text_mem_boundNames_iff {m : Mention} (h : m.Explained p.pieces) :
    m.text ∈ p.boundNames ↔ m.reference.name ∈ m.passed := by
  cases h with
  | declared named _ _ _ text piece clear =>
    simp only [clear, iff_false, text]
    exact declared_notMem_boundNames piece
  | captured _ _ _ output _ text piece _ passed =>
    simp only [passed, iff_true, text]
    exact mem_boundNames_iff.mpr piece
  | builtin known _ _ text clear =>
    simp only [clear, iff_false, text]
    exact builtinScript_notMem_boundNames _ known

end

/-- The bounds of loops stay hidden if and only if no name that is used or assigned to is spelled like
the bound of a loop around it that is not around its declaration. -/
theorem keepsBoundsHidden_iff (tree : Grammar.Tree) {p : Program} (h : analyze tree = .ok p) :
    (p.KeepsBoundsHidden ↔
      ∀ m ∈ p.mentions, m.reference.kind ≠ .callee → m.reference.name ∉ m.passed) ∧
    ∀ m ∈ p.mentions, m.text ∈ p.boundNames ↔ m.reference.name ∈ m.passed := by
  have hiff : ∀ m ∈ p.mentions, m.text ∈ p.boundNames ↔ m.reference.name ∈ m.passed :=
    fun m hm => text_mem_boundNames_iff ((analyze_answers h).explained m hm)
  refine ⟨⟨fun hhidden m hm hkind => ?_, fun hclear => ⟨fun m hm hkind => ?_, ?_⟩⟩, hiff⟩
  · rw [← hiff m hm]
    exact hhidden.1 m hm hkind
  · rw [hiff m hm]
    exact hclear m hm hkind
  · exact fun named hpiece => declared_notMem_boundNames hpiece

/-- A loop over a computed bound whose body prints a variable declared before the loop. -/
def boundTree (name : Bytes) : Grammar.Tree :=
  ⟨0, [
    .assign {} (.identifier {} name) (.number {} (.ofNat 5) (ascii "5")),
    .assign {} (.identifier {} (ascii "n")) (.number {} (.ofNat 3) (ascii "3")),
    .loop {} (.identifier {} (ascii "i")) {} (.identifier {} (ascii "n")) {} [
      .print {} (.identifier {} name)]]⟩

/-- A variable that is spelled like the bound, but of another counter. -/
theorem otherCounter_keepsBoundsHidden :
    ∃ p, analyze (boundTree (ascii "j_limit")) = .ok p ∧
      p.boundNames = [ascii "i_limit"] ∧ p.KeepsBoundsHidden := by
  refine ⟨_, rfl, by decide +kernel, ?_⟩
  refine (keepsBoundsHidden_iff (boundTree (ascii "j_limit")) rfl).1.mpr ?_
  decide +kernel

/-- The body of the loop prints the bound instead of the variable. -/
theorem use_written_as_bound :
    ¬ ∀ (tree : Grammar.Tree) (p : Program), analyze tree = .ok p → p.KeepsBoundsHidden := by
  intro h
  have hhidden := (h (boundTree (ascii "i_limit")) _ rfl).1
  revert hhidden
  decide +kernel

end Roar
