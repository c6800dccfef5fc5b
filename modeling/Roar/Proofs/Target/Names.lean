import Mathlib.Data.List.Nodup
import Roar.Proofs.Target.Annotated

/-!
# Names that are handed out once

`Names.fresh` never gives a name that is in use (`Names.fresh_notMem`): the name itself is free, or a
numbered one is, or the name is made longer than all in use. So no two names that the pieces of an
output introduce are the same, and none is a reserved word (`Program.nodup_introduced`).
-/

namespace Roar

/-! ## Fresh names -/

private theorem byte_inj {c d : Char} (hc : c.isDigit) (hd : d.isDigit) (h : byte c = byte d) :
    c = d := by
  have hbound {c : Char} (hc : c.isDigit) : c.toNat < 256 := by
    have hle : c.toNat ≤ 57 := by
      simp only [Char.isDigit, Bool.and_eq_true, decide_eq_true_eq] at hc
      exact hc.2
    omega
  have hnat : c.toNat = d.toNat := by
    have hbytes := congrArg UInt8.toNat h
    simpa [byte, Nat.mod_eq_of_lt (hbound hc), Nat.mod_eq_of_lt (hbound hd)] using hbytes
  exact Char.toNat_inj.mp hnat

private theorem map_byte_inj {cs ds : List Char} (hc : ∀ c ∈ cs, c.isDigit) (hd : ∀ d ∈ ds, d.isDigit)
    (h : cs.map byte = ds.map byte) : cs = ds := by
  induction cs generalizing ds with
  | nil =>
    cases ds with
    | nil => rfl
    | cons d ds => simp at h
  | cons c cs ih =>
    cases ds with
    | nil => simp at h
    | cons d ds =>
      simp only [List.map_cons, List.cons.injEq, List.forall_mem_cons] at h hc hd
      rw [byte_inj hc.1 hd.1 h.1, ih hc.2 hd.2 h.2]

private theorem decimal_inj {m n : Nat} (h : decimal m = decimal n) : m = n := by
  have hdigit (n : Nat) : ∀ c ∈ Nat.toDigits 10 n, c.isDigit := fun c hc =>
    Nat.isDigit_of_mem_toDigits (by omega) (by omega) hc
  have hdigits := map_byte_inj (hdigit m) (hdigit n) h
  have hread := congrArg (fun digits => Nat.ofDigitChars 10 digits 0) hdigits
  simpa using hread

namespace Names

variable {used : List Bytes} {name : Bytes}

theorem numbered_inj {j k : Nat} (h : numbered name j = numbered name k) : j = k :=
  decimal_inj (List.append_cancel_left h)

/-- The number that is tried in the place `i`, from the number `k` on. -/
def trial (k : UInt32) (i : Nat) : Nat := (k + UInt32.ofNat i).toNat

theorem trial_zero (k : UInt32) : trial k 0 = k.toNat := by simp [trial]

theorem trial_succ (k : UInt32) (i : Nat) : trial (k + 1) i = trial k (i + 1) := by
  have hword : k + 1 + UInt32.ofNat i = k + UInt32.ofNat (i + 1) := by
    rw [UInt32.add_assoc, UInt32.ofNat_add, UInt32.add_comm (UInt32.ofNat i)]
    rfl
  rw [trial, hword]
  rfl

/-- The name that is found is free, and those that were tried before it are in use. -/
theorem firstFree?_eq_some {n : Nat} {k : UInt32} {output : Bytes}
    (h : firstFree? used name n k = some output) :
    ∃ i < n, output = numbered name (trial k i) ∧ output ∉ used ∧
      ∀ j < i, numbered name (trial k j) ∈ used := by
  induction n generalizing k with
  | zero => cases h
  | succ n ih =>
    unfold firstFree? at h
    split at h
    · rename_i hused
      obtain ⟨i, hi, houtput, hfree, hless⟩ := ih h
      refine ⟨i + 1, by omega, by rw [houtput, trial_succ], hfree, fun j hj => ?_⟩
      cases j with
      | zero => simpa [trial_zero] using hused
      | succ j =>
        rw [← trial_succ]
        exact hless j (by omega)
    · rename_i hfree
      cases h
      refine ⟨0, by omega, by rw [trial_zero], by simpa using hfree, fun j hj => by omega⟩

/-- If no name is found, all that were tried are in use. -/
theorem firstFree?_eq_none {n : Nat} {k : UInt32} (h : firstFree? used name n k = none) :
    ∀ i < n, numbered name (trial k i) ∈ used := by
  induction n generalizing k with
  | zero => intro i hi; omega
  | succ n ih =>
    unfold firstFree? at h
    split at h
    · rename_i hused
      intro i hi
      cases i with
      | zero => simpa [trial_zero] using hused
      | succ i =>
        rw [← trial_succ]
        exact ih h i (by omega)
    · cases h

private theorem longer_notMem (used : List Bytes) (name : Bytes) : longer used name ∉ used := by
  intro h
  have hle := (List.sublist_flatten_of_mem h).length_le
  simp only [longer, List.length_append, List.length_replicate] at hle
  omega

/-- A fresh name is not in use. -/
theorem fresh_notMem (used : List Bytes) (name : Bytes) : fresh used name ∉ used := by
  unfold fresh
  split
  · cases h : firstFree? used name UInt32.size 2 with
    | none => exact longer_notMem used name
    | some output =>
      obtain ⟨i, -, -, hfree, -⟩ := firstFree?_eq_some h
      exact hfree
  · rename_i h
    simpa using h

/-- A fresh name begins with the name that it is for. -/
theorem isPrefix_fresh (used : List Bytes) (name : Bytes) : name <+: fresh used name := by
  unfold fresh
  split
  · cases h : firstFree? used name UInt32.size 2 with
    | none => exact List.prefix_append _ _
    | some output =>
      obtain ⟨i, -, rfl, -⟩ := firstFree?_eq_some h
      rw [Option.getD_some, numbered, List.append_assoc]
      exact List.prefix_append _ _
  · exact List.prefix_refl name

end Names

/-! ## The names that pieces introduce -/

namespace Piece

/-- The names that pieces introduce, in order. -/
def introduced (pieces : List Piece) : List Bytes := (introducing pieces).map text

@[simp] theorem introducing_nil : introducing [] = [] := rfl

@[simp] theorem introducing_append (ps qs : List Piece) :
    introducing (ps ++ qs) = introducing ps ++ introducing qs := List.filter_append ps qs

@[simp] theorem introducing_plain (text : Bytes) (ps : List Piece) :
    introducing (plain text :: ps) = introducing ps := rfl

@[simp] theorem introducing_again (text : Bytes) (ps : List Piece) :
    introducing (again text :: ps) = introducing ps := rfl

@[simp] theorem introducing_mention (m : Mention) (ps : List Piece) :
    introducing (mention m :: ps) = introducing ps := rfl

@[simp] theorem introducing_declared (named : Named) (ps : List Piece) :
    introducing (declared named :: ps) = declared named :: introducing ps := rfl

@[simp] theorem introducing_bound (output : Bytes) (ps : List Piece) :
    introducing (bound output :: ps) = bound output :: introducing ps := rfl

theorem introducing_commaPieces (lists : List (List Piece)) :
    introducing (commaPieces lists) = (lists.map introducing).flatten :=
  collect_commaPieces introducing_append rfl rfl lists

@[simp] theorem introducing_linePieces (depth : Nat) (pieces : List Piece) :
    introducing (linePieces depth pieces) = introducing pieces := rfl

@[simp] theorem introducing_plainLine (depth : Nat) (text : Bytes) :
    introducing (plainLine depth text) = [] := rfl

theorem mem_introducing {pieces : List Piece} {p : Piece} :
    p ∈ introducing pieces ↔ p ∈ pieces ∧ p.introduces := List.mem_filter

/-- No two pieces that introduce names introduce the same one. -/
theorem eq_of_text_eq {pieces : List Piece} (h : (introduced pieces).Nodup) {p q : Piece}
    (hp : p ∈ introducing pieces) (hq : q ∈ introducing pieces) (htext : p.text = q.text) : p = q :=
  List.inj_on_of_nodup_map h hp hq htext

end Piece

open Piece (introducing introduced)

mutual

/-- Expressions introduce no names. -/
@[simp] theorem Expr.introducing_pieces (st : Naming) : (e : Expr) → introducing (e.pieces st) = []
  | .number .. | .string .. | .boolean .. | .identifier _ => by simp [Expr.pieces]
  | .interpolated _ segments => by simp [Expr.pieces, Segment.introducing_piecesList st segments]
  | .binary _ _ left right _ | .compare _ _ left right => by
    simp [Expr.pieces, infixPieces, left.introducing_pieces st, right.introducing_pieces st]
  | .unary _ _ operand _ => by
    simp only [Expr.pieces, prefixPieces]
    split <;> simp [operand.introducing_pieces st]
  | .call _ _ args _ _ => by
    simp only [Expr.pieces, List.cons_append, Piece.introducing_mention, Piece.introducing_plain,
      Piece.introducing_append, Piece.introducing_commaPieces,
      Expr.introducing_piecesList st args, Piece.introducing_nil, List.append_nil]
  | .range _ bound => by simp [Expr.pieces, bound.introducing_pieces st]

theorem Expr.introducing_piecesList (st : Naming) :
    (es : List Expr) → ((Expr.piecesList st es).map introducing).flatten = []
  | [] => rfl
  | e :: es => by
    simp only [Expr.piecesList, List.map_cons, List.flatten_cons, e.introducing_pieces st,
      Expr.introducing_piecesList st es, List.nil_append]

theorem Segment.introducing_piecesList (st : Naming) :
    (ss : List Segment) → introducing (Segment.piecesList st ss) = []
  | [] => rfl
  | .text _ :: ss => by
    simp [Segment.piecesList, Segment.pieces, Segment.introducing_piecesList st ss]
  | .embedded value :: ss => by
    simp [Segment.piecesList, Segment.pieces, value.introducing_pieces st,
      Segment.introducing_piecesList st ss]

end

/-! ## What a table has handed out -/

/-- The second table comes from the first by handing out the names of some pieces. That of a bound
has an underscore in it. -/
structure HandsOut (st : Naming) (ps : List Piece) (st' : Naming) : Prop where
  used : st'.used = (ps.map Piece.text).reverse ++ st.used
  nodup : st.used.Nodup → st'.used.Nodup
  bounds : ∀ output, .bound output ∈ ps → byte '_' ∈ output

namespace HandsOut

variable {st st' st'' : Naming} {ps qs : List Piece}

theorem refl (st : Naming) : HandsOut st [] st := ⟨rfl, id, by simp⟩

theorem append (h : HandsOut st ps st') (h' : HandsOut st' qs st'') :
    HandsOut st (ps ++ qs) st'' where
  used := by rw [h'.used, h.used, List.map_append, List.reverse_append, List.append_assoc]
  nodup hn := h'.nodup (h.nodup hn)
  bounds output hmem := (List.mem_append.mp hmem).elim (h.bounds output) (h'.bounds output)

theorem declare (st : Naming) (d : Declaration) :
    HandsOut st [.declared (st.declare d).1] (st.declare d).2 where
  used := rfl
  nodup hn := List.nodup_cons.mpr ⟨Names.fresh_notMem st.used d.name, hn⟩
  bounds := by simp

theorem keepBound (st : Naming) (counter : Bytes) :
    HandsOut st [.bound (st.keepBound counter).1] (st.keepBound counter).2 where
  used := rfl
  nodup hn := List.nodup_cons.mpr ⟨Names.fresh_notMem st.used (Script.limitName counter), hn⟩
  bounds := by
    intro output hmem
    obtain rfl : output = (st.keepBound counter).1 := by simpa using hmem
    have hscore : byte '_' ∈ Script.limitName counter := by
      refine List.mem_append_right counter ?_
      decide
    exact (Names.isPrefix_fresh st.used (Script.limitName counter)).subset hscore

theorem declareAll (st : Naming) (ds : List Declaration) :
    HandsOut st ((st.declareAll ds).1.map .declared) (st.declareAll ds).2 := by
  induction ds generalizing st with
  | nil => exact refl st
  | cons d ds ih => exact (declare st d).append (ih (st.declare d).2)

/-- Opening a scope before and leaving one after hand out nothing. -/
theorem push (h : HandsOut st.push ps st') : HandsOut st ps st' := ⟨h.used, h.nodup, h.bounds⟩

theorem pop (h : HandsOut st ps st') : HandsOut st ps st'.pop := by
  have hpop : st'.pop.used = st'.used := by
    unfold Naming.pop
    split <;> rfl
  exact ⟨hpop.trans h.used, fun hn => hpop.symm ▸ h.nodup hn, h.bounds⟩

end HandsOut

theorem introducing_params (ps : List Named) :
    introducing (commaPieces (ps.map fun p => [.declared p])) = ps.map .declared := by
  rw [Piece.introducing_commaPieces, List.map_map]
  induction ps with
  | nil => rfl
  | cons p ps ih => simpa using ih

theorem functionHeadPieces_handsOut (st : Naming) (loc : Location) (name : Bytes)
    (params : List Bytes) :
    HandsOut st (introducing (functionHeadPieces st loc name params).1)
      (functionHeadPieces st loc name params).2 := by
  have hname := HandsOut.declare st ⟨.function, name, loc⟩
  have hparams := HandsOut.declareAll (st.declare ⟨.function, name, loc⟩).2.push
    (params.map (⟨.parameter, ·, loc⟩))
  simpa [functionHeadPieces, introducing_params] using hname.append hparams.push

theorem loopHeadPieces_handsOut (st : Naming) (counter : Identifier) (bound : Expr) :
    HandsOut st (introducing (loopHeadPieces st counter bound).1)
      (loopHeadPieces st counter bound).2 := by
  have hcounter := (HandsOut.declare st.push ⟨.loopVariable, counter.name, counter.loc⟩).push
  by_cases hbound : Script.isLiteralBound bound
  · simpa [loopHeadPieces, hbound] using hcounter
  · simpa [loopHeadPieces, hbound] using hcounter.append (HandsOut.keepBound _ _)

theorem assignmentPieces_handsOut (st : Naming) (target : Identifier) (value : Expr)
    (declares : Bool) :
    HandsOut st (introducing (assignmentPieces st target value declares).1)
      (assignmentPieces st target value declares).2 := by
  unfold assignmentPieces
  split
  · simpa using HandsOut.declare st ⟨.assigned, target.name, target.loc⟩
  · simpa using HandsOut.refl st

mutual

/-- The names that a statement hands out are those that its pieces introduce. -/
theorem Stmt.handsOut (depth : Nat) (st : Naming) :
    (s : Stmt) → HandsOut st (introducing (s.pieces depth st).1.flatten) (s.pieces depth st).2
  | .block _ body => by
    simpa [Stmt.pieces] using (Stmt.handsOutList (depth + 1) st.push body).push.pop
  | .assign _ target value declares => by
    simpa [Stmt.pieces] using assignmentPieces_handsOut st target value declares
  | .print _ value | .serve _ value | .expression _ value => by
    simpa [Stmt.pieces] using HandsOut.refl st
  | .function loc name params _ body _ => by
    have hhead := functionHeadPieces_handsOut st loc name params
    simpa [Stmt.pieces] using (hhead.append (Stmt.handsOutList (depth + 1) _ body)).pop
  | .branch _ condition _ thenBody alternate => by
    have hthen := (Stmt.handsOutList (depth + 1) st.push thenBody).push.pop
    simpa [Stmt.pieces] using hthen.append (alternate.handsOut depth _)
  | .loop _ counter _ bound _ body => by
    have hhead := loopHeadPieces_handsOut st counter bound
    simpa [Stmt.pieces] using (hhead.append (Stmt.handsOutList (depth + 1) _ body)).pop
  | .leave _ | .comment .. => by simpa [Stmt.pieces] using HandsOut.refl st

theorem Alternate.handsOut (depth : Nat) (st : Naming) :
    (a : Alternate) → HandsOut st (introducing (a.pieces depth st).1.flatten) (a.pieces depth st).2
  | .none => by simpa [Alternate.pieces] using HandsOut.refl st
  | .block _ body => by
    simpa [Alternate.pieces] using (Stmt.handsOutList (depth + 1) st.push body).push.pop
  | .branch _ condition _ thenBody alternate => by
    have hthen := (Stmt.handsOutList (depth + 1) st.push thenBody).push.pop
    simpa [Alternate.pieces] using hthen.append (alternate.handsOut depth _)

theorem Stmt.handsOutList (depth : Nat) (st : Naming) :
    (ss : List Stmt) → HandsOut st (introducing (Stmt.piecesList depth st ss).1.flatten)
      (Stmt.piecesList depth st ss).2
  | [] => HandsOut.refl st
  | s :: ss => by
    simpa [Stmt.piecesList] using (s.handsOut depth st).append (Stmt.handsOutList depth _ ss)

end

/-- No two names that a program's output introduces are the same, and none is reserved. -/
theorem Program.nodup_introduced (p : Program) : (introduced p.pieces ++ reservedWords).Nodup := by
  have h := Stmt.handsOutList 0 {} p.statements
  have hreserved : reservedWords.Nodup := by decide +kernel
  have hnodup := h.nodup hreserved
  rw [h.used] at hnodup
  exact (((List.reverse_perm _).append_right reservedWords).nodup_iff).mp hnodup

end Roar
