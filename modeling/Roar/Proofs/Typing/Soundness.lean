import Roar.Proofs.Semantics.Trace
import Roar.Proofs.Typing.Judgement

/-!
# Type soundness

A well typed program is never stuck: with variables of the types in scope (`Fits`), every expression
has a value of its type (`Expr.Typed.exists_value?`), and an action of a well typed statement leaves
variables of the types after it, however it ends (`Stmt.trace_sound`). With what analysis says of
types, this holds for all programs that are accepted (`analyze_typeSound`).
-/

namespace Roar

/-! ## Operators -/

section Operators

variable {v w : Value} {t : ValueType}

/-- A sum of values of known types has the type in the table. -/
theorem Value.type_sum (host : Host) (h : BinaryOp.add.resultType v.type w.type = .ok t)
    (hv : v.type ≠ .unknown) (hw : w.type ≠ .unknown) : (v.sum host w).type = t := by
  cases v <;> cases w <;>
    simp_all [BinaryOp.resultType, Value.type, ValueType.arithmetic, Value.sum, Value.primitive]

/-- The operands of `and` and `or` are truth values, if their types are known. -/
theorem BinaryOp.operands_boolean {op : BinaryOp} {l r : ValueType} (hop : op = .and ∨ op = .or)
    (h : op.resultType l r = .ok t) :
    t = .boolean ∧ (l ≠ .unknown → l = .boolean) ∧ (r ≠ .unknown → r = .boolean) := by
  have htable : op.resultType l r =
      if l.excludes .boolean || r.excludes .boolean then .error (.operands op l r)
      else .ok .boolean := by
    rcases hop with rfl | rfl <;> rfl
  rw [htable] at h
  split at h
  · cases h
  · rename_i hexcludes
    simp only [Bool.or_eq_true, not_or, Bool.not_eq_true] at hexcludes
    cases h
    exact ⟨rfl, fun hl => ValueType.eq_of_not_excludes hl hexcludes.1,
      fun hr => ValueType.eq_of_not_excludes hr hexcludes.2⟩

/-- The operand of `!` is a truth value, and so is what it gives. -/
theorem UnaryOp.operand_boolean {l : ValueType} (h : UnaryOp.not.resultType l = .ok t)
    (hl : l ≠ .unknown) : t = .boolean ∧ l = .boolean := by
  simp only [UnaryOp.resultType] at h
  split at h
  · cases h
  · rename_i hexcludes
    cases h
    exact ⟨rfl, ValueType.eq_of_not_excludes hl (by simpa using hexcludes)⟩

/-- A value that an operator gives for operands of known types has the type in the table. -/
theorem BinaryOp.type_apply (host : Host) {op : BinaryOp}
    (h : op.resultType v.type w.type = .ok t) (hv : v.type ≠ .unknown) (hw : w.type ≠ .unknown) :
    (op.apply host v w).type = t := by
  cases op with
  | add => exact Value.type_sum host h hv hw
  | sub | mul | div | mod =>
    change ValueType.number = t
    simp only [BinaryOp.resultType, ValueType.arithmetic] at h
    split at h
    · cases h
    · simpa [hv, hw] using h
  | and =>
    obtain ⟨rfl, hleft, hright⟩ := BinaryOp.operands_boolean (.inl rfl) h
    simp only [BinaryOp.apply]
    split
    · exact hright hw
    · exact hleft hv
  | or =>
    obtain ⟨rfl, hleft, hright⟩ := BinaryOp.operands_boolean (.inr rfl) h
    simp only [BinaryOp.apply]
    split
    · exact hleft hv
    · exact hright hw
  | shl | shr =>
    cases h
    rfl

theorem BinaryOp.checked_eq (host : Host) {op : BinaryOp}
    (h : op.resultType v.type w.type = .ok t) : op.checked host v w = some (op.apply host v w) := by
  rw [BinaryOp.checked, h]
  rfl

/-- Where the left operand decides, it is the truth value that the operator gives. -/
theorem BinaryOp.decided?_typed {op : BinaryOp} {r : ValueType} (h : op.resultType v.type r = .ok t)
    (hv : v.type ≠ .unknown) (hdecided : op.decidedBy v) :
    op.decided? v = some v ∧ v.type = t := by
  have hop : op = .and ∨ op = .or := by
    cases op <;> simp_all [BinaryOp.decidedBy]
  obtain ⟨rfl, hleft, -⟩ := BinaryOp.operands_boolean hop h
  refine ⟨?_, hleft hv⟩
  unfold BinaryOp.decided?
  rw [hleft hv]
  rcases hop with rfl | rfl <;> rfl

theorem UnaryOp.checked_typed (host : Host) {op : UnaryOp} (h : op.resultType v.type = .ok t) :
    op.checked host v = some (op.apply host v) ∧ (v.type ≠ .unknown → (op.apply host v).type = t) := by
  refine ⟨by rw [UnaryOp.checked, h]; rfl, fun hv => ?_⟩
  cases op with
  | neg =>
    change ValueType.number = t
    simp only [UnaryOp.resultType] at h
    split at h
    · cases h
    · rename_i hexcludes
      cases h
      exact (ValueType.eq_of_not_excludes hv (by simpa using hexcludes)).symm
  | not =>
    change ValueType.boolean = t
    simp only [UnaryOp.resultType] at h
    split at h <;> cases h
    rfl

/-- The built-in functions give numbers. -/
theorem type_builtinApply (host : Host) {name : Bytes} (h : name ∈ builtinNames)
    (args : List Value) : (builtinApply host name args).type = .number := by
  simp only [builtinNames, List.mem_cons, List.not_mem_nil, or_false] at h
  rcases h with rfl | rfl | rfl | rfl <;> rfl

end Operators

/-! ## Variables of the types in scope -/

/-- A variable holds a value of its type, and one without a type holds the built-in function of its
name. -/
structure Variable.Sound (x : Bytes) (content : Variable) : Prop where
  type_eq : content.value.type = content.type
  builtin : content.type = .unknown → content.value = .function x ∧ x ∈ builtinNames

/-- The variables have these types. -/
structure Fits (Γ : Scopes ValueType) (ρ : Scopes Variable) : Prop where
  types : ρ.mapValues (·.type) = Γ
  sound : ∀ s ∈ ρ, ∀ p ∈ s, p.2.Sound p.1

namespace Fits

variable {Γ : Scopes ValueType} {ρ : Scopes Variable} {x : Bytes} {t : ValueType}

theorem exists_of_lookup? (h : Fits Γ ρ) (hx : Scopes.lookup? Γ x = some t) :
    ∃ content, Scopes.lookup? ρ x = some content ∧ content.type = t ∧ content.Sound x := by
  rw [← h.types, Scopes.lookup?_mapValues] at hx
  obtain ⟨content, hcontent, htype⟩ := Option.map_eq_some_iff.mp hx
  obtain ⟨s, hs, hmem⟩ := Scopes.exists_mem_of_lookup? hcontent
  exact ⟨content, hcontent, htype, h.sound s hs _ hmem⟩

theorem cons {s : List (Bytes × Variable)} (h : Fits Γ ρ) (hs : ∀ p ∈ s, p.2.Sound p.1) :
    Fits ((s.map fun p => (p.1, p.2.type)) :: Γ) (s :: ρ) where
  types := congrArg (_ :: ·) h.types
  sound := List.forall_mem_cons.mpr ⟨hs, h.sound⟩

theorem tail {f : List (Bytes × ValueType)} (h : Fits (f :: Γ) ρ) : Fits Γ ρ.tail := by
  refine ⟨?_, fun s hs => h.sound s (List.mem_of_mem_tail hs)⟩
  have htypes := h.types
  cases ρ with
  | nil => cases htypes
  | cons s ρ => exact (List.cons.inj htypes).2

theorem bind {f : List (Bytes × ValueType)} {content : Variable} (h : Fits (f :: Γ) ρ)
    (hcontent : content.Sound x) :
    Fits (((x, content.type) :: f) :: Γ) (Scopes.bind x content ρ) where
  types := by
    rw [Scopes.mapValues_bind, h.types]
    rfl
  sound := by
    have hsound := h.sound
    cases ρ with
    | nil => simpa [Scopes.bind] using hcontent
    | cons s ρ =>
      obtain ⟨hs, hρ⟩ := List.forall_mem_cons.mp hsound
      exact List.forall_mem_cons.mpr ⟨List.forall_mem_cons.mpr ⟨hcontent, hs⟩, hρ⟩

/-- A variable gets another value of its type. -/
theorem assign {content : Variable} (h : Fits Γ ρ) (hx : Scopes.lookup? Γ x = some content.type)
    (hcontent : content.Sound x) : Fits Γ (Scopes.assign x content ρ) where
  types := by rw [Scopes.mapValues_assign, h.types, Scopes.assign_self hx]
  sound := by
    intro s hs p hp
    rcases Scopes.mem_assign hs hp with ⟨s', hs', hp'⟩ | rfl
    · exact h.sound s' hs' p hp'
    · exact hcontent

theorem start : Fits startTypes startVariables where
  types := by rfl
  sound := by
    intro s hs p hp
    simp only [startVariables, startFrames, Scopes.mapValues, List.map_cons, List.map_nil,
      List.map_map, List.mem_cons, List.not_mem_nil, or_false] at hs
    rcases hs with rfl | rfl
    · cases hp
    · obtain ⟨x, hx, rfl⟩ := List.mem_map.mp hp
      exact ⟨rfl, fun _ => ⟨rfl, hx⟩⟩

end Fits

/-! ## Expressions -/

section Expressions

variable {Γ : Scopes ValueType} {ρ : Scopes Variable}

mutual

/-- A well typed expression has a value, and the value has its type. -/
theorem Expr.Typed.exists_value? (host : Host) (hf : Fits Γ ρ) :
    {e : Expr} → e.Typed Γ → ∃ v, e.value? host ρ = some v ∧ v.type = e.type
  | .number .., _ | .string .., _ | .boolean .., _ => ⟨_, rfl, rfl⟩
  | .interpolated .., h => by
    obtain ⟨text, htext⟩ := Segment.TypedList.exists_text? host hf h
    exact ⟨.string text, by rw [Expr.value?, htext]; rfl, rfl⟩
  | .identifier id, h => by
    obtain ⟨content, hcontent, htype, hsound⟩ := hf.exists_of_lookup? h.1
    refine ⟨content.value, by rw [Expr.value?, hcontent]; rfl, ?_⟩
    rw [hsound.type_eq, htype]
    rfl
  | .binary _ op left right type, h => by
    obtain ⟨v, hv, htv⟩ := h.1.exists_value? host hf
    obtain ⟨w, hw, htw⟩ := h.2.1.exists_value? host hf
    have hleft : v.type ≠ .unknown := htv ▸ h.1.type_ne_unknown
    have hright : w.type ≠ .unknown := htw ▸ h.2.1.type_ne_unknown
    have htable : op.resultType v.type w.type = .ok type := by
      rw [htv, htw]
      exact h.2.2
    rw [Expr.value?, hv, hw, Option.bind_some, Option.bind_some]
    -- where the left operand decides, the right one is not evaluated
    split
    · rename_i hdecided
      obtain ⟨hvalue, htype⟩ := BinaryOp.decided?_typed htable hleft hdecided
      exact ⟨v, hvalue, htype⟩
    · exact ⟨_, BinaryOp.checked_eq host htable, BinaryOp.type_apply host htable hleft hright⟩
  | .compare _ op left right, h => by
    obtain ⟨v, hv, htv⟩ := h.1.exists_value? host hf
    obtain ⟨w, hw, htw⟩ := h.2.1.exists_value? host hf
    have haccepts := h.2.2
    rw [← htv, ← htw] at haccepts
    refine ⟨.boolean (op.apply host v w), ?_, rfl⟩
    rw [Expr.value?, hv, hw, Option.bind_some, Option.bind_some, CompareOp.checked, if_pos haccepts]
  | .unary _ op operand type, h => by
    obtain ⟨v, hv, htv⟩ := h.1.exists_value? host hf
    have htable : op.resultType v.type = .ok type := htv ▸ h.2
    obtain ⟨hvalue, htype⟩ := UnaryOp.checked_typed host htable
    refine ⟨op.apply host v, by rw [Expr.value?, hv, Option.bind_some, hvalue], htype ?_⟩
    rw [htv]
    exact h.1.type_ne_unknown
  | .call _ callee args type builtin, h => by
    obtain ⟨hbuiltin, htype, hcallee, hargs, hnumbers⟩ := h
    obtain ⟨f, hf', hunknown, hsound⟩ := hf.exists_of_lookup? hcallee
    obtain ⟨hfunction, hname⟩ := hsound.builtin hunknown
    obtain ⟨vs, hvs, htypes⟩ := Expr.TypedList.exists_values? host hf hargs
    refine ⟨builtinApply host callee vs, ?_, ?_⟩
    · rw [Expr.value?, if_pos hbuiltin, hf', hvs, Option.bind_some, Option.bind_some, checkedBuiltin,
        if_pos ⟨hfunction, hname, htypes.trans hnumbers⟩]
    · rw [type_builtinApply host hname, Expr.type, htype]
  | .range _ bound, h => by
    obtain ⟨v, hv, htv⟩ := h.1.exists_value? host hf
    have hnumber : v.type = .number := htv.trans h.2
    exact ⟨v, by rw [Expr.value?, hv, Option.bind_some, limit?, if_pos hnumber], hnumber⟩

theorem Expr.TypedList.exists_values? (host : Host) (hf : Fits Γ ρ) :
    {es : List Expr} → Expr.TypedList Γ es →
      ∃ vs, Expr.values? host ρ es = some vs ∧ vs.map (·.type) = es.map (·.type)
  | [], _ => ⟨[], rfl, rfl⟩
  | e :: es, h => by
    obtain ⟨v, hv, htv⟩ := h.1.exists_value? host hf
    obtain ⟨vs, hvs, htvs⟩ := Expr.TypedList.exists_values? host hf h.2
    refine ⟨v :: vs, by rw [Expr.values?, hv, hvs]; rfl, ?_⟩
    rw [List.map_cons, List.map_cons, htv, htvs]

theorem Segment.TypedList.exists_text? (host : Host) (hf : Fits Γ ρ) :
    {ss : List Segment} → Segment.TypedList Γ ss → ∃ text, Segment.text? host ρ ss = some text
  | [], _ => ⟨[], rfl⟩
  | .text t :: ss, h => by
    change Segment.TypedList Γ ss at h
    obtain ⟨text, htext⟩ := h.exists_text? host hf
    exact ⟨t ++ text, by rw [Segment.text?, htext]; rfl⟩
  | .embedded e :: ss, h => by
    obtain ⟨v, hv, -⟩ := h.1.exists_value? host hf
    obtain ⟨text, htext⟩ := Segment.TypedList.exists_text? host hf h.2
    exact ⟨v.toText host ++ text, by rw [Segment.text?, hv, htext]; rfl⟩

end

mutual

/-- What is evaluated for the value of an expression are parts of it. -/
theorem Expr.mem_nodes_of_mem_visited {host : Host} {e : Expr} :
    (e' : Expr) → e ∈ e'.visited host ρ → e ∈ e'.nodes
  | .number .., h | .string .., h | .boolean .., h | .identifier _, h => h
  | .interpolated _ segments, h => by
    rcases List.mem_append.mp h with h | h
    · exact .tail _ (Segment.mem_nodesList_of_mem_visitedList segments h)
    · rw [List.mem_singleton.mp h]
      exact .head _
  | .binary _ op left right _, h => by
    rcases List.mem_append.mp h with h | h
    · rcases List.mem_append.mp h with h | h
      · exact .tail _ (List.mem_append_left _ (Expr.mem_nodes_of_mem_visited left h))
      · split at h
        · exact .tail _ (List.mem_append_right _ (Expr.mem_nodes_of_mem_visited right h))
        · cases h
    · rw [List.mem_singleton.mp h]
      exact .head _
  | .compare _ op left right, h => by
    rcases List.mem_append.mp h with h | h
    · rcases List.mem_append.mp h with h | h
      · exact .tail _ (List.mem_append_left _ (Expr.mem_nodes_of_mem_visited left h))
      · split at h
        · exact .tail _ (List.mem_append_right _ (Expr.mem_nodes_of_mem_visited right h))
        · cases h
    · rw [List.mem_singleton.mp h]
      exact .head _
  | .unary _ _ operand _, h => by
    rcases List.mem_append.mp h with h | h
    · exact .tail _ (Expr.mem_nodes_of_mem_visited operand h)
    · rw [List.mem_singleton.mp h]
      exact .head _
  | .call _ _ args _ _, h => by
    rcases List.mem_append.mp h with h | h
    · exact .tail _ (Expr.mem_nodesList_of_mem_visitedList args h)
    · rw [List.mem_singleton.mp h]
      exact .head _
  | .range _ bound, h => by
    rcases List.mem_append.mp h with h | h
    · exact .tail _ (Expr.mem_nodes_of_mem_visited bound h)
    · rw [List.mem_singleton.mp h]
      exact .head _

theorem Expr.mem_nodesList_of_mem_visitedList {host : Host} {e : Expr} :
    (es : List Expr) → e ∈ Expr.visitedList host ρ es → e ∈ Expr.nodesList es
  | [], h => nomatch h
  | e' :: es, h => by
    rcases List.mem_append.mp h with h | h
    · exact List.mem_append_left _ (Expr.mem_nodes_of_mem_visited e' h)
    · split at h
      · exact List.mem_append_right _ (Expr.mem_nodesList_of_mem_visitedList es h)
      · cases h

theorem Segment.mem_nodesList_of_mem_visitedList {host : Host} {e : Expr} :
    (ss : List Segment) → e ∈ Segment.visitedList host ρ ss → e ∈ Segment.nodesList ss
  | [], h => nomatch h
  | .text _ :: ss, h => Segment.mem_nodesList_of_mem_visitedList ss h
  | .embedded e' :: ss, h => by
    rcases List.mem_append.mp h with h | h
    · exact List.mem_append_left _ (Expr.mem_nodes_of_mem_visited e' h)
    · split at h
      · exact List.mem_append_right _ (Segment.mem_nodesList_of_mem_visitedList ss h)
      · cases h

end

end Expressions

/-! ## Actions -/

/-- What is evaluated has a value of its type, and what is stored has the type of the variable. -/
def Event.Sound : Event → Prop
  | .evaluated e outcome => ∃ v, outcome = some v ∧ v.type = e.type
  | .stored _ content => content.value.type = content.type
  | .printed _ => True

/-- A run that is not stuck. At its end the variables have the types `f` in the innermost scope and
`Γ` around it; where it has left a loop, or is not finished, the innermost scope may have others. -/
structure Trace.Sound (Γ : Scopes ValueType) (f : List (Bytes × ValueType)) (t : Trace) : Prop where
  not_stuck : t.ending ≠ .stuck
  events : ∀ event ∈ t.events, event.Sound
  next : t.ending = .next → Fits (f :: Γ) t.frames
  around : ∃ g, Fits (g :: Γ) t.frames

/-- An action that is never stuck, from variables of the types `f` in the innermost scope to
variables of the types `f'`. -/
def Action.Sound (Γ : Scopes ValueType) (f f' : List (Bytes × ValueType)) (c : Action) : Prop :=
  ∀ ρ, Fits (f :: Γ) ρ → (c ρ).Sound Γ f'

namespace Action.Sound

variable {Γ : Scopes ValueType} {f f' f'' : List (Bytes × ValueType)} {c d : Action} {host : Host}
  {x : Bytes}

theorem stop {ending : Ending} (hstuck : ending ≠ .stuck) (hsame : ending = .next → f = f') :
    Action.Sound Γ f f' (.stop ending) := by
  intro ρ hρ
  refine ⟨hstuck, fun event hevent => ?_, fun hnext => ?_, f, hρ⟩
  · cases hevent
  · rw [← hsame hnext]
    exact hρ

theorem skip : Action.Sound Γ f f .skip := stop (by decide) fun _ => rfl

theorem note {events : List Event} (h : Action.Sound Γ f f' c)
    (hevents : ∀ event ∈ events, event.Sound) : Action.Sound Γ f f' (c.note events) := by
  intro ρ hρ
  obtain ⟨hstuck, hmore, hnext, haround⟩ := h ρ hρ
  exact ⟨hstuck, List.forall_mem_append.mpr ⟨hevents, hmore⟩, hnext, haround⟩

theorem andThen (h : Action.Sound Γ f f' c) (h' : Action.Sound Γ f' f'' d) :
    Action.Sound Γ f f'' (c.andThen d) := by
  intro ρ hρ
  have hc := h ρ hρ
  unfold Action.andThen
  split
  · rename_i hnext
    exact h'.note hc.events _ (hc.next hnext)
  · rename_i hnext
    exact ⟨hc.not_stuck, hc.events, fun hn => absurd hn hnext, hc.around⟩

/-- An expression that is well typed has a value. -/
theorem evaluate {e : Expr} {go : Value → Action} (he : e.Typed (f :: Γ))
    (h : ∀ v, v.type = e.type → Action.Sound Γ f f' (go v)) :
    Action.Sound Γ f f' (.evaluate host e go) := by
  intro ρ hρ
  obtain ⟨v, hv, htype⟩ := he.exists_value? host hρ
  unfold Action.evaluate
  rw [hv]
  refine (h v htype).note (fun event hevent => ?_) ρ hρ
  obtain ⟨part, hpart, rfl⟩ := List.mem_map.mp hevent
  exact (he.of_mem_nodes (Expr.mem_nodes_of_mem_visited e hpart)).exists_value? host hρ

theorem declare {content : Variable} (h : content.Sound x) :
    Action.Sound Γ f ((x, content.type) :: f) (.declare x content) := by
  intro ρ hρ
  have hbind := hρ.bind h
  refine ⟨nofun, fun event hevent => ?_, fun _ => hbind, _, hbind⟩
  rw [List.mem_singleton.mp hevent]
  exact h.type_eq

theorem assign {v : Value} (hx : Scopes.lookup? (f :: Γ) x = some v.type)
    (hv : v.type ≠ .unknown) : Action.Sound Γ f f (.assign x v) := by
  intro ρ hρ
  -- the type is that of a value, so the variable is none of the built-in functions
  obtain ⟨old, hold, htype, -⟩ := hρ.exists_of_lookup? hx
  have hsound : (⟨old.type, v⟩ : Variable).Sound x :=
    ⟨htype.symm, fun hunknown => absurd (htype.symm.trans hunknown) hv⟩
  have hassign := hρ.assign (htype ▸ hx) hsound
  unfold Action.assign
  rw [hold]
  refine ⟨nofun, fun event hevent => ?_, fun _ => hassign, _, hassign⟩
  rw [List.mem_singleton.mp hevent]
  exact hsound.type_eq

end Action.Sound

/-- An action that is never stuck and that leaves variables of the types that it has found, however
it ends. -/
def Action.Stays (Γ : Scopes ValueType) (f : List (Bytes × ValueType)) (c : Action) : Prop :=
  ∀ ρ, Fits (f :: Γ) ρ →
    (c ρ).ending ≠ .stuck ∧ (∀ event ∈ (c ρ).events, event.Sound) ∧ Fits (f :: Γ) (c ρ).frames

namespace Action.Stays

variable {Γ : Scopes ValueType} {f f' : List (Bytes × ValueType)} {c d : Action}

theorem sound (h : Action.Stays Γ f c) : Action.Sound Γ f f c := by
  intro ρ hρ
  obtain ⟨hstuck, hevents, hfits⟩ := h ρ hρ
  exact ⟨hstuck, hevents, fun _ => hfits, f, hfits⟩

theorem stop {ending : Ending} (h : ending ≠ .stuck) : Action.Stays Γ f (.stop ending) := by
  intro ρ hρ
  refine ⟨h, fun event hevent => ?_, hρ⟩
  cases hevent

theorem andThen (h : Action.Stays Γ f c) (h' : Action.Stays Γ f d) :
    Action.Stays Γ f (c.andThen d) := by
  intro ρ hρ
  obtain ⟨hstuck, hevents, hfits⟩ := h ρ hρ
  unfold Action.andThen
  split
  · obtain ⟨hstuck', hevents', hfits'⟩ := h' _ hfits
    exact ⟨hstuck', List.forall_mem_append.mpr ⟨hevents, hevents'⟩, hfits'⟩
  · exact ⟨hstuck, hevents, hfits⟩

/-- What is declared in a scope is gone after it. -/
theorem inScope {s : List (Bytes × Variable)} (hs : ∀ p ∈ s, p.2.Sound p.1)
    (h : Action.Sound (f :: Γ) (s.map fun p => (p.1, p.2.type)) f' c) :
    Action.Stays Γ f (.inScope s c) := by
  intro ρ hρ
  have hc := h (s :: ρ) (hρ.cons hs)
  obtain ⟨g, haround⟩ := hc.around
  exact ⟨hc.not_stuck, hc.events, haround.tail⟩

/-- Every iteration of a loop has the counter in a scope of its own. -/
theorem iteration {counter : Identifier} (hcounter : counter.type = .number)
    (h : Action.Sound (f :: Γ) [(counter.name, .number)] f' c) (i : Number) :
    Action.Stays Γ f (.iteration counter c i) := by
  have hsound : (⟨counter.type, .number i⟩ : Variable).Sound counter.name := by
    refine ⟨hcounter.symm, fun hunknown => ?_⟩
    rw [hcounter] at hunknown
    cases hunknown
  rw [← hcounter] at h
  refine inScope (List.forall_mem_singleton.mpr hsound) (h.note ?_)
  exact List.forall_mem_singleton.mpr hsound.type_eq

/-- Counting stays, for any number of iterations. -/
theorem count {more : Number → Bool} {body : Number → Action}
    (h : ∀ i, Action.Stays Γ f (body i)) (fuel : Nat) (i : Number) :
    Action.Stays Γ f (.count more body fuel i) := by
  induction fuel generalizing i with
  | zero =>
    unfold Action.count
    split
    · exact stop (by decide)
    · exact stop (by decide)
  | succ fuel ih =>
    unfold Action.count
    split
    · exact (h i).andThen (ih _)
    · exact stop (by decide)

theorem caught (h : Action.Stays Γ f c) : Action.Stays Γ f c.caught := by
  intro ρ hρ
  obtain ⟨hstuck, hevents, hfits⟩ := h ρ hρ
  refine ⟨?_, hevents, hfits⟩
  change (if (c ρ).ending = .leave then Ending.next else (c ρ).ending) ≠ .stuck
  split
  · decide
  · exact hstuck

end Action.Stays

/-! ## Statements -/

section Statements

variable {host : Host} {fuel : Nat}

/-- A block has a scope of its own. -/
theorem Action.Sound.block {Γ : Scopes ValueType} {f f' : List (Bytes × ValueType)} {c : Action}
    (h : Action.Sound (f :: Γ) [] f' c) : Action.Sound Γ f f (.inScope [] c) :=
  (Action.Stays.inScope (List.forall_mem_nil _) h).sound

mutual

/-- A well typed statement is never stuck, and leaves variables of the types after it. -/
theorem Stmt.trace_sound {Γ : Scopes ValueType} {f f' : List (Bytes × ValueType)} :
    (s : Stmt) → s.Typed (f :: Γ) → s.typesAfter (f :: Γ) = f' :: Γ →
      Action.Sound Γ f f' (s.trace host fuel)
  | .block _ body, h, hafter => by
    cases hafter
    obtain ⟨g, hg⟩ := Stmt.exists_typesAfterList_cons [] (f :: Γ) body
    exact .block (Stmt.traceList_sound body h hg)
  | .assign _ target value true, h, hafter => by
    cases hafter
    refine .evaluate h.1 fun v hv => ?_
    have hsound : (⟨target.type, v⟩ : Variable).Sound target.name :=
      ⟨hv.trans h.2.1.symm, fun hunknown =>
        absurd (h.2.1.symm.trans hunknown) h.1.type_ne_unknown⟩
    exact .declare hsound
  | .assign _ target value false, h, hafter => by
    cases hafter
    refine .evaluate h.1 fun v hv => .assign ?_ (hv ▸ h.1.type_ne_unknown)
    rw [h.2.2 rfl, h.2.1, hv]
  | .print _ value, h, hafter => by
    cases hafter
    exact .evaluate h fun v _ => .note .skip (List.forall_mem_singleton.mpr trivial)
  | .expression _ value, h, hafter => by
    cases hafter
    exact .evaluate h fun v _ => .skip
  | .branch _ condition _ thenBody alternate, h, hafter => by
    cases hafter
    obtain ⟨g, hg⟩ := Stmt.exists_typesAfterList_cons [] (f :: Γ) thenBody
    refine .evaluate h.1 fun v _ => ?_
    split
    · exact .block (Stmt.traceList_sound thenBody h.2.1 hg)
    · exact alternate.trace_sound h.2.2
  | .loop _ counter rangeLoc bound _ body, h, hafter => by
    cases hafter
    obtain ⟨g, hg⟩ := Stmt.exists_typesAfterList_cons [(counter.name, .number)] (f :: Γ) body
    have hbody := Stmt.traceList_sound body h.2.2 hg
    -- the types before an iteration are those after it, so any number of them can follow
    exact .evaluate h.2.1 fun limit _ => (Action.Stays.count (.iteration h.1 hbody) _ _).caught.sound
  | .leave _, _, _ => .stop (by decide) nofun
  | .comment .., _, hafter => by
    cases hafter
    exact .skip

theorem Alternate.trace_sound {Γ : Scopes ValueType} {f : List (Bytes × ValueType)} :
    (a : Alternate) → a.Typed (f :: Γ) → Action.Sound Γ f f (a.trace host fuel)
  | .none, _ => .skip
  | .block _ body, h => by
    obtain ⟨g, hg⟩ := Stmt.exists_typesAfterList_cons [] (f :: Γ) body
    exact .block (Stmt.traceList_sound body h hg)
  | .branch _ condition _ thenBody alternate, h => by
    obtain ⟨g, hg⟩ := Stmt.exists_typesAfterList_cons [] (f :: Γ) thenBody
    refine .evaluate h.1 fun v _ => ?_
    split
    · exact .block (Stmt.traceList_sound thenBody h.2.1 hg)
    · exact alternate.trace_sound h.2.2

theorem Stmt.traceList_sound {Γ : Scopes ValueType} {f f' : List (Bytes × ValueType)} :
    (ss : List Stmt) → Stmt.TypedList (f :: Γ) ss → Stmt.typesAfterList (f :: Γ) ss = f' :: Γ →
      Action.Sound Γ f f' (Stmt.traceList host fuel ss)
  | [], _, hafter => by
    cases hafter
    exact .skip
  | s :: ss, h, hafter => by
    obtain ⟨g, hg⟩ := s.exists_typesAfter_cons f Γ
    have hrest := h.2
    rw [Stmt.typesAfterList, List.foldl_cons, hg] at hafter
    rw [hg] at hrest
    exact (s.trace_sound h.1 hg).andThen (Stmt.traceList_sound ss hrest hafter)

end

end Statements

/-! ## Programs -/

/-- An accepted program without functions, in which the names of the built-in functions are only
called, has no expression of unknown type. Whatever the number of iterations, its run is not stuck,
every expression that is evaluated has a value of its type, and a variable is only given values of
the type that it was declared with. The run is that of the program. -/
theorem analyze_typeSound {tree : Grammar.Tree} {p : Program} (h : analyze tree = .ok p)
    (hfunctions : p.FunctionFree) (hbuiltins : p.CallsBuiltinsOnly) :
    (∀ e ∈ p.nodes, e.type ≠ .unknown) ∧
      ∀ (host : Host) (fuel : Nat),
        (p.trace host fuel).ending ≠ .stuck ∧
          (∀ e outcome, .evaluated e outcome ∈ (p.trace host fuel).events →
            ∃ v, outcome = some v ∧ v.type = e.type) ∧
          (∀ x content, .stored x content ∈ (p.trace host fuel).events →
            content.value.type = content.type) ∧
          Stmt.runList (.standard host) fuel p.statements startFrames =
            (p.trace host fuel).effect? := by
  have htyped := analyze_typed h hfunctions hbuiltins
  refine ⟨fun e he => htyped.known he, fun host fuel => ?_⟩
  obtain ⟨f, hf⟩ := Stmt.exists_typesAfterList_cons [] [builtinNames.map (·, .unknown)] p.statements
  have hsound : (p.trace host fuel).Sound [builtinNames.map (·, .unknown)] f :=
    Stmt.traceList_sound p.statements htyped hf _ .start
  exact ⟨hsound.not_stuck, fun e outcome he => hsound.events _ he,
    fun x content hx => hsound.events _ hx, Program.run_eq_effect? hsound.not_stuck⟩

/-- A program that assigns to a variable in a loop, declares another one there and leaves the
loop. -/
def steppingTree : Grammar.Tree :=
  let x : Grammar.Expr := .identifier {} (ascii "x")
  let i : Grammar.Expr := .identifier {} (ascii "i")
  ⟨0,
    [.assign {} x (.number {} (.ofNat 2) (ascii "2")),
      .loop {} i {} x {}
        [.assign {} x (.binary {} .sub x (.call {} (ascii "abs") [i])),
          .assign {} (.identifier {} (ascii "s")) (.interpolated {} [.text (ascii "x "), .embedded x]),
          .branch {} (.arm {} (.binary {} .or (.compare {} .lt x i) (.boolean {} false)) {}
            [.leave {}] .done)],
      .print {} x]⟩

/-- The program of `steppingTree`. -/
def steppingProgram : Program :=
  let x : Identifier := ⟨{}, ascii "x", .number, false⟩
  let i : Identifier := ⟨{}, ascii "i", .number, false⟩
  ⟨[.assign {} x (.number {} (.ofNat 2)) true,
      .loop {} i {} (.identifier x) {}
        [.assign {} x (.binary {} .sub (.identifier x)
            (.call {} (ascii "abs") [.identifier i] .number true) .number) false,
          .assign {} ⟨{}, ascii "s", .string, false⟩
            (.interpolated {} [.text (ascii "x "), .embedded (.identifier x)]) true,
          .branch {} (.binary {} .or (.compare {} .lt (.identifier x) (.identifier i))
              (.boolean {} false) .boolean) {} [.leave {}] .none],
      .print {} (.identifier x)]⟩

theorem steppingProgram_typeSound :
    analyze steppingTree = .ok steppingProgram ∧ steppingProgram.FunctionFree ∧
      steppingProgram.CallsBuiltinsOnly ∧ (∀ e ∈ steppingProgram.nodes, e.type ≠ .unknown) ∧
      (steppingProgram.trace World.bare.host 2).ending ≠ .stuck ∧
      ∀ x content, .stored x content ∈ (steppingProgram.trace World.bare.host 2).events →
        content.value.type = content.type := by
  have hanalyze : analyze steppingTree = .ok steppingProgram := by rfl
  have hfunctions : steppingProgram.FunctionFree := by decide +kernel
  have hbuiltins : steppingProgram.CallsBuiltinsOnly := by decide +kernel
  obtain ⟨hknown, hruns⟩ := analyze_typeSound hanalyze hfunctions hbuiltins
  obtain ⟨hstuck, -, hstored, -⟩ := hruns World.bare.host 2
  exact ⟨hanalyze, hfunctions, hbuiltins, hknown, hstuck, hstored⟩

end Roar
