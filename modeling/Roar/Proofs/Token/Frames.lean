import Roar.Proofs.Token.Stream

/-!
# Spans and the tokens between them

The tokens of a source tell which embedded expressions are open behind them (`openFrames`): the text of
a string that goes on opens a frame, and the next text of the same string closes it. A frame holds the
tokens that stand directly in it, not those in the frames of further strings.

A scanner keeps a span for every frame, with no more than the count of the parentheses that are open in
it (`Span.Mirrors`). `Scanner.SpanMove` is all that one token can do to the spans, and `SpansMirror.move`
what it keeps. The result is `frames_mirror_tokens`.
-/

namespace Roar

open Byte

/-! ## Frames -/

/-- An identifier or a reserved word. -/
def Lexeme.isWord : Lexeme → Bool
  | identifier | keyword _ => true
  | _ => false

/-- The first text of a string with an embedded expression. -/
def Lexeme.isStart : Lexeme → Bool
  | stringStart _ => true
  | _ => false

/-- The last text of a string with an embedded expression. -/
def Lexeme.isFinish : Lexeme → Bool
  | stringEnd _ => true
  | _ => false

/-- A text of a string that stands behind an embedded expression. -/
def Lexeme.resumes : Lexeme → Bool
  | stringMiddle _ | stringEnd _ => true
  | _ => false

theorem Lexeme.plain_of_isWord {x : Lexeme} (h : x.isWord) :
    x.isStart = false ∧ x.resumes = false := by
  cases x with
  | identifier => exact ⟨rfl, rfl⟩
  | keyword => exact ⟨rfl, rfl⟩
  | _ => cases h

/-- How an embedded expression is written: `$name`, or `$( )`. -/
inductive FrameForm where
  | name
  | group
deriving DecidableEq

/-- An embedded expression that is not closed yet, and the tokens directly in it. -/
structure Frame where
  form : FrameForm
  inside : List Token

namespace Frame

/-- The frame that a text of a string opens at its end. -/
def openedBy (text : Bytes) : Frame :=
  ⟨if text.getLast? = some (byte '(') then .group else .name, []⟩

/-- A token stands in the innermost frame. -/
def add (t : Token) : List Frame → List Frame
  | [] => []
  | frame :: outer => { frame with inside := frame.inside ++ [t] } :: outer

/-- The frames that are open behind a token, from those before it. -/
def step (frames : List Frame) (t : Token) : List Frame :=
  match t.lexeme with
  | .stringStart _ => openedBy t.text :: frames
  | .stringMiddle _ => openedBy t.text :: frames.tail
  | .stringEnd _ => frames.tail
  | _ => add t frames

theorem step_of_plain {t : Token} (hstart : t.lexeme.isStart = false)
    (hresumes : t.lexeme.resumes = false) (frames : List Frame) : step frames t = add t frames := by
  unfold step
  split <;> simp_all [Lexeme.isStart, Lexeme.resumes]

@[simp] theorem length_add (t : Token) (frames : List Frame) :
    (add t frames).length = frames.length := by
  cases frames <;> rfl

/-- A frame more behind the first text of a string, and one less behind the last. -/
theorem length_step {t : Token} {frames : List Frame} (h : t.lexeme.resumes → frames ≠ []) :
    (step frames t).length + (if t.lexeme.isFinish then 1 else 0) =
      frames.length + if t.lexeme.isStart then 1 else 0 := by
  unfold step
  cases frames with
  | nil => split <;> simp_all [Lexeme.resumes, Lexeme.isStart, Lexeme.isFinish]
  | cons => split <;> simp_all [Lexeme.resumes, Lexeme.isStart, Lexeme.isFinish]

end Frame

/-- The frames that are open behind some tokens, the innermost first. -/
def openFrames (ts : List Token) : List Frame := ts.foldl Frame.step []

/-- How often a sign occurs among some tokens. -/
def countSign (sign : Symbol) (ts : List Token) : Nat := ts.countP (·.lexeme == .symbol sign)

/-- All of an embedded expression has been read: one word, or tokens with as many closing parentheses
as opening ones. -/
inductive Frame.Complete : Frame → Prop
  | name {t : Token} (word : t.lexeme.isWord) : Complete ⟨.name, [t]⟩
  | group {inside : List Token}
      (balance : countSign .closeParen inside = countSign .openParen inside) :
      Complete ⟨.group, inside⟩

/-- What a scanner knows of a frame: whether the word of a `$name` has been read, and how many more
parentheses have been opened than closed in a `$( )`. -/
inductive Span.Mirrors : Span → Frame → Prop
  | name : Mirrors .name ⟨.name, []⟩
  | tail {t : Token} (word : t.lexeme.isWord) : Mirrors .tail ⟨.name, [t]⟩
  | group {depth : Nat} {inside : List Token}
      (balance : depth + countSign .closeParen inside = countSign .openParen inside) :
      Mirrors (.group depth) ⟨.group, inside⟩

/-- The spans are those of the frames, and none but the innermost is that of a `$name`. -/
inductive SpansMirror : List Span → List Frame → Prop
  | nil : SpansMirror [] []
  | cons {span : Span} {frame : Frame} {spans : List Span} {frames : List Frame}
      (first : span.Mirrors frame) (rest : SpansMirror spans frames)
      (groups : ∀ span ∈ spans, ∃ depth, span = .group depth) :
      SpansMirror (span :: spans) (frame :: frames)

/-! ## What a token can do to the spans -/

namespace Scanner

/-- The string around a span goes on: the word of a name has been read, or no parenthesis is open. -/
def Resumable (span : Span) : Prop := span = .tail ∨ span = .group 0

/-- The ways in which a token that is no fault changes the spans. -/
inductive SpanMove : List Span → Token → List Span → Prop
  | word {t : Token} {outer : List Span} (word : t.lexeme.isWord) :
      SpanMove (.name :: outer) t (.tail :: outer)
  | finish {t : Token} {span : Span} {outer : List Span} {value : Bytes} (ready : Resumable span)
      (lexeme : t.lexeme = .stringEnd value) : SpanMove (span :: outer) t outer
  | resume {t : Token} {span : Span} {outer : List Span} {value : Bytes} (ready : Resumable span)
      (lexeme : t.lexeme = .stringMiddle value) :
      SpanMove (span :: outer) t (openedBy t.text :: outer)
  | start {t : Token} {spans : List Span} {value : Bytes} (outside : inName spans = false)
      (lexeme : t.lexeme = .stringStart value) : SpanMove spans t (openedBy t.text :: spans)
  | openParen {t : Token} {spans : List Span} (outside : inName spans = false)
      (lexeme : t.lexeme = .symbol .openParen) : SpanMove spans t (openParen spans)
  | closeParen {t : Token} {spans : List Span} (outside : inName spans = false)
      (inner : spans.head? ≠ some (.group 0)) (lexeme : t.lexeme = .symbol .closeParen) :
      SpanMove spans t (closeParen spans)
  | other {t : Token} {spans : List Span} (outside : inName spans = false)
      (start : t.lexeme.isStart = false) (resumes : t.lexeme.resumes = false)
      (opening : t.lexeme ≠ .symbol .openParen) (closing : t.lexeme ≠ .symbol .closeParen) :
      SpanMove spans t spans

/-- A token outside `$name` that does not resume a string. -/
theorem spanMove_of_takes {spans : List Span} {source : Bytes} {r : Reading}
    (h : r.Takes spans false source) (outside : inName spans = false)
    (hok : r.lexeme.isFault = false)
    (inner : r.lexeme = .symbol .closeParen → spans.head? ≠ some (.group 0))
    (comments : List Comment) (l : Location) :
    SpanMove spans (emit comments l r).1 (emit comments l r).2.spans := by
  have hspans := h.spans
  have htail := h.tail
  obtain ⟨x, text, rest, spans'⟩ := r
  simp only at hspans htail hok inner
  subst hspans
  simp only [emit, spansAfter, htail, Bool.false_eq_true, if_false]
  cases x with
  | fault => cases hok
  | stringMiddle => cases htail
  | stringEnd => cases htail
  | stringStart => exact .start outside rfl
  | symbol sign =>
    cases sign with
    | openParen => exact .openParen outside rfl
    | closeParen => exact .closeParen outside (inner rfl) rfl
    | _ => exact .other outside rfl rfl (by simp) (by simp)
  | identifier =>
    rw [named_of_not_inName outside]
    exact .other outside rfl rfl (by simp) (by simp)
  | keyword =>
    rw [named_of_not_inName outside]
    exact .other outside rfl rfl (by simp) (by simp)
  | _ => exact .other outside rfl rfl (by simp) (by simp)

/-- A token that resumes a string. -/
theorem spanMove_of_resumes {span : Span} {outer : List Span} {source : Bytes} {r : Reading}
    (h : r.Takes (span :: outer) true source) (ready : Resumable span)
    (hok : r.lexeme.isFault = false) (comments : List Comment) (l : Location) :
    SpanMove (span :: outer) (emit comments l r).1 (emit comments l r).2.spans := by
  have hspans := h.spans
  have htail := h.tail
  obtain ⟨x, text, rest, spans'⟩ := r
  simp only at hspans htail hok
  subst hspans
  simp only [emit, spansAfter, htail, if_true, List.tail_cons]
  cases x with
  | fault => cases hok
  | stringMiddle => exact .resume ready rfl
  | stringEnd => exact .finish ready rfl
  | _ => cases htail

theorem isWord_readWord (spans : List Span) (rest : Bytes) :
    (readWord spans rest).lexeme.isWord := by
  simp only [readWord]
  split <;> rfl

/-- All that a token can do to the spans. -/
theorem next_spanMove (s : Scanner) (hok : s.next.1.lexeme.isFault = false) :
    SpanMove s.spans s.next.1 s.next.2.spans := by
  obtain ⟨rest, l, spans, afterOperand⟩ := s
  revert hok
  unfold next
  split
  · rename_i outer hspans
    obtain rfl : spans = .name :: outer := hspans
    exact fun _ => .word (isWord_readWord (.tail :: outer) rest)
  · rename_i outer hspans
    obtain rfl : spans = .tail :: outer := hspans
    exact fun hok => spanMove_of_resumes (readTail_takes .tail outer rest) (.inl rfl) hok _ _
  · rename_i hname htail
    have outside : inName spans = false := by
      unfold inName
      split
      · exact absurd rfl (hname _)
      · exact absurd rfl (htail _)
      · rfl
    split
    · intro hok
      cases hok
    · exact fun _ => .other outside rfl rfl (by simp [emit]) (by simp [emit])
    · rename_i comments l' c cs _
      have htakes := readLexeme_takes outside afterOperand c cs
      split
      · rename_i outer hgroup
        obtain rfl : spans = .group 0 :: outer := hgroup
        split
        · exact fun hok => spanMove_of_resumes (readTail_takes (.group 0) outer cs) (.inr rfl) hok _ _
        · rename_i hc
          have hread := readLexeme_readsLexeme (.group 0 :: outer) c cs afterOperand
          refine fun hok => spanMove_of_takes htakes outside hok (fun h => ?_) _ _
          exact absurd (hread.eq_closeParen h) (by simpa using hc)
      · rename_i hgroup
        refine fun hok => spanMove_of_takes htakes outside hok (fun _ hhead => ?_) _ _
        obtain ⟨outer, rfl⟩ := List.head?_eq_some_iff.mp hhead
        exact hgroup outer rfl

end Scanner

/-! ## What a token keeps -/

@[simp] theorem countSign_append (sign : Symbol) (ts us : List Token) :
    countSign sign (ts ++ us) = countSign sign ts + countSign sign us := List.countP_append

theorem countSign_self {sign : Symbol} {t : Token} (h : t.lexeme = .symbol sign) :
    countSign sign [t] = 1 := by
  simp [countSign, h]

theorem countSign_other {sign : Symbol} {t : Token} (h : t.lexeme ≠ .symbol sign) :
    countSign sign [t] = 0 := by
  simp [countSign, h]

theorem mirrors_openedBy (text : Bytes) : (openedBy text).Mirrors (Frame.openedBy text) := by
  unfold openedBy Frame.openedBy
  split
  · exact .group rfl
  · exact .name

namespace SpansMirror

variable {spans spans' : List Span} {frames : List Frame} {t : Token}

theorem length_eq (h : SpansMirror spans frames) : spans.length = frames.length := by
  induction h with
  | nil => rfl
  | cons _ _ _ ih => rw [List.length_cons, List.length_cons, ih]

/-- Outside `$name` all spans are those of groups. -/
theorem groups (h : SpansMirror spans frames) (outside : inName spans = false) :
    ∀ span ∈ spans, ∃ depth, span = .group depth := by
  cases h with
  | nil => simp
  | @cons span _ _ _ _ _ hgroups =>
    refine List.forall_mem_cons.mpr ⟨?_, hgroups⟩
    cases span with
    | group depth => exact ⟨depth, rfl⟩
    | _ => cases outside

/-- A token in the innermost frame, which is a group. -/
theorem add (h : SpansMirror spans frames) (outside : inName spans = false)
    (hspans : ∀ depth outer, spans = .group depth :: outer →
      ∃ depth', spans' = .group depth' :: outer ∧
        depth' + countSign .closeParen [t] = depth + countSign .openParen [t])
    (hnil : spans = [] → spans' = []) : SpansMirror spans' (Frame.add t frames) := by
  cases h with
  | nil =>
    rw [hnil rfl]
    exact .nil
  | cons first rest hgroups =>
    cases first with
    | name => cases outside
    | tail => cases outside
    | group balance =>
      obtain ⟨depth', rfl, hdepth⟩ := hspans _ _ rfl
      refine .cons (.group ?_) rest hgroups
      simp only [countSign_append]
      omega

/-- What a token that is no fault does to the spans, it does to the frames. -/
theorem move (h : SpansMirror spans frames) (hmove : Scanner.SpanMove spans t spans') :
    SpansMirror spans' (Frame.step frames t) := by
  cases hmove with
  | word hword =>
    obtain ⟨hstart, hresumes⟩ := Lexeme.plain_of_isWord hword
    rw [Frame.step_of_plain hstart hresumes]
    cases h with
    | cons first rest hgroups =>
      cases first
      exact .cons (.tail hword) rest hgroups
  | finish _ hlexeme =>
    rw [Frame.step, hlexeme]
    cases h with
    | cons _ rest _ => exact rest
  | resume _ hlexeme =>
    rw [Frame.step, hlexeme]
    cases h with
    | cons _ rest hgroups => exact .cons (mirrors_openedBy _) rest hgroups
  | start outside hlexeme =>
    rw [Frame.step, hlexeme]
    exact .cons (mirrors_openedBy _) h (h.groups outside)
  | openParen outside hlexeme =>
    have hclose : t.lexeme ≠ .symbol .closeParen := by simp [hlexeme]
    rw [Frame.step, hlexeme]
    refine h.add outside (fun depth outer hspans => ?_) fun hspans => by rw [hspans]; rfl
    rw [hspans, countSign_self hlexeme, countSign_other hclose]
    exact ⟨depth + 1, rfl, rfl⟩
  | closeParen outside inner hlexeme =>
    have hopen : t.lexeme ≠ .symbol .openParen := by simp [hlexeme]
    rw [Frame.step, hlexeme]
    refine h.add outside (fun depth outer hspans => ?_) fun hspans => by rw [hspans]; rfl
    -- the parenthesis that closes the span itself is not read as a token
    have hdepth : depth ≠ 0 := by
      rintro rfl
      exact inner (by rw [hspans]; rfl)
    rw [hspans, countSign_self hlexeme, countSign_other hopen]
    exact ⟨depth - 1, rfl, by omega⟩
  | other outside hstart hresumes hopen hclose =>
    rw [Frame.step_of_plain hstart hresumes]
    refine h.add outside (fun depth outer hspans => ⟨depth, hspans, ?_⟩) id
    rw [countSign_other hopen, countSign_other hclose]

/-- A string goes on behind a frame of which all has been read. -/
theorem complete (h : SpansMirror spans frames) (hmove : Scanner.SpanMove spans t spans')
    (hresumes : t.lexeme.resumes) : ∃ frame outer, frames = frame :: outer ∧ frame.Complete := by
  have hready : ∃ span outer, spans = span :: outer ∧ Scanner.Resumable span := by
    cases hmove with
    | finish ready => exact ⟨_, _, rfl, ready⟩
    | resume ready => exact ⟨_, _, rfl, ready⟩
    | word hword => simp [Lexeme.plain_of_isWord hword] at hresumes
    | start _ hlexeme => simp [hlexeme, Lexeme.resumes] at hresumes
    | openParen _ hlexeme => simp [hlexeme, Lexeme.resumes] at hresumes
    | closeParen _ _ hlexeme => simp [hlexeme, Lexeme.resumes] at hresumes
    | other _ _ hnot => simp [hnot] at hresumes
  obtain ⟨span, outer, rfl, hspan⟩ := hready
  cases h with
  | @cons _ frame _ outer first _ _ =>
    refine ⟨frame, outer, rfl, ?_⟩
    obtain rfl | rfl := hspan
    · cases first with
      | tail word => exact .name word
    · cases first with
      | group balance => exact .group (by omega)

end SpansMirror

/-! ## Runs -/

namespace Scanner

/-- The scanner after so many tokens. -/
def after : Nat → Scanner → Scanner
  | 0, s => s
  | n + 1, s => after n s.next.2

variable {s : Scanner} {frames : List Frame}

/-- Tokens without a fault. -/
def FaultFree (ts : List Token) : Prop := ∀ t ∈ ts, t.lexeme.isFault = false

private theorem mirror_after {n : Nat} (h : SpansMirror s.spans frames) (hok : FaultFree (stream n s)) :
    SpansMirror (s.after n).spans ((stream n s).foldl Frame.step frames) := by
  induction n generalizing s frames with
  | zero => exact h
  | succ n ih =>
    obtain ⟨hfirst, hrest⟩ := List.forall_mem_cons.mp hok
    exact ih (h.move (next_spanMove s hfirst)) hrest

/-- A string that goes on stands behind a frame of which all has been read. -/
theorem complete_of_resumes {n : Nat} (h : SpansMirror s.spans frames)
    (hok : FaultFree (stream n s)) {ts rest : List Token} {t : Token}
    (hstream : stream n s = ts ++ t :: rest) (ht : t.lexeme.resumes) :
    (s.after ts.length).spans ≠ [] ∧
      ∃ frame outer, ts.foldl Frame.step frames = frame :: outer ∧ frame.Complete := by
  induction n generalizing s frames ts with
  | zero => simp [stream, collect] at hstream
  | succ n ih =>
    obtain ⟨hfirst, hrest⟩ := List.forall_mem_cons.mp hok
    have hmove := next_spanMove s hfirst
    rw [stream_succ] at hstream
    cases ts with
    | nil =>
      obtain ⟨rfl, -⟩ := List.cons.inj hstream
      obtain ⟨frame, outer, rfl, hcomplete⟩ := h.complete hmove ht
      refine ⟨fun hnil => ?_, frame, outer, rfl, hcomplete⟩
      have hlength := h.length_eq
      simp only [after, List.length_nil] at hnil
      rw [hnil] at hlength
      cases hlength
    | cons u ts =>
      obtain ⟨rfl, htail⟩ := List.cons.inj hstream
      exact ih (h.move hmove) hrest htail

private theorem length_frames {n : Nat} (h : SpansMirror s.spans frames) (hok : FaultFree (stream n s)) :
    ((stream n s).foldl Frame.step frames).length + (stream n s).countP (·.lexeme.isFinish) =
      frames.length + (stream n s).countP (·.lexeme.isStart) := by
  induction n generalizing s frames with
  | zero => rfl
  | succ n ih =>
    obtain ⟨hfirst, hrest⟩ := List.forall_mem_cons.mp hok
    have hmove := next_spanMove s hfirst
    have hstep := Frame.length_step fun hresumes => by
      obtain ⟨frame, outer, hframes, -⟩ := h.complete hmove hresumes
      exact hframes ▸ List.cons_ne_nil frame outer
    have hmore := ih (h.move hmove) hrest
    rw [stream_succ, List.foldl_cons, List.countP_cons, List.countP_cons]
    omega

end Scanner

/-- As long as there is no fault, the spans of a scanner are those of the tokens that it has given:
there are as many as strings have begun and not ended, each is the span of its frame, and a string goes
on only behind a frame of which all has been read. -/
theorem frames_mirror_tokens (source : Bytes) (file n : Nat)
    (hok : Scanner.FaultFree (Scanner.stream n (.start source file))) :
    ((Scanner.start source file).after n).spans.length +
          (Scanner.stream n (.start source file)).countP (·.lexeme.isFinish) =
        (Scanner.stream n (.start source file)).countP (·.lexeme.isStart) ∧
      SpansMirror ((Scanner.start source file).after n).spans
        (openFrames (Scanner.stream n (.start source file))) ∧
      ∀ ts t rest, Scanner.stream n (.start source file) = ts ++ t :: rest → t.lexeme.resumes →
        ((Scanner.start source file).after ts.length).spans ≠ [] ∧
          ∃ frame outer, openFrames ts = frame :: outer ∧ frame.Complete := by
  have hstart : SpansMirror (Scanner.start source file).spans [] := .nil
  have hmirror := Scanner.mirror_after hstart hok
  refine ⟨?_, hmirror, fun ts t rest => Scanner.complete_of_resumes hstart hok⟩
  rw [hmirror.length_eq, Scanner.length_frames hstart hok]
  exact Nat.zero_add _

/-- A string in an embedded expression of another. -/
def nestedSource : Bytes := ascii "-t $(f(-u $v w-)) z-"

/-- Behind the fourth token two strings are open, the inner one at its embedded name, and one
parenthesis in the outer one. Behind the eighth both have ended. -/
theorem nestedSource_frames :
    Scanner.FaultFree (Scanner.stream 4 (.start nestedSource 0)) ∧
      ((Scanner.start nestedSource 0).after 4).spans = [.name, .group 1] ∧
      SpansMirror [.name, .group 1] (openFrames (Scanner.stream 4 (.start nestedSource 0))) ∧
      ((Scanner.start nestedSource 0).after 8).spans = [] ∧
      SpansMirror [] (openFrames (Scanner.stream 8 (.start nestedSource 0))) := by
  have hall : (Scanner.stream 8 (.start nestedSource 0)).all (!·.lexeme.isFault) := by
    decide +kernel
  have hok : Scanner.FaultFree (Scanner.stream 8 (.start nestedSource 0)) := fun t ht => by
    simpa using List.all_eq_true.mp hall t ht
  have hok' : Scanner.FaultFree (Scanner.stream 4 (.start nestedSource 0)) := fun t ht => by
    rw [← Scanner.take_stream (show 4 ≤ 8 by decide)] at ht
    exact hok t (List.mem_of_mem_take ht)
  have hspans : ((Scanner.start nestedSource 0).after 4).spans = [.name, .group 1] := by
    decide +kernel
  have hspans' : ((Scanner.start nestedSource 0).after 8).spans = [] := by decide +kernel
  refine ⟨hok', hspans, ?_, hspans', ?_⟩
  · rw [← hspans]
    exact (frames_mirror_tokens nestedSource 0 4 hok').2.1
  · rw [← hspans']
    exact (frames_mirror_tokens nestedSource 0 8 hok).2.1

end Roar
