import Roar.Grammar.Parser
import Roar.Proofs.Grammar.Derivation

/-!
# What a rule reads

A parser stands before the tokens that it has not used yet (`Parser.At`); the comments of the first of
them may have been taken already (`Parser.Near`). A rule that succeeds has read some tokens, and these
derive its result (`Parse.Reads`), or it has read none or more (`Parse.ReadsOn`).
-/

namespace Roar.Grammar

/-! ## Where a parser stands -/

/-- A lexeme that a parser does not pass. -/
def isFinal (x : Lexeme) : Bool := x.isEnd || x.isFault

/-- Tokens up to one that a parser does not pass. -/
inductive Closed : List Token → Prop
  | last {t : Token} (final : isFinal t.lexeme) : Closed [t]
  | cons {t : Token} {ts : List Token} (passed : ¬ isFinal t.lexeme) (rest : Closed ts) :
      Closed (t :: ts)

theorem Closed.tail {t : Token} {ts : List Token} (h : Closed (t :: ts))
    (ht : ¬ isFinal t.lexeme) : Closed ts := by
  cases h with
  | last final => exact absurd final ht
  | cons _ rest => exact rest

theorem Closed.eq_nil {t : Token} {ts : List Token} (h : Closed (t :: ts)) (ht : isFinal t.lexeme) :
    ts = [] := by
  cases h with
  | last _ => rfl
  | cons passed _ => exact absurd ht passed

/-- The same token, but for its comments. -/
structure SameToken (t u : Token) : Prop where
  lexeme : t.lexeme = u.lexeme
  text : t.text = u.text
  location : t.location = u.location

namespace Parser

variable {p : Parser} {ts : List Token}

/-- The parser stands before these tokens. -/
structure At (p : Parser) (ts : List Token) : Prop where
  tokens : p.current :: p.ahead = ts
  closed : Closed ts

/-- The parser stands before these tokens, but the comments of the first may be gone. -/
structure Near (p : Parser) (ts : List Token) : Prop where
  tokens : ∃ t, ts = t :: p.ahead ∧ SameToken t p.current
  closed : Closed ts

theorem At.near (h : At p ts) : Near p ts := ⟨⟨p.current, h.tokens.symm, rfl, rfl, rfl⟩, h.closed⟩

/-- A token that can be passed is taken. -/
theorem Near.take (h : Near p ts) (hopen : ¬ isFinal p.current.lexeme) :
    ∃ t rest, ts = t :: rest ∧ SameToken t p.current ∧ At p.advance rest := by
  obtain ⟨⟨t, rfl, ht⟩, hclosed⟩ := h
  refine ⟨t, p.ahead, rfl, ht, ?_⟩
  have hrest := hclosed.tail (by rwa [ht.lexeme])
  obtain ⟨current, ahead, failed, report⟩ := p
  cases ahead with
  | nil => cases hrest
  | cons u us => exact ⟨rfl, hrest⟩

end Parser

open Roar.Grammar.Parser (At Near)

/-! ## Rules -/

namespace Parse

variable {α β : Type} {p p' : Parser} {ts : List Token}

theorem exists_of_bind {rule : Parse α} {next : α → Parse β} {b : β}
    (h : (rule >>= next) p = (some b, p')) :
    ∃ a q, rule p = (some a, q) ∧ next a q = (some b, p') := by
  simp only [bind] at h
  split at h
  · rename_i a q hrule
    exact ⟨a, q, hrule, h⟩
  · cases h

theorem current_bind (next : Token → Parse β) : (current >>= next) p = next p.current p := rfl

theorem advance_bind (next : Token → Parse β) :
    (advance >>= next) p = next p.current p.advance := rfl

theorem at?_bind (sign : Symbol) (next : Bool → Parse β) :
    (at? sign >>= next) p = next (p.current.lexeme == .symbol sign) p := rfl

theorem takeComments_bind (next : List Comment → Parse β) :
    (takeComments >>= next) p =
      next p.current.comments { p with current := { p.current with comments := [] } } := rfl

/-- A rule that succeeds has read tokens, one at least, and `derives` says what they stand for. -/
def Reads (rule : Parse α) (derives : List Token → α → Prop) : Prop :=
  ∀ ⦃p ts a p'⦄, Near p ts → rule p = (some a, p') →
    ∃ used rest, ts = used ++ rest ∧ used ≠ [] ∧ derives used a ∧ At p' rest

/-- The same for a rule that goes on where another has stopped, and may read nothing. -/
def ReadsOn (rule : Parse α) (derives : List Token → α → Prop) : Prop :=
  ∀ ⦃p ts a p'⦄, At p ts → rule p = (some a, p') →
    ∃ used rest, ts = used ++ rest ∧ derives used a ∧ At p' rest

theorem reads_stop (derives : List Token → α → Prop) : Reads stop derives := by
  intro p ts a p' _ hr
  cases hr

theorem readsOn_stop (derives : List Token → α → Prop) : ReadsOn stop derives := by
  intro p ts a p' _ hr
  cases hr

/-- The first of the tokens that a rule has used is the one before which the parser stood. -/
theorem exists_cons_of_near {used rest : List Token} (h : Near p (used ++ rest)) (hne : used ≠ []) :
    ∃ t us, used = t :: us ∧ SameToken t p.current := by
  obtain ⟨t, us, rfl⟩ := List.exists_cons_of_ne_nil hne
  obtain ⟨⟨u, hu, hsame⟩, -⟩ := h
  obtain rfl : t = u := by simpa using congrArg List.head? hu
  exact ⟨t, us, rfl, hsame⟩

theorem sound_eq {u : Unit} (hr : sound p = (some u, p')) : p' = p := by
  unfold sound at hr
  split at hr
  · cases hr
  · cases hr
    rfl

/-! ### Single tokens -/

/-- A token with this lexeme is taken. -/
theorem take_of_lexeme {x : Lexeme} (h : Near p ts) (hx : p.current.lexeme = x)
    (hopen : isFinal x = false) :
    ∃ t rest, ts = t :: rest ∧ t.lexeme = x ∧ SameToken t p.current ∧ At p.advance rest := by
  obtain ⟨t, rest, rfl, ht, hat⟩ := h.take (by simp [hx, hopen])
  exact ⟨t, rest, rfl, ht.lexeme.trans hx, ht, hat⟩

/-- A rule that takes one token and nothing else. -/
theorem single_reads {x : Lexeme} {derives : List Token → α → Prop} {a : α} (h : Near p ts)
    (hx : p.current.lexeme = x) (hopen : isFinal x = false)
    (hderives : ∀ t, t.lexeme = x → SameToken t p.current → derives [t] a) :
    ∃ used rest, ts = used ++ rest ∧ used ≠ [] ∧ derives used a ∧ At p.advance rest := by
  obtain ⟨t, rest, rfl, ht, hsame, hat⟩ := take_of_lexeme h hx hopen
  exact ⟨[t], rest, rfl, by simp, hderives t ht hsame, hat⟩

theorem expect_reads {sign : Symbol} {u : Unit} (h : Near p ts)
    (hr : expect sign p = (some u, p')) :
    ∃ t rest, ts = t :: rest ∧ t.lexeme = .symbol sign ∧ SameToken t p.current ∧ At p' rest := by
  unfold expect at hr
  split at hr
  · rename_i hx
    cases hr
    exact take_of_lexeme h (by simpa using hx) rfl
  · cases hr

theorem expectKeyword_reads {word : Keyword} {u : Unit} (h : Near p ts)
    (hr : expectKeyword word p = (some u, p')) :
    ∃ t rest, ts = t :: rest ∧ t.lexeme = .keyword word ∧ SameToken t p.current ∧ At p' rest := by
  unfold expectKeyword at hr
  split at hr
  · rename_i hx
    cases hr
    exact take_of_lexeme h (by simpa using hx) rfl
  · cases hr

theorem isWord_iff {t : Token} {text : Bytes} : isWord t text ↔ Derives.IsName t text := by
  unfold isWord
  constructor
  · intro h
    simp only [Bool.and_eq_true, beq_iff_eq] at h
    exact ⟨h.1, h.2⟩
  · intro h
    simp [h.lexeme, h.text]

theorem take_of_isWord {text : Bytes} (h : Near p ts) (hx : isWord p.current text) :
    ∃ t rest, ts = t :: rest ∧ Derives.IsName t text ∧ At p.advance rest := by
  obtain ⟨hlexeme, htext⟩ := isWord_iff.mp hx
  obtain ⟨t, rest, rfl, hl, ht, hat⟩ := take_of_lexeme h hlexeme rfl
  exact ⟨t, rest, rfl, ⟨hl, ht.text.trans htext⟩, hat⟩

theorem expectWord_reads {text : Bytes} {u : Unit} (h : Near p ts)
    (hr : expectWord text p = (some u, p')) :
    ∃ t rest, ts = t :: rest ∧ Derives.IsName t text ∧ At p' rest := by
  unfold expectWord at hr
  split at hr
  · rename_i hx
    cases hr
    exact take_of_isWord h hx
  · cases hr

theorem name_reads {what : Expected} {t : Token} (h : Near p ts) (hr : name what p = (some t, p')) :
    ∃ u rest, ts = u :: rest ∧ u.lexeme = .identifier ∧ SameToken u t ∧ At p' rest := by
  unfold name at hr
  split at hr
  · rename_i hx
    cases hr
    exact take_of_lexeme h (by simpa using hx) rfl
  · cases hr

/-! ### Lists in parentheses -/

/-- Something in front of a closing parenthesis. -/
inductive Ended (derives : List Token → α → Prop) : List Token → α → Prop
  | closed {us : List Token} {closing : Token} {a : α} (inner : derives us a)
      (right : closing.lexeme = .symbol .closeParen) : Ended derives (us ++ [closing]) a

/-- An item, and more of them after a comma, in front of a closing parenthesis. -/
theorem commaList_reads {item : Parse α} {f : α → β} {more : Parse (List β)}
    {derives : List Token → α → Prop} {derivesList : List Token → List β → Prop}
    (hitem : Reads item derives) (hmore : Reads more (Ended derivesList))
    (hone : ∀ us a, derives us a → derivesList us [f a])
    (hcons : ∀ us comma vs a bs, derives us a → comma.lexeme = .symbol .comma →
      derivesList vs bs → derivesList (us ++ comma :: vs) (f a :: bs)) :
    Reads
      (do
        let a ← item
        if ← at? .comma then
          let _ ← advance
          let bs ← more
          pure (f a :: bs)
        else
          expect .closeParen
          pure [f a])
      (Ended derivesList) := by
  intro p ts bs p' hp hr
  obtain ⟨a, q, ha, hr⟩ := exists_of_bind hr
  obtain ⟨us, rest, rfl, hne, hus, hq⟩ := hitem hp ha
  rw [at?_bind] at hr
  split at hr
  · rename_i hcomma
    rw [advance_bind] at hr
    obtain ⟨bs, q', hbs, hr⟩ := exists_of_bind hr
    cases hr
    obtain ⟨comma, ts, rfl, hsign, -, hat⟩ := take_of_lexeme hq.near (by simpa using hcomma) rfl
    obtain ⟨vs, rest, rfl, -, hvs, hp'⟩ := hmore hat.near hbs
    obtain @⟨vs, closing, _, hinner, hclosing⟩ := hvs
    exact ⟨(us ++ comma :: vs) ++ [closing], rest, by simp, by simp,
      .closed (hcons us comma vs a bs hus hsign hinner) hclosing, hp'⟩
  · obtain ⟨_, q', hclose, hr⟩ := exists_of_bind hr
    cases hr
    obtain ⟨closing, rest, rfl, hclosing, -, hp'⟩ := expect_reads hq.near hclose
    exact ⟨us ++ [closing], rest, by simp, by simp, .closed (hone us a hus) hclosing, hp'⟩

/-- Such a list, or only the closing parenthesis. -/
theorem optionalList_reads {list : Parse (List α)} {derivesList derives : List Token → List α → Prop}
    (hlist : Reads list (Ended derivesList)) (hnone : derives [] [])
    (hsome : ∀ us as, derivesList us as → derives us as) :
    Reads
      (do
        if ← at? .closeParen then
          let _ ← advance
          pure []
        else list)
      (Ended derives) := by
  intro p ts as p' hp hr
  rw [at?_bind] at hr
  split at hr
  · rename_i hparen
    cases hr
    obtain ⟨closing, rest, rfl, hclosing, -, hp'⟩ := take_of_lexeme hp (by simpa using hparen) rfl
    exact ⟨[] ++ [closing], rest, rfl, by simp, .closed hnone hclosing, hp'⟩
  · obtain ⟨us, rest, rfl, hne, hus, hp'⟩ := hlist hp hr
    obtain ⟨hinner, hclosing⟩ := hus
    exact ⟨_, rest, rfl, hne, .closed (hsome _ _ hinner) hclosing, hp'⟩

end Parse

end Roar.Grammar
