import Roar.Proofs.CommandLine.Runs

/-!
# What a command line says

A command line is read from left to right. `Item.Written` says how each option and each positional
argument is written, and `Splits` cuts a whole command line into such items, in one way at most
(`Splits.unique`). Every field of what is asked for has the value that the last option for it gives, or
its default (`Config.after`).

There should be one positional argument, the source (`Accounted`). But while the source is empty the
next positional argument is taken for it, so a command line is accepted if one that is not empty stands
behind any number of empty ones (`ofArgs_eq_ok_iff`). The two differ where an empty argument stands
alone or before the source, and nowhere else (`commandLine_accounted_iff`).
-/

namespace Roar.CommandLine

/-- What is said by an option with its value, or by a positional argument. -/
inductive Item where
  | help
  | version
  | output (path : Bytes)
  | target (name : Bytes)
  | optimize (on : Bool)
  | dump
  | positional (arg : Bytes)
deriving DecidableEq, Repr

namespace Item

/-- How an item is written. The value of an option is any argument. -/
inductive Written : Item → List Bytes → Prop
  | help : Written .help [ascii "-h"]
  | longHelp : Written .help [ascii "--help"]
  | version : Written .version [ascii "--version"]
  | output {path : Bytes} : Written (.output path) [ascii "-o", path]
  | target {name : Bytes} : Written (.target name) [ascii "--target", name]
  | targetIs {name : Bytes} : Written (.target name) [ascii "--target=" ++ name]
  | off : Written (.optimize false) [ascii "-O0"]
  | on : Written (.optimize true) [ascii "-O1"]
  | dump : Written .dump [ascii "--dump-ast"]
  | positional {arg : Bytes} (start : arg.head? ≠ some (byte '-')) : Written (.positional arg) [arg]

def output? : Item → Option Bytes
  | output path => some path
  | _ => none

def target? : Item → Option Bytes
  | target name => some name
  | _ => none

def optimize? : Item → Option Bool
  | optimize on => some on
  | _ => none

def dump? : Item → Option Bool
  | dump => some true
  | _ => none

def help? : Item → Option Bool
  | help => some true
  | _ => none

def version? : Item → Option Bool
  | version => some true
  | _ => none

def positional? : Item → Option Bytes
  | positional arg => some arg
  | _ => none

end Item

/-- The arguments are those of some items, one after the other. -/
inductive Splits : List Bytes → List Item → Prop
  | nil : Splits [] []
  | cons {words rest : List Bytes} {item : Item} {items : List Item} (first : item.Written words)
      (more : Splits rest items) : Splits (words ++ rest) (item :: items)

/-- The positional arguments among some items. -/
def positionals (items : List Item) : List Bytes := items.filterMap Item.positional?

/-- What the last of the items gives that give something. -/
def lastGiven {α : Type} (given : Item → Option α) (default : α) (items : List Item) : α :=
  (items.filterMap given).getLast?.getD default

/-- A source, and in every other field what the last item for it gives. -/
def Config.after (c : Config) (source : Bytes) (items : List Item) : Config where
  source := source
  output := lastGiven Item.output? c.output items
  compile :=
    { optimize := lastGiven Item.optimize? c.compile.optimize items
      target := lastGiven Item.target? c.compile.target items
      dump := lastGiven Item.dump? c.compile.dump items }
  help := lastGiven Item.help? c.help items
  version := lastGiven Item.version? c.version items

/-- The items ask for a compilation. -/
def AsksToCompile (items : List Item) : Prop := .help ∉ items ∧ .version ∉ items

/-- A compilation is asked for if and only if the command line splits into options, neither for help nor
for the version, and one positional argument. This is then the source, and the last option counts for
every other field. -/
def Accounted (args : List Bytes) : Prop :=
  ∀ c, (Config.ofArgs args = .ok c ∧ c.Compiles) ↔
    ∃ items source, Splits args items ∧ AsksToCompile items ∧ positionals items = [source] ∧
      c = Config.after {} source items

/-! ## One argument -/

/-- What an argument by itself makes of the arguments behind it. -/
inductive Item.Takes (arg : Bytes) : Argument → Item → List Bytes → Prop
  | help : Takes arg .help .help []
  | version : Takes arg .version .version []
  | output {path : Bytes} : Takes arg .output (.output path) [path]
  | target {name : Bytes} : Takes arg .target (.target name) [name]
  | targetIs {name : Bytes} : Takes arg (.targetIs name) (.target name) []
  | optimize {on : Bool} : Takes arg (.optimize on) (.optimize on) []
  | dump : Takes arg .dump .dump []
  | positional : Takes arg .positional (.positional arg) []

private theorem ofText_positional {arg : Bytes} (h : arg.head? ≠ some (byte '-')) :
    Argument.ofText arg = .positional := by
  have hne {option : Bytes} (hoption : option.head? = some (byte '-')) : arg ≠ option := by
    rintro rfl
    exact h hoption
  have htarget : targetPrefix.isPrefixOf arg = false := by
    rw [← Bool.not_eq_true, List.isPrefixOf_iff_prefix]
    rintro ⟨name, rfl⟩
    exact h rfl
  unfold Argument.ofText
  rw [if_neg (not_or.mpr ⟨hne rfl, hne rfl⟩), if_neg (hne rfl), if_neg (hne rfl), if_neg (hne rfl),
    htarget, if_neg Bool.false_ne_true, if_neg (hne rfl), if_neg (hne rfl), if_neg (hne rfl), if_neg h]

/-- An item is written as its first argument and what this argument takes. -/
theorem Item.written_iff {item : Item} {words : List Bytes} :
    item.Written words ↔
      ∃ arg more, words = arg :: more ∧ Takes arg (Argument.ofText arg) item more := by
  constructor
  · intro h
    cases h with
    | help => exact ⟨_, _, rfl, .help⟩
    | longHelp => exact ⟨_, _, rfl, .help⟩
    | version => exact ⟨_, _, rfl, .version⟩
    | output => exact ⟨_, _, rfl, .output⟩
    | target => exact ⟨_, _, rfl, .target⟩
    | targetIs => exact ⟨_, _, rfl, .targetIs⟩
    | off => exact ⟨_, _, rfl, .optimize⟩
    | on => exact ⟨_, _, rfl, .optimize⟩
    | dump => exact ⟨_, _, rfl, .dump⟩
    | positional start => exact ⟨_, _, rfl, ofText_positional start ▸ .positional⟩
  · rintro ⟨arg, more, rfl, h⟩
    unfold Argument.ofText at h
    split at h
    · rename_i harg
      cases h
      obtain rfl | rfl := harg
      · exact .help
      · exact .longHelp
    split at h
    · rename_i harg
      cases h
      exact harg ▸ .version
    split at h
    · rename_i harg
      cases h
      exact harg ▸ .output
    split at h
    · rename_i harg
      cases h
      exact harg ▸ .target
    split at h
    · rename_i harg
      cases h
      obtain ⟨name, rfl⟩ := List.isPrefixOf_iff_prefix.mp harg
      rw [List.drop_left]
      exact .targetIs
    split at h
    · rename_i harg
      cases h
      exact harg ▸ .off
    split at h
    · rename_i harg
      cases h
      exact harg ▸ .on
    split at h
    · rename_i harg
      cases h
      exact harg ▸ .dump
    split at h
    · cases h
    · rename_i harg
      cases h
      exact .positional harg

/-! ## Splitting -/

section Splitting

variable {arg : Bytes} {args more rest : List Bytes} {item : Item} {items : List Item}

theorem Splits.cons_iff :
    Splits (arg :: args) items ↔
      ∃ item more rest tail, args = more ++ rest ∧ Item.Takes arg (Argument.ofText arg) item more ∧
        Splits rest tail ∧ items = item :: tail := by
  constructor
  · intro h
    generalize hwords : arg :: args = words at h
    cases h with
    | nil => cases hwords
    | cons first tail =>
      obtain ⟨arg', more, rfl, htakes⟩ := Item.written_iff.mp first
      cases hwords
      exact ⟨_, more, _, _, rfl, htakes, tail, rfl⟩
  · rintro ⟨item, more, rest, tail, rfl, htakes, hrest, rfl⟩
    exact .cons (Item.written_iff.mpr ⟨arg, more, rfl, htakes⟩) hrest

/-- What an argument takes is settled by what the argument is. -/
theorem Item.Takes.unique {a : Argument} {item' : Item} {more' rest' : List Bytes}
    (h : Item.Takes arg a item more) (h' : Item.Takes arg a item' more')
    (hargs : more ++ rest = more' ++ rest') : item = item' ∧ rest = rest' := by
  cases h with
  | output | target =>
    cases h'
    cases hargs
    exact ⟨rfl, rfl⟩
  | help | version | targetIs | optimize | dump | positional =>
    cases h'
    exact ⟨rfl, hargs⟩

/-- The first item of a command line can be taken off. -/
theorem Splits.exists_cons (h : Item.Takes arg (Argument.ofText arg) item more)
    {P : List Item → Prop} :
    (∃ items, Splits (arg :: (more ++ rest)) items ∧ P items) ↔
      ∃ items, Splits rest items ∧ P (item :: items) := by
  constructor
  · rintro ⟨items, hsplits, hp⟩
    obtain ⟨item', more', rest', tail, hargs, h', htail, rfl⟩ := Splits.cons_iff.mp hsplits
    obtain ⟨rfl, rfl⟩ := h.unique h' hargs
    exact ⟨tail, htail, hp⟩
  · rintro ⟨tail, htail, hp⟩
    exact ⟨item :: tail, Splits.cons_iff.mpr ⟨item, more, rest, tail, rfl, h, htail, rfl⟩, hp⟩

/-- A command line says one thing. -/
theorem Splits.unique {items' : List Item} (h : Splits args items) (h' : Splits args items') :
    items = items' := by
  induction h generalizing items' with
  | nil =>
    generalize hnil : [] = words at h'
    cases h' with
    | nil => rfl
    | cons first _ =>
      obtain ⟨_, _, rfl, -⟩ := Item.written_iff.mp first
      cases hnil
  | cons first _ ih =>
    obtain ⟨arg, more, rfl, htakes⟩ := Item.written_iff.mp first
    obtain ⟨tail, htail, rfl⟩ := (Splits.exists_cons htakes).mp ⟨items', h', rfl⟩
    rw [ih htail]

end Splitting

/-! ## Fields -/

theorem positionals_cons_of_none {item : Item} (h : item.positional? = none) (items : List Item) :
    positionals (item :: items) = positionals items := List.filterMap_cons_none h

theorem positionals_positional (arg : Bytes) (items : List Item) :
    positionals (.positional arg :: items) = arg :: positionals items := rfl

theorem lastGiven_cons {α : Type} (given : Item → Option α) (default : α) (item : Item)
    (items : List Item) :
    lastGiven given default (item :: items) = lastGiven given ((given item).getD default) items := by
  unfold lastGiven
  rw [List.filterMap_cons]
  cases given item with
  | none => rfl
  | some value =>
    simp only [List.getLast?_cons, Option.getD_some]

/-- The items count one after the other. -/
theorem Config.after_cons (c : Config) (first source : Bytes) (item : Item) (items : List Item) :
    c.after source (item :: items) = (c.after first [item]).after source items := by
  simp only [after, lastGiven_cons]
  rfl

/-- An option that only sets a mark has set it if it is there. -/
theorem lastGiven_mark {given : Item → Option Bool} {mark : Item}
    (h : ∀ item, given item = if item = mark then some true else none) (default : Bool)
    (items : List Item) : lastGiven given default items = (default || decide (mark ∈ items)) := by
  induction items generalizing default with
  | nil => simp [lastGiven]
  | cons item items ih =>
    rw [lastGiven_cons, ih, h]
    by_cases hitem : item = mark
    · simp [hitem]
    · simp [hitem, Ne.symm hitem]

theorem Config.compiles_after_iff (source : Bytes) (items : List Item) :
    (Config.after {} source items).Compiles ↔ AsksToCompile items := by
  have hhelp (item : Item) : item.help? = if item = .help then some true else none := by
    cases item <;> rfl
  have hversion (item : Item) : item.version? = if item = .version then some true else none := by
    cases item <;> rfl
  simp only [Compiles, AsksToCompile, after, lastGiven_mark hhelp, lastGiven_mark hversion,
    Bool.false_or, decide_eq_false_iff_not]

/-! ## Reading -/

/-- The source after some more positional arguments: while it is empty, the next one is taken for
it. -/
def sourceAfter? (source : Bytes) : List Bytes → Option Bytes
  | [] => some source
  | arg :: rest => if source = [] then sourceAfter? arg rest else none

/-- The arguments make one configuration out of another: their items count one after the other. -/
def Config.Leads (c : Config) (args : List Bytes) (c' : Config) : Prop :=
  ∃ items, Splits args items ∧
    ∃ source, sourceAfter? c.source (positionals items) = some source ∧ c' = c.after source items

namespace Config

variable {c c' : Config} {arg : Bytes} {args more rest : List Bytes} {item : Item}

theorem leads_nil : c.Leads [] c' ↔ c = c' := by
  constructor
  · rintro ⟨items, hsplits, source, hsource, rfl⟩
    obtain rfl := hsplits.unique .nil
    cases hsource
    rfl
  · rintro rfl
    exact ⟨[], .nil, c.source, rfl, rfl⟩

/-- An option sets its field. -/
theorem leads_option {c₁ : Config} {a : Argument} (hkind : Argument.ofText arg = a)
    (htakes : Item.Takes arg a item more) (hargs : args = more ++ rest)
    (hitem : item.positional? = none) (hset : c.after c.source [item] = c₁) :
    c₁.Leads rest c' ↔ c.Leads (arg :: args) c' := by
  subst hkind hargs hset
  unfold Leads
  rw [Splits.exists_cons htakes]
  refine exists_congr fun items => and_congr_right fun _ => exists_congr fun source => ?_
  rw [positionals_cons_of_none hitem, c.after_cons c.source source item items]
  rfl

/-- A positional argument is the source, if there is none yet. -/
theorem leads_positional (h : Argument.ofText arg = .positional) :
    c.Leads (arg :: args) c' ↔ c.source = [] ∧ Leads { c with source := arg } args c' := by
  have htakes : Item.Takes arg (Argument.ofText arg) (.positional arg) [] := h ▸ .positional
  have hfirst {P : List Item → Prop} : (∃ items, Splits (arg :: args) items ∧ P items) ↔
      ∃ items, Splits args items ∧ P (.positional arg :: items) := Splits.exists_cons htakes
  unfold Leads
  rw [hfirst]
  by_cases hc : c.source = []
  · rw [and_iff_right hc]
    refine exists_congr fun items => and_congr_right fun _ => exists_congr fun source => ?_
    rw [positionals_positional, sourceAfter?, if_pos hc, c.after_cons arg]
    rfl
  · refine iff_of_false ?_ fun hand => hc hand.1
    rintro ⟨items, -, source, hsource, -⟩
    rw [positionals_positional, sourceAfter?, if_neg hc] at hsource
    cases hsource

/-- A flag that is none, or an option without its value, leads nowhere. -/
theorem not_leads {a : Argument} (hkind : Argument.ofText arg = a)
    (h : ∀ item more, Item.Takes arg a item more → ∀ rest, args ≠ more ++ rest) :
    ¬ c.Leads (arg :: args) c' := by
  rintro ⟨items, hsplits, -⟩
  obtain ⟨item, more, rest, -, hargs, htakes, -⟩ := Splits.cons_iff.mp hsplits
  exact h item more (hkind ▸ htakes) rest hargs

/-- Arguments are read as the items that they are split into. -/
theorem readArgs_eq_ok_iff (c c' : Config) (args : List Bytes) :
    c.readArgs args = .ok c' ↔ c.Leads args c' := by
  fun_induction Config.readArgs c args with
  | case1 c => rw [leads_nil, Except.ok.injEq]
  | case2 c arg args hkind ih => exact ih.trans (leads_option hkind .help rfl rfl rfl)
  | case3 c arg args hkind ih => exact ih.trans (leads_option hkind .version rfl rfl rfl)
  | case4 c arg hkind =>
    refine iff_of_false nofun (not_leads hkind fun item more htakes rest => ?_)
    cases htakes
    exact nofun
  | case5 c arg hkind path args ih => exact ih.trans (leads_option hkind .output rfl rfl rfl)
  | case6 c arg hkind =>
    refine iff_of_false nofun (not_leads hkind fun item more htakes rest => ?_)
    cases htakes
    exact nofun
  | case7 c arg hkind name args ih => exact ih.trans (leads_option hkind .target rfl rfl rfl)
  | case8 c arg args name hkind ih => exact ih.trans (leads_option hkind .targetIs rfl rfl rfl)
  | case9 c arg args on hkind ih => exact ih.trans (leads_option hkind .optimize rfl rfl rfl)
  | case10 c arg args hkind ih => exact ih.trans (leads_option hkind .dump rfl rfl rfl)
  | case11 c arg args hkind =>
    refine iff_of_false nofun (not_leads hkind fun item more htakes => ?_)
    cases htakes
  | case12 c arg args hkind hsource ih => rw [ih, leads_positional hkind, and_iff_right hsource]
  | case13 c arg args hkind hsource =>
    rw [leads_positional hkind]
    exact iff_of_false nofun fun h => hsource h.1

end Config

/-! ## Command lines -/

/-- There is a source after one positional argument that is not empty, behind any number of empty
ones. -/
theorem sourceAfter?_eq_some_iff {args : List Bytes} {source : Bytes} (h : source ≠ []) :
    sourceAfter? [] args = some source ↔ ∃ n, args = List.replicate n [] ++ [source] := by
  induction args with
  | nil =>
    constructor
    · intro hsource
      exact absurd (Option.some.inj hsource).symm h
    · rintro ⟨n, hargs⟩
      simp at hargs
  | cons arg rest ih =>
    rw [sourceAfter?, if_pos rfl]
    by_cases harg : arg = []
    · rw [harg, ih]
      constructor
      · rintro ⟨n, rfl⟩
        exact ⟨n + 1, rfl⟩
      · rintro ⟨n, hargs⟩
        cases n with
        | zero => exact absurd (List.cons.inj hargs).1.symm h
        | succ n => exact ⟨n, (List.cons.inj hargs).2⟩
    · cases rest with
      | nil =>
        rw [sourceAfter?, Option.some.injEq]
        constructor
        · rintro rfl
          exact ⟨0, rfl⟩
        · rintro ⟨n, hargs⟩
          cases n with
          | zero => exact (List.cons.inj hargs).1
          | succ n => exact absurd (List.cons.inj hargs).1 harg
      | cons second rest =>
        rw [sourceAfter?, if_neg harg]
        refine iff_of_false nofun ?_
        rintro ⟨n, hargs⟩
        cases n with
        | zero => cases (List.cons.inj hargs).2
        | succ n => exact absurd (List.cons.inj hargs).1 harg

theorem ofArgs_eq_ok {args : List Bytes} {c : Config} :
    (Config.ofArgs args = .ok c ∧ c.Compiles) ↔
      Config.readArgs {} args = .ok c ∧ c.Compiles ∧ c.source ≠ [] := by
  unfold Config.ofArgs
  cases Config.readArgs {} args with
  | error e => exact iff_of_false nofun nofun
  | ok c' =>
    dsimp only
    constructor
    · rintro ⟨hok, hc⟩
      split at hok
      · rename_i hsource
        cases hok
        simp only [hc.1, hc.2, Bool.false_or, decide_eq_true_eq] at hsource
        exact ⟨rfl, hc, hsource⟩
      · cases hok
    · rintro ⟨hok, hc, hsource⟩
      cases hok
      simp [hc, hsource]

/-- A command line is accepted and asks for a compilation if and only if it splits into options, neither
for help nor for the version, and positional arguments of which the last is not empty and all others
are. The last one is the source, and the last option counts for every other field. -/
theorem ofArgs_eq_ok_iff (args : List Bytes) (c : Config) :
    (Config.ofArgs args = .ok c ∧ c.Compiles) ↔
      ∃ items n source, Splits args items ∧ AsksToCompile items ∧
        positionals items = List.replicate n [] ++ [source] ∧ source ≠ [] ∧
        c = Config.after {} source items := by
  rw [ofArgs_eq_ok, Config.readArgs_eq_ok_iff]
  constructor
  · rintro ⟨⟨items, hsplits, source, hsource, rfl⟩, hcompiles, hne⟩
    obtain ⟨n, hpositionals⟩ := (sourceAfter?_eq_some_iff hne).mp hsource
    exact ⟨items, n, source, hsplits, (Config.compiles_after_iff source items).mp hcompiles,
      hpositionals, hne, rfl⟩
  · rintro ⟨items, n, source, hsplits, hasks, hpositionals, hne, rfl⟩
    exact ⟨⟨items, hsplits, source, (sourceAfter?_eq_some_iff hne).mpr ⟨n, hpositionals⟩, rfl⟩,
      (Config.compiles_after_iff source items).mpr hasks, hne⟩

/-- The positional arguments are one empty argument, or the source behind empty arguments. -/
def DiffersByEmpty (args : List Bytes) : Prop :=
  args = [[]] ∨ ∃ n source, source ≠ [] ∧ args = List.replicate (n + 1) [] ++ [source]

/-- What is accepted, and where this is one positional argument and no more: a command line is accounted
for unless its positional arguments are an empty one alone, or the source behind empty ones. -/
theorem commandLine_accounted_iff (args : List Bytes) :
    (∀ c, (Config.ofArgs args = .ok c ∧ c.Compiles) ↔
      ∃ items n source, Splits args items ∧ AsksToCompile items ∧
        positionals items = List.replicate n [] ++ [source] ∧ source ≠ [] ∧
        c = Config.after {} source items) ∧
    (Accounted args ↔
      ∀ items, Splits args items → AsksToCompile items → ¬ DiffersByEmpty (positionals items)) := by
  refine ⟨ofArgs_eq_ok_iff args, ?_⟩
  unfold Accounted
  simp only [ofArgs_eq_ok_iff]
  constructor
  · rintro h items hsplits hasks (hempty | ⟨n, source, hne, hpositionals⟩)
    · -- an empty source would have to be accepted
      obtain ⟨_, _, source, -, -, -, hne, hc⟩ :=
        (h _).mpr ⟨items, [], hsplits, hasks, hempty, rfl⟩
      exact hne (congrArg Config.source hc).symm
    · -- what is accepted has several positional arguments, and there is no other way to split it
      obtain ⟨items', source', hsplits', -, hsingle, -⟩ :=
        (h _).mp ⟨items, n + 1, source, hsplits, hasks, hpositionals, hne, rfl⟩
      obtain rfl := hsplits.unique hsplits'
      rw [hsingle] at hpositionals
      simpa using congrArg List.length hpositionals
  · intro h c
    constructor
    · rintro ⟨items, n, source, hsplits, hasks, hpositionals, hne, rfl⟩
      cases n with
      | zero => exact ⟨items, source, hsplits, hasks, hpositionals, rfl⟩
      | succ n => exact absurd (.inr ⟨n, source, hne, hpositionals⟩) (h items hsplits hasks)
    · rintro ⟨items, source, hsplits, hasks, hpositionals, rfl⟩
      refine ⟨items, 0, source, hsplits, hasks, hpositionals, ?_, rfl⟩
      rintro rfl
      exact h items hsplits hasks (.inl hpositionals)

/-- An empty argument before the source is passed over, while behind it it counts as another source. -/
theorem emptyArgument_not_accounted :
    Config.ofArgs [[], ascii "a.lion"] = .ok { source := ascii "a.lion" } ∧
      Splits [[], ascii "a.lion"] [.positional [], .positional (ascii "a.lion")] ∧
      Config.ofArgs [ascii "a.lion", []] = .error (.severalSources (ascii "a.lion") []) ∧
      ¬ Accounted [[], ascii "a.lion"] := by
  have hok : Config.ofArgs [[], ascii "a.lion"] = .ok { source := ascii "a.lion" } := rfl
  have hsplits : Splits [[], ascii "a.lion"] [.positional [], .positional (ascii "a.lion")] :=
    .cons (.positional (by decide)) (.cons (.positional (by decide)) .nil)
  refine ⟨hok, hsplits, rfl, fun h => ?_⟩
  obtain ⟨items, source, hsplits', -, hsingle, -⟩ := (h _).mp ⟨hok, rfl, rfl⟩
  obtain rfl := hsplits.unique hsplits'
  cases hsingle

end Roar.CommandLine
