import Roar.Grammar.Tree
import Roar.Token.Basic

/-!
# The grammar

What the tokens of a source say, as derivations. A part of the grammar relates a list of tokens to
the tree that they stand for, and a rule puts the lists of its parts one after the other: every token
is used, once and in order. Parentheses group and leave no trace in the tree.

```
Program     = Statement* end
Statement   = "roar" Expression
            | "ignite" id "(" [id ("," id)*] ")" Block
            | "serve" Expression
            | "Prowl" Primary "in" "range" "(" Expression ")" Block
            | "if" "(" Expression ")" Block ("else" "(" Expression ")" Block)* ["otherwise" Block]
            | "break"
            | Expression ["=" Expression]
Block       = "|" Statement* "|"
Expression  = Conjunction ("or" Conjunction)*
Conjunction = Comparison ("and" Comparison)*
Comparison  = Addition [Comparator Addition]
Addition    = Product (("+" | "-") Product)*
Product     = Unary (("*" | "/" | "%") Unary)*
Unary       = ("-" | "!") Unary | Primary
Primary     = number | string | "true" | "false" | id "(" [Expression ("," Expression)*] ")"
            | id | "(" Expression ")"
```

A string with embedded expressions is `start [Expression] (middle [Expression])* end`. Comments are
no tokens: they belong to the token behind them (`Token.comments`). Those before a statement and those
before the end of a list of statements are statements of the tree, all others are dropped.
-/

namespace Roar.Grammar.Derives

/-! ## Signs -/

/-- The operators of an `Expression`. -/
def disjunctionSigns : List (Lexeme × BinaryOp) := [(.keyword .orWord, .or)]

def conjunctionSigns : List (Lexeme × BinaryOp) := [(.keyword .andWord, .and)]

def additionSigns : List (Lexeme × BinaryOp) := [(.symbol .plus, .add), (.symbol .minus, .sub)]

def productSigns : List (Lexeme × BinaryOp) :=
  [(.symbol .star, .mul), (.symbol .slash, .div), (.symbol .percent, .mod)]

def unarySigns : List (Lexeme × UnaryOp) := [(.symbol .minus, .neg), (.symbol .bang, .not)]

def comparisonSigns : List (Lexeme × CompareOp) :=
  [(.symbol .equal, .eq), (.symbol .notEqual, .ne), (.symbol .less, .lt),
    (.symbol .lessEqual, .le), (.symbol .greater, .gt), (.symbol .greaterEqual, .ge)]

/-- The two words after `is`. -/
def comparisonPhrases : List (Bytes × Bytes × CompareOp) :=
  [(ascii "equal", ascii "to", .isEqualTo), (ascii "less", ascii "than", .isLessThan),
    (ascii "greater", ascii "than", .isGreaterThan)]

/-- The token is a word that is not reserved. -/
structure IsName (t : Token) (text : Bytes) : Prop where
  lexeme : t.lexeme = .identifier
  text : t.text = text

/-- A comparison operator: a sign, or `is` and two words. -/
inductive Comparator : List Token → CompareOp → Prop
  | sign {t : Token} {op : CompareOp} (sign : (t.lexeme, op) ∈ comparisonSigns) :
      Comparator [t] op
  | phrase {t u v : Token} {first second : Bytes} {op : CompareOp}
      (start : t.lexeme = .keyword .isWord) (firstWord : IsName u first)
      (secondWord : IsName v second) (phrase : (first, second, op) ∈ comparisonPhrases) :
      Comparator [t, u, v] op

/-! ## Expressions -/

/-- The text of a string between embedded expressions; nothing if it is empty. -/
inductive Text : Bytes → List Segment → Prop
  | empty : Text [] []
  | text {value : Bytes} (nonempty : value ≠ []) : Text value [.text value]

mutual

inductive Expression : List Token → Expr → Prop
  | operand {ts : List Token} {e : Expr} (operand : Conjunction ts e) : Expression ts e
  | more {ts us : List Token} {t : Token} {op : BinaryOp} {left right : Expr}
      (first : Expression ts left) (sign : (t.lexeme, op) ∈ disjunctionSigns)
      (last : Conjunction us right) :
      Expression (ts ++ t :: us) (.binary t.location op left right)

inductive Conjunction : List Token → Expr → Prop
  | operand {ts : List Token} {e : Expr} (operand : Comparison ts e) : Conjunction ts e
  | more {ts us : List Token} {t : Token} {op : BinaryOp} {left right : Expr}
      (first : Conjunction ts left) (sign : (t.lexeme, op) ∈ conjunctionSigns)
      (last : Comparison us right) :
      Conjunction (ts ++ t :: us) (.binary t.location op left right)

inductive Comparison : List Token → Expr → Prop
  | operand {ts : List Token} {e : Expr} (operand : Addition ts e) : Comparison ts e
  | compare {ts us vs : List Token} {t : Token} {op : CompareOp} {left right : Expr}
      (first : Addition ts left) (sign : Comparator (t :: us) op) (last : Addition vs right) :
      Comparison (ts ++ t :: us ++ vs) (.compare t.location op left right)

inductive Addition : List Token → Expr → Prop
  | operand {ts : List Token} {e : Expr} (operand : Product ts e) : Addition ts e
  | more {ts us : List Token} {t : Token} {op : BinaryOp} {left right : Expr}
      (first : Addition ts left) (sign : (t.lexeme, op) ∈ additionSigns)
      (last : Product us right) :
      Addition (ts ++ t :: us) (.binary t.location op left right)

inductive Product : List Token → Expr → Prop
  | operand {ts : List Token} {e : Expr} (operand : Unary ts e) : Product ts e
  | more {ts us : List Token} {t : Token} {op : BinaryOp} {left right : Expr}
      (first : Product ts left) (sign : (t.lexeme, op) ∈ productSigns) (last : Unary us right) :
      Product (ts ++ t :: us) (.binary t.location op left right)

inductive Unary : List Token → Expr → Prop
  | operand {ts : List Token} {e : Expr} (operand : Primary ts e) : Unary ts e
  | sign {ts : List Token} {t : Token} {op : UnaryOp} {e : Expr}
      (sign : (t.lexeme, op) ∈ unarySigns) (operand : Unary ts e) :
      Unary (t :: ts) (.unary t.location op e)

inductive Primary : List Token → Expr → Prop
  | number {t : Token} {value : Number} (lexeme : t.lexeme = .number value) :
      Primary [t] (.number t.location value t.text)
  | string {t : Token} {value : Bytes} (lexeme : t.lexeme = .string value) :
      Primary [t] (.string t.location value)
  | interpolated {t : Token} {ts : List Token} {value : Bytes} {first rest : List Segment}
      (lexeme : t.lexeme = .stringStart value) (text : Text value first)
      (segments : Segments ts rest) : Primary (t :: ts) (.interpolated t.location (first ++ rest))
  | yes {t : Token} (lexeme : t.lexeme = .keyword .trueWord) :
      Primary [t] (.boolean t.location true)
  | no {t : Token} (lexeme : t.lexeme = .keyword .falseWord) :
      Primary [t] (.boolean t.location false)
  | name {t : Token} (lexeme : t.lexeme = .identifier) :
      Primary [t] (.identifier t.location t.text)
  | call {t opening closing : Token} {ts : List Token} {args : List Expr}
      (lexeme : t.lexeme = .identifier) (left : opening.lexeme = .symbol .openParen)
      (arguments : Arguments ts args) (right : closing.lexeme = .symbol .closeParen) :
      Primary (t :: opening :: ts ++ [closing]) (.call t.location t.text args)
  | group {opening closing : Token} {ts : List Token} {e : Expr}
      (left : opening.lexeme = .symbol .openParen) (inner : Expression ts e)
      (right : closing.lexeme = .symbol .closeParen) : Primary (opening :: ts ++ [closing]) e

/-- No arguments, or some with commas between them. -/
inductive Arguments : List Token → List Expr → Prop
  | none : Arguments [] []
  | some {ts : List Token} {args : List Expr} (list : ArgumentList ts args) : Arguments ts args

inductive ArgumentList : List Token → List Expr → Prop
  | one {ts : List Token} {e : Expr} (argument : Expression ts e) : ArgumentList ts [e]
  | more {ts us : List Token} {comma : Token} {e : Expr} {es : List Expr}
      (first : Expression ts e) (sign : comma.lexeme = .symbol .comma) (rest : ArgumentList us es) :
      ArgumentList (ts ++ comma :: us) (e :: es)

/-- The rest of a string after its first text. -/
inductive Segments : List Token → List Segment → Prop
  | last {ts : List Token} {t : Token} {value : Bytes} {embedded text : List Segment}
      (first : Embedded ts embedded) (lexeme : t.lexeme = .stringEnd value)
      (last : Text value text) : Segments (ts ++ [t]) (embedded ++ text)
  | more {ts us : List Token} {t : Token} {value : Bytes} {embedded text rest : List Segment}
      (first : Embedded ts embedded) (lexeme : t.lexeme = .stringMiddle value)
      (middle : Text value text) (last : Segments us rest) :
      Segments (ts ++ t :: us) (embedded ++ text ++ rest)

/-- An embedded expression, or nothing. -/
inductive Embedded : List Token → List Segment → Prop
  | none : Embedded [] []
  | value {ts : List Token} {e : Expr} (value : Expression ts e) : Embedded ts [.embedded e]

end

/-! ## Statements -/

inductive ParamList : List Token → List Param → Prop
  | one {t : Token} (lexeme : t.lexeme = .identifier) : ParamList [t] [⟨t.text, t.location⟩]
  | more {t comma : Token} {ts : List Token} {params : List Param}
      (lexeme : t.lexeme = .identifier) (sign : comma.lexeme = .symbol .comma)
      (rest : ParamList ts params) :
      ParamList (t :: comma :: ts) (⟨t.text, t.location⟩ :: params)

/-- No parameters, or some with commas between them. -/
inductive Params : List Token → List Param → Prop
  | none : Params [] []
  | some {ts : List Token} {params : List Param} (list : ParamList ts params) : Params ts params

/-- An expression in parentheses. -/
inductive Enclosed : List Token → Expr → Prop
  | parens {opening closing : Token} {ts : List Token} {e : Expr}
      (left : opening.lexeme = .symbol .openParen) (inner : Expression ts e)
      (right : closing.lexeme = .symbol .closeParen) : Enclosed (opening :: ts ++ [closing]) e

/-- The comments before a token, as statements. -/
def notes (t : Token) : List Stmt := t.comments.map fun c => .comment c.location c.text

mutual

inductive Statement : List Token → Stmt → Prop
  | print {t : Token} {ts : List Token} {e : Expr} (word : t.lexeme = .keyword .roar)
      (value : Expression ts e) : Statement (t :: ts) (.print t.location e)
  | function {t name opening closing : Token} {ts us : List Token} {ps : List Param}
      {bodyLoc : Location} {body : List Stmt} (word : t.lexeme = .keyword .ignite)
      (lexeme : name.lexeme = .identifier) (left : opening.lexeme = .symbol .openParen)
      (params : Params ts ps) (right : closing.lexeme = .symbol .closeParen)
      (block : Block us bodyLoc body) :
      Statement (t :: name :: opening :: ts ++ closing :: us)
        (.function t.location name.text ps bodyLoc body)
  | serve {t : Token} {ts : List Token} {e : Expr} (word : t.lexeme = .keyword .serve)
      (value : Expression ts e) : Statement (t :: ts) (.serve t.location e)
  | loop {t inWord range : Token} {ts us vs : List Token} {c e : Expr}
      {bodyLoc : Location} {body : List Stmt} (word : t.lexeme = .keyword .prowl)
      (counter : Primary ts c) (second : inWord.lexeme = .keyword .inWord)
      (third : range.lexeme = .keyword .range) (bound : Enclosed us e)
      (block : Block vs bodyLoc body) :
      Statement (t :: ts ++ inWord :: range :: us ++ vs)
        (.loop t.location c range.location e bodyLoc body)
  | branch {t : Token} {ts : List Token} {arms : Arms} (word : t.lexeme = .keyword .ifWord)
      (arm : Arm ts t.location arms) : Statement (t :: ts) (.branch t.location arms)
  | leave {t : Token} (word : t.lexeme = .keyword .breakWord) : Statement [t] (.leave t.location)
  | expression {t : Token} {ts : List Token} {e : Expr} (value : Expression (t :: ts) e) :
      Statement (t :: ts) (.expression t.location e)
  | assign {t u : Token} {ts us : List Token} {left right : Expr}
      (target : Expression (t :: ts) left) (sign : u.lexeme = .symbol .assign)
      (value : Expression us right) :
      Statement (t :: ts ++ u :: us) (.assign t.location left right)

/-- A list of statements before the token `stop`. -/
inductive Statements : Token → List Token → List Stmt → Prop
  | nil {stop : Token} : Statements stop [] (notes stop)
  | cons {stop t : Token} {ts us : List Token} {s : Stmt} {ss : List Stmt}
      (first : Statement (t :: ts) s) (rest : Statements stop us ss) :
      Statements stop (t :: ts ++ us) (notes t ++ s :: ss)

inductive Block : List Token → Location → List Stmt → Prop
  | block {opening closing : Token} {ts : List Token} {ss : List Stmt}
      (left : opening.lexeme = .symbol .bar) (body : Statements closing ts ss)
      (right : closing.lexeme = .symbol .bar) :
      Block (opening :: ts ++ [closing]) opening.location ss

/-- A condition with its block, after a word that stands at `loc`, and the arms after it. -/
inductive Arm : List Token → Location → Arms → Prop
  | arm {loc bodyLoc : Location} {ts us vs : List Token} {e : Expr} {body : List Stmt}
      {arms : Arms} (condition : Enclosed ts e) (block : Block us bodyLoc body)
      (rest : MoreArms vs arms) : Arm (ts ++ us ++ vs) loc (.arm loc e bodyLoc body arms)

/-- What follows a condition with its block. -/
inductive MoreArms : List Token → Arms → Prop
  | done : MoreArms [] .done
  | otherwise {t : Token} {ts : List Token} {bodyLoc : Location} {body : List Stmt}
      (word : t.lexeme = .keyword .otherwise) (block : Block ts bodyLoc body) :
      MoreArms (t :: ts) (.otherwise bodyLoc body)
  | arm {t : Token} {ts : List Token} {arms : Arms} (word : t.lexeme = .keyword .elseWord)
      (arm : Arm ts t.location arms) : MoreArms (t :: ts) arms

end

/-- A whole source. -/
inductive Program : List Token → List Stmt → Prop
  | program {stop : Token} {ts : List Token} {ss : List Stmt} (body : Statements stop ts ss)
      (last : stop.lexeme = .endOfInput) : Program (ts ++ [stop]) ss

end Roar.Grammar.Derives

namespace Roar.Grammar

/-! ## Places of conditionals -/

/-- There is a first arm, and it stands here. -/
def Arms.StartAt (loc : Location) : Arms → Prop
  | .arm first .. => first = loc
  | .done | .otherwise .. => False

mutual

/-- Every conditional has an arm and stands where its first arm does. -/
def Stmt.Aligned : Stmt → Prop
  | .branch loc arms => arms.StartAt loc ∧ arms.Aligned
  | .function _ _ _ _ body | .loop _ _ _ _ _ body => Stmt.AlignedList body
  | .print .. | .assign .. | .serve .. | .leave _ | .comment .. | .expression .. => True

def Arms.Aligned : Arms → Prop
  | .done => True
  | .otherwise _ body => Stmt.AlignedList body
  | .arm _ _ _ body rest => Stmt.AlignedList body ∧ rest.Aligned

def Stmt.AlignedList : List Stmt → Prop
  | [] => True
  | s :: ss => s.Aligned ∧ Stmt.AlignedList ss

end

def Tree.Aligned (tree : Tree) : Prop := Stmt.AlignedList tree.statements

namespace Derives

/-- Comments have no conditionals. -/
theorem alignedList_notes (t : Token) {ss : List Stmt} (h : Stmt.AlignedList ss) :
    Stmt.AlignedList (notes t ++ ss) := by
  unfold notes
  induction t.comments with
  | nil => exact h
  | cons c cs ih => exact ⟨trivial, ih⟩

mutual

theorem Statement.aligned {ts : List Token} {s : Stmt} (h : Statement ts s) : s.Aligned :=
  match h with
  | .branch _ arm => arm.aligned
  | .function _ _ _ _ _ block => block.aligned
  | .loop _ _ _ _ _ block => block.aligned
  | .print .. => trivial
  | .serve .. => trivial
  | .leave .. => trivial
  | .expression .. => trivial
  | .assign .. => trivial

theorem Statements.aligned {stop : Token} {ts : List Token} {ss : List Stmt}
    (h : Statements stop ts ss) : Stmt.AlignedList ss :=
  match h with
  | .nil => by
    rw [← List.append_nil (notes stop)]
    exact alignedList_notes stop trivial
  | .cons first rest => alignedList_notes _ ⟨first.aligned, rest.aligned⟩

theorem Block.aligned {ts : List Token} {loc : Location} {body : List Stmt} (h : Block ts loc body) :
    Stmt.AlignedList body :=
  match h with
  | .block _ inner _ => inner.aligned

theorem Arm.aligned {ts : List Token} {loc : Location} {arms : Arms} (h : Arm ts loc arms) :
    arms.StartAt loc ∧ arms.Aligned :=
  match h with
  | .arm _ block rest => ⟨rfl, block.aligned, rest.aligned⟩

theorem MoreArms.aligned {ts : List Token} {arms : Arms} (h : MoreArms ts arms) : arms.Aligned :=
  match h with
  | .done => trivial
  | .otherwise _ block => block.aligned
  | .arm _ arm => arm.aligned.2

end

end Derives

end Roar.Grammar
