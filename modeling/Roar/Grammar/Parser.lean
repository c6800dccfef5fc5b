import Roar.Grammar.Tree
import Roar.Token.Scanner

/-!
# Parsing

A `Parser` holds the current token and those after it, up to the end of input or the first fault.
Neither is ever passed. It fails at most once: the first thing that is missing is reported, unless
the current token is a fault, which has been reported already, and later failures are silent.

A rule of the grammar is a `Parse`: it may fail, and it leaves a parser in either case, so that
reading can go on after a failure. Expressions are read by precedence, from `or` over `and`,
comparison, sum and product to the unary operators; comparisons do not chain, the other binary
operators associate to the left.

The rules call each other to a depth that the number of tokens bounds (`Parser.depth`).

* `Parser.expression`, `Parser.statement`, `Parser.program`: read from where the parser stands.
* `parse`: the tree of a source, or the earliest diagnostic.
-/

namespace Roar.Grammar

/-- What the grammar asks for at some place. -/
inductive Expected where
  | expression
  | statement
  | statementOrEnd
  | word (text : Bytes)
  | comparisonWord
  | functionName
  | parameterName
  | sign (sign : Symbol)
  | keyword (word : Keyword)
deriving DecidableEq, Repr

/-- How a message names what was expected. -/
def Expected.text : Expected → Bytes
  | expression => ascii "an expression"
  | statement => ascii "a statement"
  | statementOrEnd => ascii "a statement or end of input"
  | word text => ascii "'" ++ text ++ ascii "'"
  | comparisonWord => ascii "'equal', 'less' or 'greater'"
  | functionName => ascii "a function name"
  | parameterName => ascii "a parameter name"
  | sign s => ascii "'" ++ s.text ++ ascii "'"
  | keyword k => ascii "'" ++ k.text ++ ascii "'"

/-- The current token, those after it, whether something was missing, and what was reported. -/
structure Parser where
  current : Token
  ahead : List Token
  failed : Bool := false
  report : Report := {}

namespace Parser

/-- A report with the fault of a token, if it is one. -/
def noteFault (report : Report) (t : Token) : Report :=
  (t.diagnostic?.map report.add).getD report

/-- The parser of a list of tokens. -/
def ofTokens : List Token → Parser
  | [] => ⟨⟨.endOfInput, [], {}, []⟩, [], false, {}⟩
  | t :: ts => ⟨t, ts, false, noteFault {} t⟩

/-- The parser of a source. -/
def start (source : Bytes) (file : Nat) : Parser := ofTokens (Scanner.readable source file)

/-- Go on to the next token, if there is one. -/
def advance (p : Parser) : Parser :=
  match p.ahead with
  | [] => p
  | t :: ts => { p with current := t, ahead := ts, report := noteFault p.report t }

/-- Something is missing at the current token. -/
def miss (p : Parser) (what : Expected) : Parser :=
  if p.failed || p.current.lexeme.isFault then { p with failed := true }
  else
    let message := ascii "expected " ++ what.text ++ ascii " but found " ++ p.current.describe
    { p with
      failed := true
      report := p.report.add (.error p.current.location message Diagnostic.syntaxCode) }

/-- The rules nest no deeper than this. -/
def depth (p : Parser) : Nat := 16 * (p.ahead.length + 2)

end Parser

/-- A rule of the grammar: it may fail, and it leaves a parser in either case. -/
def Parse (α : Type) := Parser → Option α × Parser

namespace Parse

instance : Monad Parse where
  pure a := fun p => (some a, p)
  bind rule next := fun p =>
    match rule p with
    | (some a, p) => next a p
    | (none, p) => (none, p)

variable {α : Type}

/-- Fail without a report. -/
def stop : Parse α := fun p => (none, p)

/-- Fail because something is missing at the current token. -/
def fail (what : Expected) : Parse α := fun p => (none, p.miss what)

/-- Go on only if nothing was missing so far. -/
def sound : Parse Unit := fun p => if p.failed then (none, p) else (some (), p)

/-- The current token. -/
def current : Parse Token := fun p => (some p.current, p)

/-- Take the current token. -/
def advance : Parse Token := fun p => (some p.current, p.advance)

/-- The current token is a sign. -/
def at? (sign : Symbol) : Parse Bool := fun p => (some (p.current.lexeme == .symbol sign), p)

/-- Take a sign. -/
def expect (sign : Symbol) : Parse Unit := fun p =>
  if p.current.lexeme == .symbol sign then (some (), p.advance) else (none, p.miss (.sign sign))

/-- Take a reserved word. -/
def expectKeyword (word : Keyword) : Parse Unit := fun p =>
  if p.current.lexeme == .keyword word then (some (), p.advance)
  else (none, p.miss (.keyword word))

/-- The token is an identifier with this text. -/
def isWord (t : Token) (text : Bytes) : Bool := t.lexeme == .identifier && t.text == text

/-- Take an identifier with this text. -/
def expectWord (text : Bytes) : Parse Unit := fun p =>
  if isWord p.current text then (some (), p.advance) else (none, p.miss (.word text))

/-- Take the comments before the current token, which then has none. -/
def takeComments : Parse (List Comment) := fun p =>
  (some p.current.comments, { p with current := { p.current with comments := [] } })

/-! ## Expressions -/

/-- The levels of left-associative binary operators. -/
inductive Level where
  | disjunction
  | conjunction
  | sum
  | product
deriving DecidableEq, Repr

/-- The operator of a level that a lexeme is. -/
def Level.operator? : Level → Lexeme → Option BinaryOp
  | disjunction, .keyword .orWord => some .or
  | conjunction, .keyword .andWord => some .and
  | sum, .symbol .plus => some .add
  | sum, .symbol .minus => some .sub
  | product, .symbol .star => some .mul
  | product, .symbol .slash => some .div
  | product, .symbol .percent => some .mod
  | _, _ => none

/-- The unary operator that a lexeme is. -/
def unaryOperator? : Lexeme → Option UnaryOp
  | .symbol .minus => some .neg
  | .symbol .bang => some .not
  | _ => none

/-- The comparison sign that a lexeme is. -/
def comparisonSign? : Lexeme → Option CompareOp
  | .symbol .equal => some .eq
  | .symbol .notEqual => some .ne
  | .symbol .less => some .lt
  | .symbol .lessEqual => some .le
  | .symbol .greater => some .gt
  | .symbol .greaterEqual => some .ge
  | _ => none

/-- The rest of a comparison phrase, after `is`. -/
def comparisonPhrase : Parse CompareOp := do
  let t ← current
  if isWord t (ascii "equal") then
    let _ ← advance
    expectWord (ascii "to")
    pure .isEqualTo
  else if isWord t (ascii "less") then
    let _ ← advance
    expectWord (ascii "than")
    pure .isLessThan
  else if isWord t (ascii "greater") then
    let _ ← advance
    expectWord (ascii "than")
    pure .isGreaterThan
  else fail .comparisonWord

/-- A comparison operator, if one stands here. -/
def comparisonOperator? : Parse (Option CompareOp) := do
  let t ← current
  match comparisonSign? t.lexeme with
  | some op =>
    let _ ← advance
    pure (some op)
  | none =>
    if t.lexeme == .keyword .isWord then
      let _ ← advance
      let op ← comparisonPhrase
      pure (some op)
    else pure none

/-- The segments of a piece of text: none if it is empty. -/
def textSegments (value : Bytes) : List Segment := if value = [] then [] else [.text value]

mutual

/-- An expression. -/
def expression : Nat → Parse Expr
  | 0 => stop
  | n + 1 => chain n .disjunction

/-- Operands of a level with its operators between them. -/
def chain : Nat → Level → Parse Expr
  | 0, _ => stop
  | n + 1, level => do
    let left ← operand n level
    chainTail n level left

/-- What the operators of a level stand between. -/
def operand : Nat → Level → Parse Expr
  | 0, _ => stop
  | n + 1, .disjunction => chain n .conjunction
  | n + 1, .conjunction => comparison n
  | n + 1, .sum => chain n .product
  | n + 1, .product => unary n

/-- The rest of a chain after the expression read so far. -/
def chainTail : Nat → Level → Expr → Parse Expr
  | 0, _, _ => stop
  | n + 1, level, left => do
    let t ← current
    match level.operator? t.lexeme with
    | none => pure left
    | some op =>
      let _ ← advance
      let right ← operand n level
      chainTail n level (.binary t.location op left right)

/-- A sum, or two with one comparison between them. -/
def comparison : Nat → Parse Expr
  | 0 => stop
  | n + 1 => do
    let left ← chain n .sum
    let t ← current
    let op ← comparisonOperator?
    sound
    match op with
    | none => pure left
    | some op =>
      let right ← chain n .sum
      pure (.compare t.location op left right)

/-- A primary expression after any number of unary operators. -/
def unary : Nat → Parse Expr
  | 0 => stop
  | n + 1 => do
    let t ← current
    match unaryOperator? t.lexeme with
    | none => primary n
    | some op =>
      let _ ← advance
      let operand ← unary n
      pure (.unary t.location op operand)

/-- A literal, a name, a call or an expression in parentheses. -/
def primary : Nat → Parse Expr
  | 0 => stop
  | n + 1 => do
    let t ← current
    match t.lexeme with
    | .number value =>
      let _ ← advance
      pure (.number t.location value t.text)
    | .string value =>
      let _ ← advance
      pure (.string t.location value)
    | .stringStart value =>
      let _ ← advance
      let rest ← segments n
      pure (.interpolated t.location (textSegments value ++ rest))
    | .keyword .trueWord =>
      let _ ← advance
      pure (.boolean t.location true)
    | .keyword .falseWord =>
      let _ ← advance
      pure (.boolean t.location false)
    | .identifier =>
      let _ ← advance
      if ← at? .openParen then
        let _ ← advance
        let args ← arguments n
        pure (.call t.location t.text args)
      else pure (.identifier t.location t.text)
    | .symbol .openParen =>
      let _ ← advance
      let inner ← expression n
      expect .closeParen
      pure inner
    | _ => fail .expression

/-- The arguments of a call after its opening parenthesis, and the closing one. -/
def arguments : Nat → Parse (List Expr)
  | 0 => stop
  | n + 1 => do
    if ← at? .closeParen then
      let _ ← advance
      pure []
    else argumentList n

/-- One argument or more, and the closing parenthesis. -/
def argumentList : Nat → Parse (List Expr)
  | 0 => stop
  | n + 1 => do
    let arg ← expression n
    if ← at? .comma then
      let _ ← advance
      let args ← argumentList n
      pure (arg :: args)
    else
      expect .closeParen
      pure [arg]

/-- The segments of a string after its first text. An embedded expression may be missing. -/
def segments : Nat → Parse (List Segment)
  | 0 => stop
  | n + 1 => do
    let value ← embedded n
    let t ← current
    match t.lexeme with
    | .stringMiddle text =>
      let _ ← advance
      let rest ← segments n
      pure (value ++ textSegments text ++ rest)
    | .stringEnd text =>
      let _ ← advance
      pure (value ++ textSegments text)
    | _ => fail (.sign .closeParen)

/-- An embedded expression, unless the string goes on at once. -/
def embedded : Nat → Parse (List Segment)
  | 0 => stop
  | n + 1 => do
    let t ← current
    match t.lexeme with
    | .stringMiddle _ | .stringEnd _ => pure []
    | _ =>
      let value ← expression n
      pure [.embedded value]

end

/-! ## Statements -/

/-- A lexeme with which an expression can begin. -/
def startsExpression : Lexeme → Bool
  | .number _ | .string _ | .stringStart _ | .identifier => true
  | .keyword word => word == .trueWord || word == .falseWord
  | .symbol sign => sign == .openParen || sign == .minus || sign == .bang
  | _ => false

/-- A lexeme with which a statement can begin. -/
def startsStatement : Lexeme → Bool
  | .keyword .roar | .keyword .ignite | .keyword .serve | .keyword .prowl | .keyword .ifWord
  | .keyword .breakWord => true
  | lexeme => startsExpression lexeme

/-- Take an identifier. -/
def name (what : Expected) : Parse Token := fun p =>
  if p.current.lexeme == .identifier then (some p.current, p.advance) else (none, p.miss what)

/-- One parameter or more, and the closing parenthesis. -/
def paramList : Nat → Parse (List Param)
  | 0 => stop
  | n + 1 => do
    let t ← name .parameterName
    if ← at? .comma then
      let _ ← advance
      let params ← paramList n
      pure (⟨t.text, t.location⟩ :: params)
    else
      expect .closeParen
      pure [⟨t.text, t.location⟩]

/-- The parameters of a function after the opening parenthesis, and the closing one. -/
def params (n : Nat) : Parse (List Param) := do
  if ← at? .closeParen then
    let _ ← advance
    pure []
  else paramList n

/-- An expression, or an assignment to it. -/
def expressionStatement (n : Nat) : Parse Stmt := do
  let t ← current
  let target ← expression n
  if ← at? .assign then
    let _ ← advance
    let value ← expression n
    pure (.assign t.location target value)
  else pure (.expression t.location target)

mutual

/-- Statements, up to the first token that begins none. Comments before a statement or before the
end of the list are statements themselves. -/
def statements : Nat → Parse (List Stmt)
  | 0 => stop
  | n + 1 => do
    let comments ← takeComments
    let notes := comments.map fun c => Stmt.comment c.location c.text
    let t ← current
    if startsStatement t.lexeme then
      let s ← statement n
      let rest ← statements n
      pure (notes ++ s :: rest)
    else
      sound
      pure notes

/-- A block between two bars, with the place of the first. -/
def block : Nat → Parse (Location × List Stmt)
  | 0 => stop
  | n + 1 => do
    let t ← current
    expect .bar
    let body ← statements n
    expect .bar
    pure (t.location, body)

/-- One statement. -/
def statement : Nat → Parse Stmt
  | 0 => stop
  | n + 1 => do
    let t ← current
    match t.lexeme with
    | .keyword .roar =>
      let _ ← advance
      let value ← expression n
      pure (.print t.location value)
    | .keyword .ignite =>
      let _ ← advance
      let f ← name .functionName
      expect .openParen
      let params ← params n
      let (bodyLoc, body) ← block n
      pure (.function t.location f.text params bodyLoc body)
    | .keyword .serve =>
      let _ ← advance
      let value ← expression n
      pure (.serve t.location value)
    | .keyword .prowl =>
      let _ ← advance
      let counter ← primary n
      expectKeyword .inWord
      let range ← current
      expectKeyword .range
      expect .openParen
      let bound ← expression n
      expect .closeParen
      let (bodyLoc, body) ← block n
      pure (.loop t.location counter range.location bound bodyLoc body)
    | .keyword .ifWord =>
      let arms ← arm n
      pure (.branch t.location arms)
    | .keyword .breakWord =>
      let _ ← advance
      pure (.leave t.location)
    | lexeme => if startsExpression lexeme then expressionStatement n else fail .statement

/-- An arm of a conditional statement, from its `if` or `else` on, and the arms after it. -/
def arm : Nat → Parse Arms
  | 0 => stop
  | n + 1 => do
    let t ← advance
    expect .openParen
    let condition ← expression n
    expect .closeParen
    let (bodyLoc, body) ← block n
    let rest ← moreArms n
    pure (.arm t.location condition bodyLoc body rest)

/-- Further arms, if there are any. -/
def moreArms : Nat → Parse Arms
  | 0 => stop
  | n + 1 => do
    let t ← current
    match t.lexeme with
    | .keyword .elseWord => arm n
    | .keyword .otherwise =>
      let _ ← advance
      let (bodyLoc, body) ← block n
      pure (.otherwise bodyLoc body)
    | _ => pure .done

end

/-- A whole source: statements up to the end of input. -/
def program (n : Nat) : Parse Tree := do
  let t ← current
  let body ← statements n
  let stop ← current
  if stop.lexeme.isEnd then pure ⟨t.location.file, body⟩ else fail .statementOrEnd

end Parse

/-! ## Reading a source -/

/-- Read an expression. -/
def Parser.expression (p : Parser) : Option Expr × Parser := Parse.expression p.depth p

/-- Read a statement. -/
def Parser.statement (p : Parser) : Option Stmt × Parser := Parse.statement p.depth p

/-- Read statements up to the end of input. -/
def Parser.program (p : Parser) : Option Tree × Parser := Parse.program p.depth p

/-- The error that stands earliest in the source; of several at one place, the first reported. -/
def earliest? (report : Report) : Option Diagnostic :=
  (report.entries.filter (·.severity == .error)).foldl
    (fun best d => match best with
      | none => some d
      | some b => if d.location.before b.location then some d else some b) none

/-- The tree of a source, or the diagnostic that is closest to its beginning. -/
def parse (source : Bytes) (file : Nat) : Except Diagnostic Tree :=
  let (tree, p) := (Parser.start source file).program
  let failure := (earliest? p.report).getD
    (.error (.start file) (ascii "syntax error") Diagnostic.syntaxCode)
  match tree with
  | some tree => if p.report.errors = 0 then .ok tree else .error failure
  | none => .error failure

end Roar.Grammar
