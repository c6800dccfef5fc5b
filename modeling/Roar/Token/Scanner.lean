import Roar.Token.Basic

/-!
# Reading tokens

A `Scanner` is the rest of a source with the place where it begins, the embedded expressions that
are open (`Span`), and whether an operand has just ended. `Scanner.next` reads one token.

A dash is a minus sign after an operand. Elsewhere it opens a string if a closing dash follows on
the line (`closingDash?`) with no operand after it (`startsOperand`); otherwise it is a minus sign
too.

* `Scanner.tokens`: the tokens of a source up to the end of input.
* `Scanner.readable`: the same, but only up to the first fault, where a parser stops.
* `Reader`: a scanner that can be asked for the next token without taking it.
-/

namespace Roar

open Byte

/-! ## Blanks and comments -/

/-- What stands between two tokens: blanks and comments, up to the next byte of a token or the end
of the source, or a comment that does not end. -/
inductive Gap where
  | clear (comments : List Comment) (location : Location) (rest : Bytes)
  | unclosed (start : Location) (stop : Location)

/-- A gap with one more comment in front. -/
def Gap.push (comment : Comment) : Gap → Gap
  | clear comments location rest => clear (comment :: comments) location rest
  | unclosed start stop => unclosed start stop

mutual

/-- Skip blanks and comments. -/
def skipBlank (l : Location) : Bytes → Gap
  | [] => .clear [] l []
  | c :: cs =>
    if isWhitespace c then skipBlank (l.step c) cs
    else if c == byte '~' then skipComment l [] (l.step c) cs
    else .clear [] l (c :: cs)

/-- Skip the rest of a comment that began at `start`, of which `read` is the text so far, the last
byte first. -/
def skipComment (start : Location) (read : Bytes) (l : Location) : Bytes → Gap
  | [] => .unclosed start l
  | c :: cs =>
    if c == byte '~' then (skipBlank (l.step c) cs).push ⟨start, Bytes.trim read.reverse⟩
    else skipComment start (c :: read) (l.step c) cs

end

/-! ## Strings -/

/-- What stops the text of a string. -/
inductive TextEnd where
  | closed
  | name
  | group
  | unterminated
  | invalidEscape (escaped : UInt8)
deriving DecidableEq

/-- A stretch of the text of a string: the source text, the text it stands for, what stopped it
and the rest of the source. -/
structure Stretch where
  text : Bytes
  value : Bytes
  stop : TextEnd
  rest : Bytes

/-- A stretch with more in front. -/
def Stretch.push (text value : Bytes) (s : Stretch) : Stretch :=
  { s with text := text ++ s.text, value := value ++ s.value }

/-- The byte that an escape stands for. -/
def unescape? (c : UInt8) : Option UInt8 :=
  if c == byte '-' || c == byte '$' || c == byte '\\' || c == byte '~' then some c
  else if c == byte 'n' then some (byte '\n')
  else if c == byte 't' then some (byte '\t')
  else none

/-- Read the text of a string up to its closing dash, an embedded expression, the end of the line
or a wrong escape. -/
def readText : Bytes → Stretch
  | [] => ⟨[], [], .unterminated, []⟩
  | c :: cs =>
    if c == byte '-' then ⟨[c], [], .closed, cs⟩
    else if isNewline c then ⟨[], [], .unterminated, c :: cs⟩
    else if c == byte '\\' then
      match cs with
      | [] => ⟨[c], [], .unterminated, []⟩
      | e :: es =>
        if isNewline e then ⟨[c], [], .unterminated, e :: es⟩
        else match unescape? e with
          | some v => (readText es).push [c, e] [v]
          | none => ⟨[c, e], [], .invalidEscape e, es⟩
    else if c == byte '$' && cs.head?.any isIdentifierStart then ⟨[c], [], .name, cs⟩
    else if c == byte '$' && cs.head? == some (byte '(') then
      ⟨[c, byte '('], [], .group, cs.tail⟩
    else (readText cs).push [c] [c]

mutual

/-- Look along the line for the dash that would close a string, stepping over escapes and over
embedded expressions in parentheses. The result is what follows the dash. -/
def closingDash? : Bytes → Option Bytes
  | [] => none
  | c :: cs =>
    if isNewline c then none
    else if c == byte '\\' then
      match cs with
      | [] => none
      | _ :: es => closingDash? es
    else if c == byte '-' then some cs
    else
      match cs with
      | [] => none
      | d :: ds =>
        if c == byte '$' && d == byte '(' then skipGroup? 0 ds else closingDash? (d :: ds)

/-- Step over the rest of an embedded expression with `depth` open parentheses inside it, then look
for the closing dash. -/
def skipGroup? (depth : Nat) : Bytes → Option Bytes
  | [] => none
  | c :: cs =>
    if isNewline c then none
    else if c == byte '(' then skipGroup? (depth + 1) cs
    else if c == byte ')' then
      match depth with
      | 0 => closingDash? cs
      | depth + 1 => skipGroup? depth cs
    else skipGroup? depth cs

end

/-- An operand begins on this line: a digit, a parenthesis, a `!` that is not `!=`, or a word that
is an identifier or a truth value. -/
def startsOperand (rest : Bytes) : Bool :=
  match rest.dropWhile fun c => c == byte ' ' || c == byte '\t' with
  | [] => false
  | c :: cs =>
    if isDigit c || c == byte '(' then true
    else if c == byte '!' then cs.head? != some (byte '=')
    else if isIdentifierStart c then
      match Keyword.ofWord? ((c :: cs).takeWhile isIdentifierContinue) with
      | none => true
      | some word => word == .trueWord || word == .falseWord
    else false

/-- After a dash: it opens a string. -/
def opensString (afterDash : Bytes) : Bool :=
  (closingDash? afterDash).any fun rest => !startsOperand rest

/-! ## One lexeme -/

/-- An embedded expression of a string that is being read: a `name` whose word comes next, a name
that has been read, so that the `tail` of its string comes next, or a `group` in parentheses with
so many further parentheses open inside it. -/
inductive Span where
  | name
  | tail
  | group (depth : Nat)
deriving DecidableEq, Repr

/-- A lexeme that was read: its source text, the rest of the source and the spans open there. -/
structure Reading where
  lexeme : Lexeme
  text : Bytes
  rest : Bytes
  spans : List Span

/-- Read the text of a string after `opening`; `closed` and `opened` say which lexeme it is when
the string ends, or goes on with an embedded expression. -/
def readString (closed opened : Bytes → Lexeme) (spans : List Span) (opening rest : Bytes) :
    Reading :=
  let s := readText rest
  let text := opening ++ s.text
  match s.stop with
  | .closed => ⟨closed s.value, text, s.rest, spans⟩
  | .name => ⟨opened s.value, text, s.rest, .name :: spans⟩
  | .group => ⟨opened s.value, text, s.rest, .group 0 :: spans⟩
  | .unterminated => ⟨.fault .unterminatedString s.value, text, s.rest, spans⟩
  | .invalidEscape e => ⟨.fault (.invalidEscape e) s.value, text, s.rest, spans⟩

/-- Read on in a string after an embedded expression. -/
def readTail (spans : List Span) (rest : Bytes) : Reading :=
  readString .stringEnd .stringMiddle spans [] rest

/-- Read a word: a reserved word or an identifier. -/
def readWord (spans : List Span) (rest : Bytes) : Reading :=
  let word := rest.takeWhile isIdentifierContinue
  let lexeme := match Keyword.ofWord? word with
    | some k => .keyword k
    | none => .identifier
  ⟨lexeme, word, rest.dropWhile isIdentifierContinue, spans⟩

/-- The numeral at the front: digits, then a point and digits if a digit follows the point. -/
def numeral (rest : Bytes) : Bytes × Bytes :=
  let whole := rest.takeWhile isDigit
  match rest.dropWhile isDigit with
  | c :: d :: more =>
    if c == byte '.' && isDigit d then
      (whole ++ c :: (d :: more).takeWhile isDigit, (d :: more).dropWhile isDigit)
    else (whole, c :: d :: more)
  | more => (whole, more)

/-- Read a number. It must not run into a word. -/
def readNumber (spans : List Span) (rest : Bytes) : Reading :=
  let (digits, more) := numeral rest
  match more.takeWhile isIdentifierContinue with
  | [] => ⟨.number (Number.ofDecimal (Decimal.ofNumeral digits)), digits, more, spans⟩
  | word =>
    let text := digits ++ word
    ⟨.fault (.invalidNumber text) [], text, more.dropWhile isIdentifierContinue, spans⟩

/-- A sign that an equals sign may follow. -/
def readEquals (spans : List Span) (single double : Symbol) (c : UInt8) (cs : Bytes) : Reading :=
  match cs with
  | d :: ds =>
    if d == byte '=' then ⟨.symbol double, [c, d], ds, spans⟩
    else ⟨.symbol single, [c], d :: ds, spans⟩
  | [] => ⟨.symbol single, [c], [], spans⟩

/-- The innermost span after an opening parenthesis. -/
def openParen : List Span → List Span
  | .group depth :: spans => .group (depth + 1) :: spans
  | spans => spans

/-- The innermost span after a closing parenthesis inside it. -/
def closeParen : List Span → List Span
  | .group depth :: spans => .group (depth - 1) :: spans
  | spans => spans

/-- Read a sign. -/
def readSymbol (spans : List Span) (c : UInt8) (cs : Bytes) : Reading :=
  if c == byte '+' then ⟨.symbol .plus, [c], cs, spans⟩
  else if c == byte '*' then ⟨.symbol .star, [c], cs, spans⟩
  else if c == byte '/' then ⟨.symbol .slash, [c], cs, spans⟩
  else if c == byte '%' then ⟨.symbol .percent, [c], cs, spans⟩
  else if c == byte ',' then ⟨.symbol .comma, [c], cs, spans⟩
  else if c == byte '|' then ⟨.symbol .bar, [c], cs, spans⟩
  else if c == byte '!' then readEquals spans .bang .notEqual c cs
  else if c == byte '=' then readEquals spans .assign .equal c cs
  else if c == byte '<' then readEquals spans .less .lessEqual c cs
  else if c == byte '>' then readEquals spans .greater .greaterEqual c cs
  else if c == byte '(' then ⟨.symbol .openParen, [c], cs, openParen spans⟩
  else if c == byte ')' then ⟨.symbol .closeParen, [c], cs, closeParen spans⟩
  else ⟨.fault (.unexpectedByte c) [], [c], cs, spans⟩

/-- Read a lexeme that begins with the byte `c`. -/
def readLexeme (spans : List Span) (afterOperand : Bool) (c : UInt8) (cs : Bytes) : Reading :=
  if isIdentifierStart c then readWord spans (c :: cs)
  else if isDigit c then readNumber spans (c :: cs)
  else if c == byte '-' then
    if !afterOperand && opensString cs then readString .string .stringStart spans [c] cs
    else ⟨.symbol .minus, [c], cs, spans⟩
  else readSymbol spans c cs

/-! ## Tokens -/

/-- The rest of a source, where it begins, the spans open there and whether an operand has just
ended. -/
structure Scanner where
  rest : Bytes
  location : Location
  spans : List Span := []
  afterOperand : Bool := false

namespace Scanner

/-- The scanner of a whole source. -/
def start (source : Bytes) (file : Nat) : Scanner := ⟨source, .start file, [], false⟩

/-- The token of a reading that begins at `l`, and the scanner after it. -/
def emit (comments : List Comment) (l : Location) (r : Reading) : Token × Scanner :=
  (⟨r.lexeme, r.text, l, comments⟩, ⟨r.rest, l.after r.text, r.spans, r.lexeme.endsOperand⟩)

/-- Read one token. At the end of the source this is `endOfInput`, again and again. The
parenthesis that closes an embedded expression belongs to no token, and comments before it are
not kept. -/
def next (s : Scanner) : Token × Scanner :=
  match s.spans with
  | .name :: outer => emit [] s.location (readWord (.tail :: outer) s.rest)
  | .tail :: outer => emit [] s.location (readTail outer s.rest)
  | spans =>
    match skipBlank s.location s.rest with
    | .unclosed start stop =>
      emit [] stop ⟨.fault (.unterminatedComment start) [], [], [], spans⟩
    | .clear comments l [] => emit comments l ⟨.endOfInput, [], [], spans⟩
    | .clear comments l (c :: cs) =>
      match spans with
      | .group 0 :: outer =>
        if c == byte ')' then emit [] (l.step c) (readTail outer cs)
        else emit comments l (readLexeme spans s.afterOperand c cs)
      | _ => emit comments l (readLexeme spans s.afterOperand c cs)

/-- The tokens up to and including the first that `last` accepts, at most so many. -/
def collect (last : Lexeme → Bool) : Nat → Scanner → List Token
  | 0, _ => []
  | n + 1, s =>
    let (t, s) := s.next
    if last t.lexeme then [t] else t :: collect last n s

/-- More tokens than this a source of so many bytes does not have. -/
def tokenLimit (source : Bytes) : Nat := 2 * source.length + 1

/-- The tokens of a source, the last being the end of input. -/
def tokens (source : Bytes) (file : Nat) : List Token :=
  collect (·.isEnd) (tokenLimit source) (start source file)

/-- The tokens of a source up to the end of input or the first fault. -/
def readable (source : Bytes) (file : Nat) : List Token :=
  collect (fun x => x.isEnd || x.isFault) (tokenLimit source) (start source file)

end Scanner

/-! ## Looking ahead -/

/-- A scanner with at most one token read ahead, and a report of the faults met so far. -/
structure Reader where
  scanner : Scanner
  pending : Option Token := none
  report : Report := {}

namespace Reader

/-- The reader of a whole source. -/
def start (source : Bytes) (file : Nat) : Reader := { scanner := .start source file }

/-- Read a token and report it if it is a fault. -/
def fetch (r : Reader) : Token × Reader :=
  let (t, s) := r.scanner.next
  (t, { r with scanner := s, report := (t.diagnostic?.map r.report.add).getD r.report })

/-- The next token, which stays the next one. -/
def peek (r : Reader) : Token × Reader :=
  match r.pending with
  | some t => (t, r)
  | none =>
    let (t, r) := r.fetch
    (t, { r with pending := some t })

/-- Take the next token. -/
def next (r : Reader) : Token × Reader :=
  match r.pending with
  | some t => (t, { r with pending := none })
  | none => r.fetch

end Reader

end Roar
