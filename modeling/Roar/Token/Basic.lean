import Roar.Diagnostic
import Roar.Number.Decimal

/-!
# Tokens

A token is a lexeme with the source text it was read from, the place of that text, and the
comments that stood before it. What could not be read is a token too: its lexeme is a `fault`,
which carries the reason, so the diagnostics of a source are those of its tokens
(`Token.diagnostic?`).

A string is written between two dashes. With embedded expressions it is read as several tokens:
`stringStart` up to the first `$`, `stringMiddle` between two embedded expressions and `stringEnd`
up to the closing dash.
-/

namespace Roar

/-- The reserved words. -/
inductive Keyword where
  | roar
  | ignite
  | serve
  | prowl
  | inWord
  | range
  | ifWord
  | elseWord
  | otherwise
  | breakWord
  | trueWord
  | falseWord
  | andWord
  | orWord
  | isWord
deriving DecidableEq, Repr

namespace Keyword

/-- Every reserved word with its spelling. -/
def spellings : List (Bytes × Keyword) := [
  (ascii "roar", roar), (ascii "ignite", ignite), (ascii "serve", serve), (ascii "Prowl", prowl),
  (ascii "in", inWord), (ascii "range", range), (ascii "if", ifWord), (ascii "else", elseWord),
  (ascii "otherwise", otherwise), (ascii "break", breakWord), (ascii "true", trueWord),
  (ascii "false", falseWord), (ascii "and", andWord), (ascii "or", orWord), (ascii "is", isWord)]

/-- The spelling of a reserved word. -/
def text : Keyword → Bytes
  | roar => ascii "roar"
  | ignite => ascii "ignite"
  | serve => ascii "serve"
  | prowl => ascii "Prowl"
  | inWord => ascii "in"
  | range => ascii "range"
  | ifWord => ascii "if"
  | elseWord => ascii "else"
  | otherwise => ascii "otherwise"
  | breakWord => ascii "break"
  | trueWord => ascii "true"
  | falseWord => ascii "false"
  | andWord => ascii "and"
  | orWord => ascii "or"
  | isWord => ascii "is"

/-- The reserved word that a word spells, if it does. -/
def ofWord? (word : Bytes) : Option Keyword := spellings.lookup word

end Keyword

/-- The signs. A bar opens and closes a block. -/
inductive Symbol where
  | plus
  | minus
  | star
  | slash
  | percent
  | bang
  | assign
  | equal
  | notEqual
  | less
  | lessEqual
  | greater
  | greaterEqual
  | comma
  | bar
  | openParen
  | closeParen
deriving DecidableEq, Repr

/-- The spelling of a sign. -/
def Symbol.text : Symbol → Bytes
  | plus => ascii "+"
  | minus => ascii "-"
  | star => ascii "*"
  | slash => ascii "/"
  | percent => ascii "%"
  | bang => ascii "!"
  | assign => ascii "="
  | equal => ascii "=="
  | notEqual => ascii "!="
  | less => ascii "<"
  | lessEqual => ascii "<="
  | greater => ascii ">"
  | greaterEqual => ascii ">="
  | comma => ascii ","
  | bar => ascii "|"
  | openParen => ascii "("
  | closeParen => ascii ")"

/-- Why a piece of source is no token. A comment without an end is reported where it begins. -/
inductive ScanError where
  | unterminatedComment (start : Location)
  | unterminatedString
  | invalidEscape (escaped : UInt8)
  | invalidNumber (text : Bytes)
  | unexpectedByte (c : UInt8)
deriving DecidableEq, Repr

def ScanError.message : ScanError → Bytes
  | unterminatedComment _ => ascii "unterminated comment"
  | unterminatedString => ascii "unterminated string literal"
  | invalidEscape c => ascii "invalid escape sequence: \\" ++ [c]
  | invalidNumber text => ascii "invalid number literal '" ++ text ++ ascii "'"
  | unexpectedByte c => ascii "unexpected character '" ++ [c] ++ ascii "'"

/-- What a token is. The value of a string lexeme is its text with the escapes resolved; a fault
inside a string keeps what was read of it. -/
inductive Lexeme where
  | endOfInput
  | fault (cause : ScanError) (value : Bytes)
  | number (value : Number)
  | string (value : Bytes)
  | stringStart (value : Bytes)
  | stringMiddle (value : Bytes)
  | stringEnd (value : Bytes)
  | identifier
  | keyword (word : Keyword)
  | symbol (sign : Symbol)
deriving DecidableEq

namespace Lexeme

/-- The name of a kind of lexeme; a word or a sign is named by its spelling. -/
def kind : Lexeme → Bytes
  | endOfInput => ascii "eof"
  | fault .. => ascii "error"
  | number _ => ascii "number"
  | string _ => ascii "string"
  | stringStart _ => ascii "string-start"
  | stringMiddle _ => ascii "string-mid"
  | stringEnd _ => ascii "string-end"
  | identifier => ascii "identifier"
  | keyword word => word.text
  | symbol sign => sign.text

/-- The resolved text of the lexemes that have one. -/
def stringValue? : Lexeme → Option Bytes
  | fault _ value | string value | stringStart value | stringMiddle value | stringEnd value =>
    some value
  | _ => none

def isEnd : Lexeme → Bool
  | endOfInput => true
  | _ => false

def isFault : Lexeme → Bool
  | fault .. => true
  | _ => false

def isKeyword : Lexeme → Bool
  | keyword _ => true
  | _ => false

/-- An operand may end here, so that a dash that follows is a minus sign. -/
def endsOperand : Lexeme → Bool
  | identifier | number _ | string _ | stringEnd _ => true
  | keyword word => word == .trueWord || word == .falseWord
  | symbol sign => sign == .closeParen
  | _ => false

end Lexeme

/-- A comment between two tokens, without the blanks around its text. -/
structure Comment where
  location : Location
  text : Bytes
deriving DecidableEq, Repr

/-- A lexeme with the source text that it was read from, the place of that text and the comments
between the previous token and this one. -/
structure Token where
  lexeme : Lexeme
  text : Bytes
  location : Location
  comments : List Comment := []
deriving DecidableEq

namespace Token

/-- What a faulty token is reported as. -/
def diagnostic? (t : Token) : Option Diagnostic :=
  match t.lexeme with
  | .fault cause _ =>
    let place := match cause with
      | .unterminatedComment start => start
      | _ => t.location
    some (.error place cause.message Diagnostic.syntaxCode)
  | _ => none

/-- How a message names a token. -/
def describe (t : Token) : Bytes :=
  if t.lexeme.isEnd then ascii "end of input" else ascii "'" ++ t.text ++ ascii "'"

end Token

end Roar
