/-!
# Bytes

A LionCode source, the names and texts in it, every message and the JavaScript that comes out are
strings of bytes. Nothing is decoded: a character outside ASCII is the bytes of its encoding, and
columns count bytes.

* `ascii` gives the bytes of a fixed text, `decimal` those of a natural number.
* `Byte.isLetter` and its neighbours are the byte classes that the language is written in.
* `trim` drops the blanks around a text, `splitOn` cuts a text at a separator.
-/

namespace Roar

/-- A string of bytes. -/
abbrev Bytes := List UInt8

/-- The byte of an ASCII character. -/
abbrev byte (c : Char) : UInt8 := c.toNat.toUInt8

/-- The bytes of an ASCII text. -/
def ascii (s : String) : Bytes := s.toList.map byte

/-- A natural number in decimal digits. -/
def decimal (n : Nat) : Bytes := (Nat.toDigits 10 n).map byte

namespace Byte

/-- An ASCII letter. -/
def isLetter (c : UInt8) : Bool :=
  (byte 'A' ≤ c && c ≤ byte 'Z') || (byte 'a' ≤ c && c ≤ byte 'z')

/-- A decimal digit. -/
def isDigit (c : UInt8) : Bool := byte '0' ≤ c && c ≤ byte '9'

/-- A byte that may begin an identifier: a letter or an underscore. -/
def isIdentifierStart (c : UInt8) : Bool := isLetter c || c == byte '_'

/-- A byte that may continue an identifier: a letter, a digit or an underscore. -/
def isIdentifierContinue (c : UInt8) : Bool := isLetter c || isDigit c || c == byte '_'

/-- A blank: space, tab, carriage return or line feed. -/
def isWhitespace (c : UInt8) : Bool :=
  c == byte ' ' || c == byte '\t' || c == byte '\r' || c == byte '\n'

/-- A byte that ends a line for strings: carriage return or line feed. -/
def isNewline (c : UInt8) : Bool := c == byte '\r' || c == byte '\n'

/-- A printable ASCII byte, space through tilde. -/
def isPrintable (c : UInt8) : Bool := byte ' ' ≤ c && c ≤ byte '~'

end Byte

namespace Bytes

/-- A text without the blanks at its two ends. -/
def trim (s : Bytes) : Bytes :=
  ((s.dropWhile Byte.isWhitespace).reverse.dropWhile Byte.isWhitespace).reverse

/-- The pieces of a text between the occurrences of a separator: one more than there are
separators, and the empty text is one empty piece. -/
def splitOn (sep : UInt8) : Bytes → List Bytes
  | [] => [[]]
  | c :: cs =>
    if c == sep then [] :: splitOn sep cs
    else match splitOn sep cs with
      | [] => [[c]]
      | piece :: pieces => (c :: piece) :: pieces

/-- The texts one after the other, with a separator between neighbours. -/
def join (sep : Bytes) (texts : List Bytes) : Bytes := sep.intercalate texts

end Bytes

end Roar
