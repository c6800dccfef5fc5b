import Roar.Bytes

/-!
# Strings in the output

A plain string is written between double quotes (`quote`), and a string with embedded expressions
between backquotes, its text escaped by `templateText`. Control bytes and backslashes are escaped in
both; beside them only the quote, or the backquote and a `$` before an opening brace, need it.
-/

namespace Roar

/-- A digit of base sixteen. -/
def hexDigit (n : Nat) : UInt8 :=
  if n < 10 then byte '0' + n.toUInt8 else byte 'a' + (n - 10).toUInt8

/-- The escape that a byte has in every string, if it has one. -/
def escape? (c : UInt8) : Option Bytes :=
  if c == byte '\\' then some (ascii "\\\\")
  else if c == byte '\n' then some (ascii "\\n")
  else if c == byte '\t' then some (ascii "\\t")
  else if c == byte '\r' then some (ascii "\\r")
  else if c < 0x20 || c == 0x7f then
    some (ascii "\\x" ++ [hexDigit (c.toNat / 16), hexDigit (c.toNat % 16)])
  else none

/-- A byte of a string between double quotes. -/
def quotedByte (c : UInt8) : Bytes :=
  match escape? c with
  | some e => e
  | none => if c == byte '"' then ascii "\\\"" else [c]

/-- A string between double quotes. -/
def quote (text : Bytes) : Bytes := ascii "\"" ++ text.flatMap quotedByte ++ ascii "\""

/-- A byte of a string between backquotes, before the byte `next` of the same text. -/
def templateByte (c : UInt8) (next : Option UInt8) : Bytes :=
  match escape? c with
  | some e => e
  | none =>
    if c == byte '\x60' then ascii "\\`"
    else if c == byte '$' && next == some (byte '\x7b') then ascii "\\$"
    else [c]

/-- Text of a string between backquotes. -/
def templateText : Bytes → Bytes
  | [] => []
  | c :: cs => templateByte c cs.head? ++ templateText cs

end Roar
