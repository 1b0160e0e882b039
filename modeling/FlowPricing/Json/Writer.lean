/-
Writing JSON in its compact form: no blanks, one spelling for everything.
Strings escape the quote, the backslash and control characters, the latter
by their short form where they have one; all else is written as it is.
-/
import FlowPricing.Json.Basic
import FlowPricing.Text.Numeral

namespace FlowPricing.Json.Writer

/-- A hexadecimal digit, in lower case. -/
def hexDigit (n : Nat) : UInt8 :=
  if n < 10 then UInt8.ofNat (48 + n) else UInt8.ofNat (87 + n)

/-- One byte of a string. -/
def escaped (b : UInt8) : Bytes :=
  if b = Byte.quote then [Byte.backslash, Byte.quote]
  else if b = Byte.backslash then [Byte.backslash, Byte.backslash]
  else if b = 0x08 then [Byte.backslash, Byte.ofChar 'b']
  else if b = 0x09 then [Byte.backslash, Byte.ofChar 't']
  else if b = 0x0A then [Byte.backslash, Byte.ofChar 'n']
  else if b = 0x0C then [Byte.backslash, Byte.ofChar 'f']
  else if b = 0x0D then [Byte.backslash, Byte.ofChar 'r']
  else if b < Byte.space then
    [Byte.backslash, Byte.ofChar 'u', Byte.zero, Byte.zero,
      hexDigit (b.toNat / 16), hexDigit (b.toNat % 16)]
  else [b]

/-- A string. -/
def string (s : String) : Bytes :=
  Byte.quote :: (s.toUTF8.toList.flatMap escaped ++ [Byte.quote])

/-- An integer. -/
def integer (n : Int) : Bytes := (Numeral.ofInt n).map Byte.ofChar

/-- A flag. -/
def flag (b : Bool) : Bytes := if b then ascii "true" else ascii "false"

/-- Written items with commas between them. -/
def separated : List Bytes → Bytes
  | [] => []
  | [p] => p
  | p :: q :: ps => p ++ Byte.comma :: separated (q :: ps)

/-- An array of written items. -/
def array (items : List Bytes) : Bytes :=
  Byte.openBracket :: (separated items ++ [Byte.closeBracket])

/-- An object of keys and written values. -/
def object (members : List (String × Bytes)) : Bytes :=
  let written := members.map fun m => string m.1 ++ Byte.colon :: m.2
  Byte.openBrace :: (separated written ++ [Byte.closeBrace])

end FlowPricing.Json.Writer
