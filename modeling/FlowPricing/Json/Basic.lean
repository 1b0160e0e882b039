/-
Reading JSON text byte by byte. A reader knows what it wants, consumes
bytes from the front and stops at the first problem. Problems are of
three kinds, and the kind is part of the answer: what was read so far can
be malformed, be well formed but not what is wanted, or end too early.
-/
namespace FlowPricing.Json

/-- Text as it lies in a file. -/
abbrev Bytes := List UInt8

/-- Why a text could not be read. -/
inductive Fault where
  /-- No continuation could make the text well formed. -/
  | malformed
  /-- Well formed so far, but of another type or with wrong fields. -/
  | unexpected
  /-- The text ended within a value. -/
  | truncated
deriving DecidableEq, Repr

/-- The kind of the fault as it is reported. -/
def Fault.category : Fault → String
  | malformed => "syntax"
  | unexpected => "data"
  | truncated => "eof"

/-- Reads a value from the front of a text and returns the rest. -/
abbrev Reader (α : Type) := Bytes → Except Fault (α × Bytes)

-- ============================================================ bytes

namespace Byte

/-- The double quote that encloses strings. -/
def quote : UInt8 := 0x22
/-- The comma between items. -/
def comma : UInt8 := 0x2C
/-- The minus sign. -/
def minus : UInt8 := 0x2D
/-- The plus sign, which only exponents may have. -/
def plus : UInt8 := 0x2B
/-- The decimal point. -/
def point : UInt8 := 0x2E
/-- The digit zero. -/
def zero : UInt8 := 0x30
/-- The digit nine. -/
def nine : UInt8 := 0x39
/-- The colon after a key. -/
def colon : UInt8 := 0x3A
/-- The opening bracket of an array. -/
def openBracket : UInt8 := 0x5B
/-- The backslash that starts an escape. -/
def backslash : UInt8 := 0x5C
/-- The closing bracket of an array. -/
def closeBracket : UInt8 := 0x5D
/-- The opening brace of an object. -/
def openBrace : UInt8 := 0x7B
/-- The closing brace of an object. -/
def closeBrace : UInt8 := 0x7D
/-- The first byte that is no control character. -/
def space : UInt8 := 0x20

/-- Whether the byte may stand between tokens. -/
def isBlank (b : UInt8) : Bool :=
  b == 0x20 || b == 0x09 || b == 0x0A || b == 0x0D

/-- Whether the byte is a decimal digit. -/
def isDigit (b : UInt8) : Bool := zero ≤ b && b ≤ nine

/-- The value of a decimal digit. -/
def digitValue (b : UInt8) : Nat := b.toNat - 0x30

/-- The byte of an ASCII character. -/
def ofChar (c : Char) : UInt8 := UInt8.ofNat c.toNat

end Byte

/-- The bytes of ASCII text. -/
def ascii (s : String) : Bytes := s.toList.map Byte.ofChar

/-- The text after its leading blanks. -/
def skipBlanks (bs : Bytes) : Bytes := bs.dropWhile Byte.isBlank

-- ============================================================ punctuation

/-- Reads the rest of a literal word such as `true`. -/
def word : Bytes → Bytes → Except Fault Bytes
  | [], bs => .ok bs
  | _ :: _, [] => .error .truncated
  | w :: ws, b :: bs => if b = w then word ws bs else .error .malformed

/-- Reads one given punctuation byte after blanks. -/
def punctuation (p : UInt8) (bs : Bytes) : Except Fault Bytes :=
  match skipBlanks bs with
  | [] => .error .truncated
  | b :: rest => if b = p then .ok rest else .error .malformed

/-- Goes to the next item of a list that ends with `closing`: `none` if
the list ends here, otherwise the text from the item on. Between two
items stands one comma, and none after the last. -/
def nextItem (closing : UInt8) (first : Bool) (bs : Bytes) :
    Except Fault (Option Bytes) :=
  match skipBlanks bs with
  | [] => .error .truncated
  | b :: rest =>
      if b = closing then .ok none
      else if first then .ok (some (b :: rest))
      else if b = Byte.comma then
        match skipBlanks rest with
        | [] => .error .truncated
        | c :: rest' =>
            if c = closing then .error .malformed else .ok (some (c :: rest'))
      else .error .malformed

end FlowPricing.Json
