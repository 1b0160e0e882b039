/-
JSON strings. A string that is read has to be valid text once its escapes
are resolved; a string that is only passed over has to have well-formed
escapes and no control characters, but may hold any other bytes.
-/
import FlowPricing.Json.Basic

namespace FlowPricing.Json.Text

-- ============================================================ escapes

/-- The value of a hexadecimal digit of either case. -/
def hexValue? (b : UInt8) : Option Nat :=
  if Byte.isDigit b then some (Byte.digitValue b)
  else if Byte.ofChar 'a' ≤ b && b ≤ Byte.ofChar 'f' then some (b.toNat - 87)
  else if Byte.ofChar 'A' ≤ b && b ≤ Byte.ofChar 'F' then some (b.toNat - 55)
  else none

/-- Reads four hexadecimal digits. -/
def codeUnit : Bytes → Except Fault (Nat × Bytes)
  | a :: b :: c :: d :: rest =>
      match hexValue? a, hexValue? b, hexValue? c, hexValue? d with
      | some a, some b, some c, some d =>
          .ok (((a * 16 + b) * 16 + c) * 16 + d, rest)
      | _, _, _, _ => .error .malformed
  | _ => .error .truncated

/-- Whether a code unit opens a surrogate pair. -/
def isLead (n : Nat) : Bool := 0xD800 ≤ n && n ≤ 0xDBFF

/-- Whether a code unit closes a surrogate pair. -/
def isTrail (n : Nat) : Bool := 0xDC00 ≤ n && n ≤ 0xDFFF

/-- The bytes of a character, by its number. -/
def encode (n : Nat) : Bytes := String.utf8EncodeChar (Char.ofNat n)

/-- Reads what closes the surrogate pair opened by `lead`. -/
def trail (lead : Nat) : Bytes → Except Fault (Bytes × Bytes)
  | [] => .error .truncated
  | b :: bs =>
      if b ≠ Byte.backslash then .error .malformed
      else match bs with
        | [] => .error .truncated
        | c :: cs =>
            if c ≠ Byte.ofChar 'u' then .error .malformed
            else match codeUnit cs with
              | .error f => .error f
              | .ok (n, rest) =>
                  if isTrail n then
                    .ok (encode
                      ((lead - 0xD800) * 1024 + (n - 0xDC00) + 0x10000), rest)
                  else .error .malformed

/-- What the letter of a short escape stands for. -/
def shortEscape? (b : UInt8) : Option UInt8 :=
  if b = Byte.quote then some Byte.quote
  else if b = Byte.backslash then some Byte.backslash
  else if b = Byte.ofChar '/' then some (Byte.ofChar '/')
  else if b = Byte.ofChar 'b' then some 0x08
  else if b = Byte.ofChar 'f' then some 0x0C
  else if b = Byte.ofChar 'n' then some 0x0A
  else if b = Byte.ofChar 'r' then some 0x0D
  else if b = Byte.ofChar 't' then some 0x09
  else none

/-- Reads an escape after its backslash. -/
def escape : Bytes → Except Fault (Bytes × Bytes)
  | [] => .error .truncated
  | b :: bs =>
      match shortEscape? b with
      | some c => .ok ([c], bs)
      | none =>
          if b = Byte.ofChar 'u' then
            match codeUnit bs with
            | .error f => .error f
            | .ok (n, rest) =>
                if isTrail n then .error .malformed
                else if isLead n then trail n rest
                else .ok (encode n, rest)
          else .error .malformed

/-- Passes over an escape after its backslash. -/
def passEscape : Bytes → Except Fault Bytes
  | [] => .error .truncated
  | b :: bs =>
      if (shortEscape? b).isSome then .ok bs
      else if b = Byte.ofChar 'u' then (codeUnit bs).map Prod.snd
      else .error .malformed

-- ============================================================ strings

/-- Reads the bytes of a string up to its closing quote, escapes resolved. -/
def body (bs : Bytes) : Except Fault (Bytes × Bytes) :=
  match bs with
  | [] => .error .truncated
  | b :: rest =>
      if b = Byte.quote then .ok ([], rest)
      else if b = Byte.backslash then
        match escape rest with
        | .error f => .error f
        | .ok (decoded, rest') =>
            -- an escape never gives bytes back
            if rest'.length < rest.length + 1 then
              match body rest' with
              | .error f => .error f
              | .ok (more, after) => .ok (decoded ++ more, after)
            else .error .malformed
      else if b < Byte.space then .error .malformed
      else
        match body rest with
        | .error f => .error f
        | .ok (more, after) => .ok (b :: more, after)
termination_by bs.length

/-- Reads a string after its opening quote. -/
def read (bs : Bytes) : Except Fault (String × Bytes) :=
  match body bs with
  | .error f => .error f
  | .ok (bytes, rest) =>
      match String.fromUTF8? bytes.toByteArray with
      | some s => .ok (s, rest)
      | none => .error .malformed

/-- Passes over a string after its opening quote. -/
def pass (bs : Bytes) : Except Fault Bytes :=
  match bs with
  | [] => .error .truncated
  | b :: rest =>
      if b = Byte.quote then .ok rest
      else if b = Byte.backslash then
        match passEscape rest with
        | .error f => .error f
        | .ok rest' =>
            if rest'.length < rest.length + 1 then pass rest'
            else .error .malformed
      else if b < Byte.space then .error .malformed
      else pass rest
termination_by bs.length

end FlowPricing.Json.Text
