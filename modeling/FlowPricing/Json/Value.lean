/-
Readers for the values that documents are made of: integers of a fixed
width, floating-point numbers, flags, strings and lists. A reader that
meets a value of another type passes over it if it is a scalar, so that
its flaws are reported first, and then refuses it; an array or object is
refused at its first byte.
-/
import FlowPricing.Json.Number
import FlowPricing.Json.Text

namespace FlowPricing.Json

variable {α : Type}

/-- The fault a wanted type gives for the value that is there instead. -/
def refusal (bs : Bytes) : Fault :=
  let afterwards {α : Type} : Except Fault α → Fault
    | .error f => f
    | .ok _ => .unexpected
  match bs with
  | [] => .malformed
  | b :: rest =>
      if b = Byte.ofChar 'n' then afterwards (word (ascii "ull") rest)
      else if b = Byte.ofChar 't' then afterwards (word (ascii "rue") rest)
      else if b = Byte.ofChar 'f' then afterwards (word (ascii "alse") rest)
      else if b = Byte.minus || Byte.isDigit b then afterwards (Number.read bs)
      else if b = Byte.quote then afterwards (Text.read rest)
      else if b = Byte.openBracket || b = Byte.openBrace then .unexpected
      else .malformed

/-- Starts a value: skips blanks, and wants something to follow. -/
def start (read : UInt8 → Bytes → Except Fault α) (bs : Bytes) :
    Except Fault α :=
  match skipBlanks bs with
  | [] => .error .truncated
  | b :: rest => read b rest

/-- A number. -/
def number : Reader Number := start fun b rest =>
  if b = Byte.minus || Byte.isDigit b then Number.read (b :: rest)
  else .error (refusal (b :: rest))

/-- An integer between two bounds, written without fraction or exponent. -/
def integer (low high : Int) : Reader Int := fun bs => do
  let (n, rest) ← number bs
  match n.integer? with
  | some i =>
      if low ≤ i && i ≤ high then return (i, rest) else .error .unexpected
  | none => .error .unexpected

/-- A 32-bit integer. -/
def int32 : Reader Int32 := fun bs =>
  (integer (-0x80000000) 0x7FFFFFFF bs).map fun r => (Int32.ofInt r.1, r.2)

/-- A 64-bit integer. -/
def int64 : Reader Int64 := fun bs =>
  (integer (-0x8000000000000000) 0x7FFFFFFFFFFFFFFF bs).map fun r =>
    (Int64.ofInt r.1, r.2)

/-- A natural number of at most 64 bits. -/
def nat64 : Reader Nat := fun bs =>
  (integer 0 0xFFFFFFFFFFFFFFFF bs).map fun r => (r.1.toNat, r.2)

/-- A floating-point number; integers are accepted. -/
def float : Reader Float := fun bs =>
  (number bs).map fun r => (r.1.toFloat, r.2)

/-- A flag. -/
def flag : Reader Bool := start fun b rest =>
  if b = Byte.ofChar 't' then (word (ascii "rue") rest).map (true, ·)
  else if b = Byte.ofChar 'f' then (word (ascii "alse") rest).map (false, ·)
  else .error (refusal (b :: rest))

/-- A string. -/
def string : Reader String := start fun b rest =>
  if b = Byte.quote then Text.read rest else .error (refusal (b :: rest))

/-- The items of an array up to and with its closing bracket. -/
def items (item : Reader α) (first : Bool) (bs : Bytes) :
    Except Fault (List α × Bytes) :=
  match nextItem Byte.closeBracket first bs with
  | .error f => .error f
  | .ok none => (punctuation Byte.closeBracket bs).map ([], ·)
  | .ok (some at?) =>
      match item at? with
      | .error f => .error f
      | .ok (a, rest) =>
          -- no item is empty
          if rest.length < bs.length then
            match items item false rest with
            | .error f => .error f
            | .ok (as, after) => .ok (a :: as, after)
          else .error .malformed
termination_by bs.length

/-- An array of any length. -/
def list (item : Reader α) : Reader (List α) := start fun b rest =>
  if b = Byte.openBracket then items item true rest
  else .error (refusal (b :: rest))

/-- A whole document: one value and nothing but blanks after it. -/
def document (read : Reader α) (bs : Bytes) : Except Fault α :=
  match read bs with
  | .error f => .error f
  | .ok (a, rest) =>
      if (skipBlanks rest).isEmpty then .ok a else .error .malformed

end FlowPricing.Json
