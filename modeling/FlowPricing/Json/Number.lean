/-
JSON numbers. A literal is first scanned into its parts and then given a
value: a natural or a negative integer where it has neither fraction nor
exponent and fits 64 bits, and a floating-point number otherwise.

The floating-point value of a literal is computed from the first digits
that fit 64 bits and a power of ten. It is therefore not always the
nearest one, but it is the same for the same literal, and a literal too
large for a finite value is refused.
-/
import FlowPricing.Json.Basic

namespace FlowPricing.Json

/-- The parts of a number literal. -/
structure Literal where
  negative : Bool
  whole : List Nat
  fraction : Option (List Nat)
  /-- Whether the exponent is negative, and its digits. -/
  exponent : Option (Bool × List Nat)
deriving DecidableEq, Repr

/-- The value of a number literal. -/
inductive Number where
  | natural (n : Nat)
  | negative (n : Int)
  | real (x : Float)
deriving DecidableEq, Repr

-- ============================================================ scanning

namespace Literal

/-- The digits at the front of a text, and the rest. -/
def digits (bs : Bytes) : List Nat × Bytes :=
  ((bs.takeWhile Byte.isDigit).map Byte.digitValue, bs.dropWhile Byte.isDigit)

/-- Digits of which there has to be one. -/
def someDigits (bs : Bytes) : Except Fault (List Nat × Bytes) :=
  match bs with
  | [] => .error .truncated
  | b :: _ => if Byte.isDigit b then .ok (digits bs) else .error .malformed

/-- The whole part: a zero alone, or digits that do not start with zero. -/
def scanWhole (bs : Bytes) : Except Fault (List Nat × Bytes) := do
  let (ds, rest) ← someDigits bs
  if ds.head? = some 0 && 1 < ds.length then .error .malformed
  else return (ds, rest)

/-- The fraction, if a point follows. -/
def scanFraction : Bytes → Except Fault (Option (List Nat) × Bytes)
  | [] => .ok (none, [])
  | b :: bs =>
      if b = Byte.point then (someDigits bs).map fun r => (some r.1, r.2)
      else .ok (none, b :: bs)

/-- The sign of an exponent and what follows it. -/
def scanSign : Bytes → Bool × Bytes
  | [] => (false, [])
  | b :: bs =>
      if b = Byte.minus then (true, bs)
      else if b = Byte.plus then (false, bs)
      else (false, b :: bs)

/-- The exponent, if an `e` of either case follows. -/
def scanExponent : Bytes → Except Fault (Option (Bool × List Nat) × Bytes)
  | [] => .ok (none, [])
  | b :: bs =>
      if b = Byte.ofChar 'e' || b = Byte.ofChar 'E' then
        let (negative, rest) := scanSign bs
        (someDigits rest).map fun r => (some (negative, r.1), r.2)
      else .ok (none, b :: bs)

/-- Scans a literal; the text starts with a minus sign or a digit. -/
def scan (bs : Bytes) : Except Fault (Literal × Bytes) := do
  let (negative, bs) := match bs with
    | b :: rest => if b = Byte.minus then (true, rest) else (false, b :: rest)
    | [] => (false, [])
  let (whole, bs) ← scanWhole bs
  let (fraction, bs) ← scanFraction bs
  let (exponent, bs) ← scanExponent bs
  return ({ negative, whole, fraction, exponent }, bs)

-- ============================================================ values

/-- The largest 64-bit number. -/
def maxSignificand : Nat := 0xFFFFFFFFFFFFFFFF

/-- The largest exponent that is told apart from larger ones. -/
def maxExponent : Nat := 0x7FFFFFFF

/-- Appends digits to a significand as long as it fits 64 bits, and returns
it with the digits that are left over. -/
def absorb (significand : Nat) : List Nat → Nat × List Nat
  | [] => (significand, [])
  | d :: ds =>
      let next := significand * 10 + d
      if next ≤ maxSignificand then absorb next ds else (significand, d :: ds)

/-- The number that digits stand for. -/
def natOfDigits (ds : List Nat) : Nat := ds.foldl (fun n d => n * 10 + d) 0

/-- A power of ten, rounded to the nearest number. -/
def powerOfTen (e : Nat) : Float := Float.ofScientific 1 false e

/-- Scales a number by a power of ten, by at most `10^308` at a time;
refuses a result that is not finite. -/
def scale (x : Float) (e : Int) : Except Fault Float :=
  if e.natAbs ≤ 308 then
    if 0 ≤ e then
      let y := x * powerOfTen e.natAbs
      if y.isInf then .error .malformed else .ok y
    else .ok (x / powerOfTen e.natAbs)
  else if x == 0.0 then .ok x
  else if 0 ≤ e then .error .malformed
  else scale (x / powerOfTen 308) (e + 308)
termination_by e.natAbs

/-- The floating-point number `significand · 10^e` with a sign. -/
def real (negative : Bool) (significand : Nat) (e : Int) :
    Except Fault Number := do
  let x ← scale significand.toUInt64.toFloat e
  return .real (if negative then -x else x)

/-- The value of a literal with neither fraction nor exponent whose digits
fit 64 bits. Negative zero is no integer. -/
def integer (negative : Bool) (significand : Nat) : Number :=
  if !negative then .natural significand
  else if 0 < significand && significand ≤ 0x8000000000000000 then
    .negative (-significand)
  else .real (-significand.toUInt64.toFloat)

/-- The value with an exponent on top of the places already counted. An
exponent beyond all bounds is refused if it makes the number large and
gives a zero if it makes it small. -/
def withExponent (negative : Bool) (significand : Nat) (places : Int) :
    Option (Bool × List Nat) → Except Fault Number
  | none => real negative significand places
  | some (small, ds) =>
      let e := natOfDigits ds
      if e ≤ maxExponent then
        real negative significand (if small then places - e else places + e)
      else if significand ≠ 0 && !small then .error .malformed
      else .ok (.real (if negative then -0.0 else 0.0))

/-- The value of a literal. -/
def value (l : Literal) : Except Fault Number :=
  let (s, dropped) := absorb 0 l.whole
  match l.fraction with
  | some ds =>
      let (s', left) := absorb s ds
      let places : Int := dropped.length - (ds.length - left.length : Nat)
      withExponent l.negative s' places l.exponent
  | none =>
      if dropped.isEmpty && l.exponent.isNone then .ok (integer l.negative s)
      else withExponent l.negative s dropped.length l.exponent

end Literal

namespace Number

/-- Reads a number; the text starts with a minus sign or a digit. -/
def read (bs : Bytes) : Except Fault (Number × Bytes) := do
  let (l, rest) ← Literal.scan bs
  let n ← l.value
  return (n, rest)

/-- The number as an integer, if the literal was one. -/
def integer? : Number → Option Int
  | natural n => some n
  | negative n => some n
  | real _ => none

/-- The number as a floating-point number. -/
def toFloat : Number → Float
  | natural n => n.toUInt64.toFloat
  | negative n => Float.ofInt n
  | real x => x

end Number

end FlowPricing.Json
