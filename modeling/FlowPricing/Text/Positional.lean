/-
How floating-point numbers are written in messages and reports: with the
digits of their shortest decimal, always positionally and never with an
exponent; a fraction is written only where there is one, so that `1`
stands for one and `-0` for negative zero.
-/
import FlowPricing.Text.Numeral
import FlowPricing.Text.Shortest

namespace FlowPricing.Positional

/-- A decimal written positionally: zeros fill the places between the
digits and the point on either side. -/
def ofDecimal (d : Shortest.Decimal) : List Char :=
  let digits := Numeral.ofNat d.digits
  match d.exponent with
  | .ofNat zeros => digits ++ List.replicate zeros '0'
  | .negSucc n =>
      let places := n + 1
      let whole := digits.length - places
      if places < digits.length then digits.take whole
        ++ '.' :: digits.drop whole
      else '0' :: '.' :: List.replicate (places - digits.length) '0' ++ digits

/-- The text of a non-negative number or infinity, from its bits. -/
def ofMagnitude (bits : Nat) : List Char :=
  if bits = 0 then ['0']
  else if bits = 0x7FF0000000000000 then "inf".toList
  else ofDecimal (Shortest.Binary.ofBits bits).shortest

/-- The text of a floating-point number. -/
def ofFloat (x : Float) : List Char :=
  if x.isNaN then "NaN".toList
  else
    let bits := x.toBits.toNat
    if bits < 0x8000000000000000 then ofMagnitude bits
    else '-' :: ofMagnitude (bits - 0x8000000000000000)

/-- The text of a floating-point number, as a string. -/
def text (x : Float) : String := String.ofList (ofFloat x)

end FlowPricing.Positional
