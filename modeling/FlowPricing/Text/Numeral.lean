/-
Decimal numerals: how whole numbers are written in names, reports and
messages, and how a run of digits is read back.

Writing uses no leading zeros and a minus sign in front of negative
numbers. Reading takes ASCII digits only — no sign, no blank, no
separator — and any number of leading zeros. The main statement is
`read?_ofNat`: what is written is read back.
-/
namespace FlowPricing.Numeral

-- ============================================================ writing

/-- The digits of a natural number, most significant first. -/
def ofNat (n : Nat) : List Char := Nat.toDigits 10 n

/-- An integer, with a minus sign if it is negative. -/
def ofInt : Int → List Char
  | .ofNat n => ofNat n
  | .negSucc n => '-' :: ofNat (n + 1)

-- ============================================================ reading

/-- Whether the characters are digits and there is at least one. -/
def isNumeral (cs : List Char) : Bool := !cs.isEmpty && cs.all Char.isDigit

/-- The number that a run of digits stands for. -/
def value (digits : List Char) : Nat := Nat.ofDigitChars 10 digits 0

/-- The number written by `cs`, if `cs` is a numeral. -/
def read? (cs : List Char) : Option Nat :=
  if isNumeral cs then some (value cs) else none

-- ================================================== reading what is written

theorem ofNat_ne_nil (n : Nat) : ofNat n ≠ [] := Nat.toDigits_ne_nil

theorem isDigit_of_mem_ofNat {n : Nat} {c : Char} (h : c ∈ ofNat n) :
    c.isDigit = true :=
  Nat.isDigit_of_mem_toDigits (by decide) (by decide) h

theorem isNumeral_ofNat (n : Nat) : isNumeral (ofNat n) = true := by
  have hall : (ofNat n).all Char.isDigit = true :=
    List.all_eq_true.2 fun _ hc => isDigit_of_mem_ofNat hc
  simp [isNumeral, hall, ofNat_ne_nil]

@[simp] theorem value_ofNat (n : Nat) : value (ofNat n) = n :=
  Nat.ofDigitChars_ten_toDigits

@[simp] theorem read?_ofNat (n : Nat) : read? (ofNat n) = some n := by
  simp [read?, isNumeral_ofNat]

theorem ofNat_injective {m n : Nat} (h : ofNat m = ofNat n) : m = n := by
  rw [← value_ofNat m, h, value_ofNat]

end FlowPricing.Numeral
