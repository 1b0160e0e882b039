/-
Integers are read back. A written integer is a numeral without leading zeros,
perhaps behind a minus sign; scanning stops behind its last digit, because
what may follow a value is neither a digit nor a part of a number
(`Literal.scan_numeral`). Its digits fit 64 bits together, so none is left
over (`Literal.absorb_eq`), and their value is the integer.
-/
import FlowPricing.Proofs.Json.Reading

namespace FlowPricing.Json

variable {n : Nat} {rest : Bytes}

-- ================================================================ digits

/-- The bytes of a numeral. -/
def numeral (n : Nat) : Bytes := (Numeral.ofNat n).map Byte.ofChar

/-- The byte of a digit is its code. -/
theorem toNat_ofChar {c : Char} (h : c.isDigit = true) :
    (Byte.ofChar c).toNat = c.toNat ∧ 48 ≤ c.toNat ∧ c.toNat ≤ 57 := by
  unfold Char.isDigit at h
  simp only [ge_iff_le, Bool.and_eq_true, decide_eq_true_eq,
    UInt32.le_iff_toNat_le] at h
  have hlow : 48 ≤ c.toNat := h.1
  have hhigh : c.toNat ≤ 57 := h.2
  refine ⟨?_, hlow, hhigh⟩
  unfold Byte.ofChar
  rw [UInt8.toNat_ofNat']
  omega

/-- The bytes of digits are digits. -/
theorem isDigit_ofChar {c : Char} (h : c.isDigit = true) :
    Byte.isDigit (Byte.ofChar c) = true := by
  obtain ⟨hnat, hlow, hhigh⟩ := toNat_ofChar h
  unfold Byte.isDigit
  simp only [Bool.and_eq_true, decide_eq_true_eq, UInt8.le_iff_toNat_le, hnat]
  exact ⟨hlow, hhigh⟩

/-- A digit has the same value as a byte. -/
theorem digitValue_ofChar {c : Char} (h : c.isDigit = true) :
    Byte.digitValue (Byte.ofChar c) = c.toNat - '0'.toNat := by
  unfold Byte.digitValue
  rw [(toNat_ofChar h).1]
  rfl

/-- A numeral is written in digits. -/
theorem isDigit_of_mem_numeral {b : UInt8} (h : b ∈ numeral n) :
    Byte.isDigit b = true := by
  obtain ⟨c, hc, rfl⟩ := List.mem_map.1 h
  exact isDigit_ofChar (Numeral.isDigit_of_mem_ofNat hc)

/-- It has at least one. -/
theorem numeral_eq_cons (n : Nat) :
    ∃ b bs, numeral n = b :: bs ∧ Byte.isDigit b = true := by
  cases h : numeral n with
  | nil => exact absurd (List.map_eq_nil_iff.1 h) (Numeral.ofNat_ne_nil n)
  | cons b bs =>
      exact ⟨b, bs, rfl, isDigit_of_mem_numeral (h ▸ List.mem_cons_self)⟩

/-- A byte that may follow a value belongs to no number. -/
theorem not_digit_of_ends {b : UInt8} {bs : Bytes} (h : Ends (b :: bs)) :
    Byte.isDigit b = false ∧ b ≠ Byte.point ∧ b ≠ Byte.ofChar 'e'
      ∧ b ≠ Byte.ofChar 'E' := by
  rcases h with rfl | rfl | rfl <;> decide

/-- A text that begins with a digit can begin a value. -/
theorem begins_of_digit {b : UInt8} (bs : Bytes) (h : Byte.isDigit b = true) :
    Begins (b :: bs) := by
  refine begins_cons bs ⟨?_, ?_, ?_⟩
  · cases hblank : Byte.isBlank b with
    | false => rfl
    | true =>
        unfold Byte.isBlank at hblank
        simp only [Bool.or_eq_true, beq_iff_eq] at hblank
        rcases hblank with ((rfl | rfl) | rfl) | rfl <;> exact nomatch h
  · rintro rfl
    exact nomatch h
  · rintro rfl
    exact nomatch h

namespace Literal

/-- Reading digits takes all of them, and stops where they end. -/
theorem digits_append {bs : Bytes} (h : ∀ b ∈ bs, Byte.isDigit b = true)
    (hrest : Ends rest) :
    digits (bs ++ rest) = (bs.map Byte.digitValue, rest) := by
  have hstop : rest.takeWhile Byte.isDigit = []
      ∧ rest.dropWhile Byte.isDigit = rest := by
    cases rest with
    | nil => exact ⟨rfl, rfl⟩
    | cons b rest =>
        have hb := (not_digit_of_ends hrest).1
        rw [List.takeWhile_cons_of_neg (by simp [hb]),
          List.dropWhile_cons_of_neg (by simp [hb])]
        exact ⟨rfl, rfl⟩
  unfold digits
  rw [List.takeWhile_append_of_pos h, List.dropWhile_append_of_pos h,
    hstop.1, hstop.2, List.append_nil]

/-- Only zero starts with the digit zero. -/
theorem head?_ofNat_ne_zero (h : 0 < n) :
    (Numeral.ofNat n).head? ≠ some '0' := by
  unfold Numeral.ofNat
  induction n using Nat.base_induction 10 (by decide) with
  | single m hm =>
      intro hhead
      rw [Nat.toDigits_of_lt_base hm] at hhead
      have hvalue := Nat.toNat_digitChar_sub_48_of_lt_ten hm
      rw [Option.some.inj hhead] at hvalue
      exact absurd hvalue (by simp; omega)
  | digit m k hk hm ih =>
      rw [← Nat.toDigits_append_toDigits (by decide) hm hk,
        List.head?_append_of_ne_nil _ Nat.toDigits_ne_nil]
      exact ih hm

/-- The digits of a numeral, as numbers. -/
def digitsOf (n : Nat) : List Nat := (numeral n).map Byte.digitValue

/-- The digits of a number are those of its numeral. -/
theorem digitsOf_eq (n : Nat) :
    digitsOf n = (Numeral.ofNat n).map fun c => c.toNat - '0'.toNat := by
  unfold digitsOf numeral
  rw [List.map_map]
  exact List.map_congr_left fun c hc =>
    digitValue_ofChar (Numeral.isDigit_of_mem_ofNat hc)

/-- A numeral has no leading zeros. -/
theorem no_leading_zero (n : Nat) :
    ((digitsOf n).head? = some 0 && 1 < (digitsOf n).length) = false := by
  rcases Nat.eq_zero_or_pos n with rfl | hpos
  · rfl
  · have hhead : (digitsOf n).head? ≠ some 0 := by
      intro hzero
      rw [digitsOf_eq, List.head?_map, Option.map_eq_some_iff] at hzero
      obtain ⟨c, hc, hzero⟩ := hzero
      obtain ⟨-, hlow, -⟩ :=
        toNat_ofChar (Numeral.isDigit_of_mem_ofNat (List.mem_of_mem_head? hc))
      have hc' : c = '0' :=
        Char.toNat_inj.1 (Nat.le_antisymm (Nat.le_of_sub_eq_zero hzero) hlow)
      exact head?_ofNat_ne_zero hpos (hc' ▸ hc)
    simp [hhead]

/-- A numeral is scanned as its digits. -/
theorem scanWhole_numeral (n : Nat) (hrest : Ends rest) :
    scanWhole (numeral n ++ rest) = .ok (digitsOf n, rest) := by
  obtain ⟨b, bs, hn, hb⟩ := numeral_eq_cons n
  have hdigits := digits_append (fun _ => isDigit_of_mem_numeral (n := n)) hrest
  have hsome : someDigits (numeral n ++ rest) = .ok (digitsOf n, rest) := by
    rw [hn] at hdigits ⊢
    unfold someDigits
    exact (if_pos hb).trans (congrArg _ (hn ▸ hdigits))
  unfold scanWhole
  rw [hsome]
  show (if _ then _ else _) = _
  rw [no_leading_zero]
  rfl

/-- Behind a numeral there is neither a fraction nor an exponent. -/
theorem scan_rest (hrest : Ends rest) :
    scanFraction rest = .ok (none, rest)
      ∧ scanExponent rest = .ok (none, rest) := by
  cases rest with
  | nil => exact ⟨rfl, rfl⟩
  | cons b rest =>
      obtain ⟨-, hpoint, hlower, hupper⟩ := not_digit_of_ends hrest
      unfold scanFraction scanExponent
      simp [hpoint, hlower, hupper]

/-- A written integer, by its sign and its absolute value. -/
def written (negative : Bool) (n : Nat) : Bytes :=
  if negative then Byte.minus :: numeral n else numeral n

/-- A number that was written is scanned as a literal without fraction and
exponent. -/
theorem scan_written (negative : Bool) (n : Nat) (hrest : Ends rest) :
    scan (written negative n ++ rest)
      = .ok ({ negative, whole := digitsOf n, fraction := none,
               exponent := none }, rest) := by
  obtain ⟨hfraction, hexponent⟩ := scan_rest hrest
  have hwhole := scanWhole_numeral n hrest
  cases negative with
  | true =>
      show scan (Byte.minus :: (numeral n ++ rest)) = _
      simp only [scan, if_true, hwhole, except_ok_bind, hfraction, hexponent]
      rfl
  | false =>
      obtain ⟨b, bs, hn, hb⟩ := numeral_eq_cons n
      have hminus : b ≠ Byte.minus := by
        rintro rfl
        exact nomatch hb
      show scan (numeral n ++ rest) = _
      rw [hn, List.cons_append] at hwhole ⊢
      simp only [scan, if_neg hminus, hwhole, except_ok_bind,
        hfraction, hexponent]
      rfl

-- ================================================================= value

/-- More digits make no number smaller. -/
theorem le_foldl_digits (ds : List Nat) (s : Nat) :
    s ≤ ds.foldl (fun n d => n * 10 + d) s := by
  induction ds generalizing s with
  | nil => exact Nat.le_refl s
  | cons d ds ih =>
      have hnext := ih (s * 10 + d)
      rw [List.foldl_cons]
      omega

/-- Digits that fit 64 bits together are all absorbed. -/
theorem absorb_eq (ds : List Nat) (s : Nat)
    (h : ds.foldl (fun n d => n * 10 + d) s ≤ maxSignificand) :
    absorb s ds = (ds.foldl (fun n d => n * 10 + d) s, []) := by
  induction ds generalizing s with
  | nil => rfl
  | cons d ds ih =>
      rw [List.foldl_cons] at h ⊢
      rw [absorb, if_pos (Nat.le_trans (le_foldl_digits ds _) h)]
      exact ih _ h

/-- The digits of a number make up the number. -/
theorem value_digitsOf (n : Nat) : natOfDigits (digitsOf n) = n := by
  have hvalue := Nat.ofDigitChars_ten_toDigits (n := n)
  rw [Nat.ofDigitChars_eq_foldl] at hvalue
  unfold natOfDigits
  rw [digitsOf_eq, List.foldl_map]
  simp only [Nat.mul_comm _ 10]
  exact hvalue

/-- A literal that was written has the value it was written for. -/
theorem value_written (negative : Bool) (h : n ≤ maxSignificand) :
    value { negative, whole := digitsOf n, fraction := none, exponent := none }
      = .ok (integer negative n) := by
  have hvalue : (digitsOf n).foldl (fun n d => n * 10 + d) 0 = n :=
    value_digitsOf n
  have habsorb := absorb_eq (digitsOf n) 0 (by rw [hvalue]; exact h)
  unfold value
  simp only [habsorb, hvalue]
  rfl

end Literal

-- ============================================================== integers

/-- An integer is written as its sign and its magnitude. -/
theorem writer_integer_eq (i : Int) :
    Writer.integer i = Literal.written (decide (i < 0)) i.natAbs := by
  cases i with
  | ofNat n => rfl
  | negSucc n =>
      rw [decide_eq_true (Int.negSucc_lt_zero n)]
      rfl

/-- The literal of an integer that fits 64 bits has its value. -/
theorem integer?_literal {i : Int} (hleast : -0x8000000000000000 ≤ i) :
    (Literal.integer (decide (i < 0)) i.natAbs).integer? = some i := by
  unfold Literal.integer
  by_cases hneg : i < 0
  · have hfits : (0 < i.natAbs && i.natAbs ≤ 0x8000000000000000) = true := by
      simp only [Bool.and_eq_true, decide_eq_true_eq]
      omega
    rw [decide_eq_true hneg, hfits]
    show some (-(i.natAbs : Int)) = some i
    congr 1
    omega
  · rw [decide_eq_false hneg]
    show some (i.natAbs : Int) = some i
    congr 1
    omega

/-- What is written for an integer begins with a sign or a digit. -/
theorem begins_integer (i : Int) : ∃ b bs, Writer.integer i = b :: bs
    ∧ (b = Byte.minus || Byte.isDigit b) = true ∧ Begins (b :: bs) := by
  rw [writer_integer_eq]
  cases decide (i < 0) with
  | true => exact ⟨_, _, rfl, rfl, begins_cons _ (by decide)⟩
  | false =>
      obtain ⟨b, bs, hn, hb⟩ := numeral_eq_cons i.natAbs
      exact ⟨b, bs, hn, by simp [hb], begins_of_digit bs hb⟩

/-- A written integer is read back between bounds of at most 64 bits. -/
theorem reads_integer {low high i : Int} (hlow : low ≤ i) (hhigh : i ≤ high)
    (hleast : -0x8000000000000000 ≤ low) (hmost : high ≤ 0xFFFFFFFFFFFFFFFF) :
    Reads (integer low high) (Writer.integer i) i := by
  obtain ⟨b, bs, hi, hb, hbegins⟩ := begins_integer i
  refine ⟨hi ▸ hbegins, fun rest hrest => ?_⟩
  have hfits : i.natAbs ≤ Literal.maxSignificand := by
    unfold Literal.maxSignificand
    omega
  have hscan := Literal.scan_written (decide (i < 0)) i.natAbs hrest
  rw [← writer_integer_eq] at hscan
  have hread : Number.read (Writer.integer i ++ rest)
      = .ok (Literal.integer (decide (i < 0)) i.natAbs, rest) := by
    unfold Number.read
    rw [hscan, except_ok_bind]
    simp only
    rw [Literal.value_written _ hfits, except_ok_bind]
    rfl
  have hnumber : number (Writer.integer i ++ rest)
      = .ok (Literal.integer (decide (i < 0)) i.natAbs, rest) := by
    rw [hi, List.cons_append] at hread ⊢
    unfold number
    rw [start_cons hbegins.1, if_pos hb]
    exact hread
  unfold integer
  rw [hnumber, except_ok_bind]
  simp only [integer?_literal (Int.le_trans hleast hlow)]
  rw [if_pos (by simp [hlow, hhigh])]
  rfl

/-- A field of 32 bits is read back as it was written. -/
theorem reads_int32 (x : Int32) : Reads int32 (Writer.integer x.toInt) x := by
  have hlow := x.le_toInt
  have hhigh := x.toInt_lt
  have hread : Reads (integer (-0x80000000) 0x7FFFFFFF)
      (Writer.integer x.toInt) x.toInt :=
    reads_integer (by omega) (by omega) (by decide) (by decide)
  have hmap := hread.map Int32.ofInt
  rw [Int32.ofInt_toInt] at hmap
  exact hmap

/-- So is one of 64 bits. -/
theorem reads_int64 (x : Int64) : Reads int64 (Writer.integer x.toInt) x := by
  have hlow := x.le_toInt
  have hhigh := x.toInt_lt
  have hread : Reads (integer (-0x8000000000000000) 0x7FFFFFFFFFFFFFFF)
      (Writer.integer x.toInt) x.toInt :=
    reads_integer (by omega) (by omega) (by decide) (by decide)
  have hmap := hread.map Int64.ofInt
  rw [Int64.ofInt_toInt] at hmap
  exact hmap

end FlowPricing.Json
