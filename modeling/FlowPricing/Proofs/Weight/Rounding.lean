/-
Rounding whole numbers to 53 significant bits, to the nearest and on a tie
to the even one. In units of the smallest weight this is what addition
does to an exact sum, and all that matters here is that it keeps order
(`roundUnits_mono`): within one binary order of magnitude the rounded
quotients are in order, and between two of them lies a power of two that
neither passes.

The second half ties the rule to the arithmetic of weights: the round and
sticky bits that a shift leaves behind are the two comparisons the rule
asks for (`roundedMantissa_shift`).
-/
import FlowPricing.Proofs.Weight.Units

namespace FlowPricing.Weight

open Float.Model (Format UnpackedFloat)
open Float.Model.UnpackedFloat

-- ============================================================ the rule

/-- A number divided by a power of two, to the nearest whole number; a tie
goes to the even one. -/
def nearest (n k : Nat) : Nat :=
  if 2 * (n % 2 ^ k) < 2 ^ k then n / 2 ^ k
  else if 2 ^ k < 2 * (n % 2 ^ k) then n / 2 ^ k + 1
  else n / 2 ^ k + n / 2 ^ k % 2

/-- How many bits of a number are too many for a significand. -/
def surplus (n : Nat) : Nat := n.log2 - 52

/-- A magnitude with its surplus bits rounded away. -/
def roundMagnitude (n : Nat) : Nat := nearest n (surplus n) * 2 ^ surplus n

/-- A number rounded by its magnitude. -/
def roundUnits : Int → Int
  | .ofNat n => roundMagnitude n
  | .negSucc n => -(roundMagnitude (n + 1) : Int)

/-- Rounding goes down or up to the next multiple, no further. -/
theorem nearest_bounds (n k : Nat) :
    n / 2 ^ k ≤ nearest n k ∧ nearest n k ≤ n / 2 ^ k + 1 := by
  unfold nearest
  split
  · omega
  · split <;> omega

theorem nearest_mono {m n : Nat} (h : m ≤ n) (k : Nat) :
    nearest m k ≤ nearest n k := by
  rcases Nat.lt_or_ge (m / 2 ^ k) (n / 2 ^ k) with hq | hq
  · have := (nearest_bounds m k).2
    have := (nearest_bounds n k).1
    omega
  · -- the quotients agree, so the remainders are in order
    have hqe : m / 2 ^ k = n / 2 ^ k :=
      Nat.le_antisymm (Nat.div_le_div_right h) hq
    have hm := Nat.div_add_mod m (2 ^ k)
    have hn := Nat.div_add_mod n (2 ^ k)
    rw [hqe] at hm
    unfold nearest
    rw [hqe]
    split_ifs <;> omega

/-- A common power of two does not matter. -/
theorem nearest_mul_pow (m k j : Nat) :
    nearest (m * 2 ^ j) (k + j) = nearest m k := by
  have hj : 0 < 2 ^ j := Nat.two_pow_pos j
  have hpow : 2 ^ (k + j) = 2 ^ k * 2 ^ j := Nat.pow_add 2 k j
  have hq : m * 2 ^ j / 2 ^ (k + j) = m / 2 ^ k := by
    rw [hpow, Nat.mul_div_mul_right _ _ hj]
  have hr : m * 2 ^ j % 2 ^ (k + j) = m % 2 ^ k * 2 ^ j := by
    rw [hpow, Nat.mul_mod_mul_right]
  unfold nearest
  rw [hq, hr, hpow, ← Nat.mul_assoc]
  simp only [Nat.mul_lt_mul_right hj]

@[simp] theorem nearest_zero_right (n : Nat) : nearest n 0 = n := by
  simp [nearest, Nat.mod_one]

theorem surplus_mul_pow {m : Nat} (h : 0 < m) (k : Nat) :
    surplus (m * 2 ^ k) = m.log2 + k - 52 := by
  have hlog : (m * 2 ^ k).log2 = m.log2 + k := by
    rw [Nat.log2_eq_iff (Nat.mul_pos h (Nat.two_pow_pos k)).ne', Nat.pow_add,
      Nat.add_right_comm, Nat.pow_add]
    exact ⟨Nat.mul_le_mul_right _ (Nat.log2_self_le h.ne'),
      Nat.mul_lt_mul_of_pos_right Nat.lt_log2_self (Nat.two_pow_pos k)⟩
  unfold surplus
  rw [hlog]

/-- Nothing is lost where only zeros are rounded away. -/
theorem nearest_of_le (m : Nat) {k s : Nat} (h : s ≤ k) :
    nearest (m * 2 ^ k) s * 2 ^ s = m * 2 ^ k := by
  obtain ⟨j, rfl⟩ := Nat.exists_eq_add_of_le' h
  have hcut := nearest_mul_pow (m * 2 ^ j) 0 s
  rw [Nat.zero_add, nearest_zero_right] at hcut
  rw [Nat.pow_add, ← Nat.mul_assoc, hcut]

/-- A significand in any order of magnitude loses nothing. -/
theorem roundMagnitude_mul_pow {m : Nat} (h : m < 2 ^ 53) (k : Nat) :
    roundMagnitude (m * 2 ^ k) = m * 2 ^ k := by
  rcases Nat.eq_zero_or_pos m with rfl | hm
  · rw [Nat.zero_mul]
    rfl
  · have hlog : m.log2 < 53 := (Nat.log2_lt hm.ne').2 h
    exact nearest_of_le m (by rw [surplus_mul_pow hm]; omega)

/-- What is left after rounding away the surplus bits fits a significand,
or is the power of two just above. -/
theorem nearest_surplus_le (n : Nat) : nearest n (surplus n) ≤ 2 ^ 53 := by
  have hlog : n < 2 ^ (n.log2 + 1) := Nat.lt_log2_self
  have hn : n < 2 ^ 53 * 2 ^ surplus n := by
    rw [← Nat.pow_add]
    exact Nat.lt_of_lt_of_le hlog
      (Nat.pow_le_pow_right (by decide) (by unfold surplus; omega))
  have hq : n / 2 ^ surplus n < 2 ^ 53 :=
    Nat.div_lt_of_lt_mul (by rwa [Nat.mul_comm])
  have hb := (nearest_bounds n (surplus n)).2
  omega

/-- And where bits were rounded away, it fills a significand. -/
theorem le_nearest_surplus {n : Nat} (h : 0 < surplus n) :
    2 ^ 52 ≤ nearest n (surplus n) := by
  have hlog : 52 + surplus n = n.log2 := by unfold surplus at h ⊢; omega
  have hn0 : n ≠ 0 := by
    rintro rfl
    exact absurd h (by decide)
  have hn : 2 ^ 52 * 2 ^ surplus n ≤ n := by
    rw [← Nat.pow_add, hlog]
    exact Nat.log2_self_le hn0
  have hq : 2 ^ 52 ≤ n / 2 ^ surplus n :=
    (Nat.le_div_iff_mul_le (Nat.two_pow_pos _)).2 hn
  exact hq.trans (nearest_bounds n _).1

/-- Rounding stays below the power of two above. -/
theorem roundMagnitude_le (n : Nat) :
    roundMagnitude n ≤ 2 ^ (53 + surplus n) := by
  unfold roundMagnitude
  rw [Nat.pow_add]
  exact Nat.mul_le_mul_right _ (nearest_surplus_le n)

/-- Rounding stays above the power of two below. -/
theorem le_roundMagnitude {n : Nat} (h : 0 < surplus n) :
    2 ^ (52 + surplus n) ≤ roundMagnitude n := by
  unfold roundMagnitude
  rw [Nat.pow_add]
  exact Nat.mul_le_mul_right _ (le_nearest_surplus h)

/-- A greater number has no fewer digits to lose. -/
theorem surplus_mono {m n : Nat} (h : m ≤ n) : surplus m ≤ surplus n := by
  unfold surplus
  rcases Nat.eq_zero_or_pos m with rfl | hm
  · simp
  · have : m.log2 ≤ n.log2 :=
      (Nat.le_log2 (by omega)).2 ((Nat.log2_self_le hm.ne').trans h)
    omega

/-- Rounding a magnitude keeps the order, also where the number of digits
changes. -/
theorem roundMagnitude_mono {m n : Nat} (h : m ≤ n) :
    roundMagnitude m ≤ roundMagnitude n := by
  rcases (surplus_mono h).eq_or_lt with hs | hs
  · unfold roundMagnitude
    rw [hs]
    exact Nat.mul_le_mul_right _ (nearest_mono h _)
  · calc roundMagnitude m ≤ 2 ^ (53 + surplus m) := roundMagnitude_le m
      _ ≤ 2 ^ (52 + surplus n) := Nat.pow_le_pow_right (by decide) (by omega)
      _ ≤ roundMagnitude n := le_roundMagnitude (by omega)

/-- Rounding keeps the order of numbers. -/
theorem roundUnits_mono {x y : Int} (h : x ≤ y) :
    roundUnits x ≤ roundUnits y := by
  cases x with
  | ofNat m =>
      cases y with
      | ofNat n =>
          have := roundMagnitude_mono (m := m) (n := n) (by simpa using h)
          show (roundMagnitude m : Int) ≤ roundMagnitude n
          omega
      | negSucc n =>
          exact absurd h (by simp only [Int.ofNat_eq_natCast, not_le]; omega)
  | negSucc m =>
      cases y with
      | ofNat n =>
          show -(roundMagnitude (m + 1) : Int) ≤ roundMagnitude n
          omega
      | negSucc n =>
          have := roundMagnitude_mono (m := n + 1) (n := m + 1) (by omega)
          show -(roundMagnitude (m + 1) : Int) ≤ -(roundMagnitude (n + 1) : Int)
          omega

theorem roundUnits_neg_natCast (n : Nat) :
    roundUnits (-(n : Int)) = -(roundMagnitude n : Int) := by
  cases n with
  | zero => rfl
  | succ n => rfl

-- ======================================================= residual bits

/-- What a significand shifted right by `k` bits still knows of the number
`n` it came from: the quotient, whether the rest is at least half, and
whether it is neither nothing nor exactly half. -/
structure Remembers (em : ExtendedMantissa) (n k : Nat) : Prop where
  quotient : em.mantissa = n / 2 ^ k
  half : em.roundBit = true ↔ 2 ^ k ≤ 2 * (n % 2 ^ k)
  uneven : em.stickyBit = true ↔ n % 2 ^ k ≠ 0 ∧ 2 * (n % 2 ^ k) ≠ 2 ^ k

/-- A mantissa from which nothing was shifted out remembers everything. -/
theorem remembers_exact (n : Nat) : Remembers ⟨n, false, false⟩ n 0 where
  quotient := by simp
  half := by simp [Nat.mod_one]
  uneven := by simp [Nat.mod_one]

/-- One more bit shifted out: it becomes the round bit, and the old
residual bits are lumped together. -/
theorem Remembers.shiftRightOne {em : ExtendedMantissa} {n k : Nat}
    (h : Remembers em n k) : Remembers em.shiftRightOne n (k + 1) := by
  have hpow : 2 ^ (k + 1) = 2 * 2 ^ k := Nat.pow_succ'
  have hrest : n % 2 ^ (k + 1) = n % 2 ^ k + 2 ^ k * (n / 2 ^ k % 2) :=
    Nat.mod_pow_succ
  have hlt : n % 2 ^ k < 2 ^ k := Nat.mod_lt _ (Nat.two_pow_pos k)
  have hbit : n / 2 ^ k % 2 = 0 ∨ n / 2 ^ k % 2 = 1 := by omega
  refine ⟨?_, ?_, ?_⟩
  · show em.mantissa / 2 = _
    rw [h.quotient, Nat.div_div_eq_div_mul, Nat.pow_succ]
  · show (em.mantissa % 2 != 0) = true ↔ _
    rw [h.quotient, hrest, hpow]
    rcases hbit with hb | hb
    · rw [hb, Nat.mul_zero]
      simp only [bne_self_eq_false, Bool.false_eq_true, false_iff]
      omega
    · rw [hb, Nat.mul_one]
      simp only [bne_iff_ne, ne_eq, one_ne_zero, not_false_eq_true, true_iff]
      omega
  · show (em.roundBit || em.stickyBit) = true ↔ _
    rw [Bool.or_eq_true, h.half, h.uneven, hrest, hpow]
    rcases hbit with hb | hb
    · rw [hb, Nat.mul_zero]; omega
    · rw [hb, Nat.mul_one]; omega

/-- What is shifted out is remembered as far as rounding needs it. -/
theorem Remembers.shiftRight {em : ExtendedMantissa} {n k : Nat}
    (h : Remembers em n k) (j : Nat) : Remembers (em >>> j) n (k + j) := by
  show Remembers (j.repeat ExtendedMantissa.shiftRightOne em) n (k + j)
  induction j with
  | zero => exact h
  | succ j ih => exact ih.shiftRightOne

/-- The residual bits carry all that rounding to the nearest asks for. -/
theorem Remembers.rounded {em : ExtendedMantissa} {n k : Nat}
    (h : Remembers em n k) :
    em.roundedMantissa = nearest n k := by
  obtain ⟨hq, hh, hu⟩ := h
  obtain ⟨m, r, t⟩ := em
  simp only at hq hh hu
  subst hq
  unfold nearest
  cases r with
  | false =>
      have hlow : 2 * (n % 2 ^ k) < 2 ^ k := by
        by_contra hc
        exact absurd (hh.2 (by omega)) (by decide)
      rw [if_pos hlow]
      cases t <;> rfl
  | true =>
      have hhigh := hh.1 rfl
      rw [if_neg (by omega)]
      cases t with
      | false =>
          have heven : ¬(n % 2 ^ k ≠ 0 ∧ 2 * (n % 2 ^ k) ≠ 2 ^ k) := fun hc =>
            absurd (hu.2 hc) (by decide)
          have := Nat.two_pow_pos k
          rw [if_neg (by omega)]
          rfl
      | true =>
          have := (hu.1 rfl).2
          rw [if_pos (by omega)]
          rfl

/-- An exact significand, shifted and rounded. -/
theorem roundedMantissa_shift (n k : Nat) :
    (ExtendedMantissa.ofMantissaAndAccuracy n .exact >>> k).roundedMantissa
      = nearest n k := by
  have h := ((remembers_exact n).shiftRight k).rounded
  rwa [Nat.zero_add] at h

end FlowPricing.Weight
