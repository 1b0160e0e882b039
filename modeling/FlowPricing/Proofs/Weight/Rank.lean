/-
The total order of weights refines comparison: of two numbers of which one
is less, that one has the lower rank (`rank_lt_of_lt`). Read as a number,
the bits of a magnitude are its exponent over its significand, which is
just how canonical magnitudes compare.

No two weights share a rank (`eq_of_rank_eq`), so a number is known by its
decoded form, and there are only two infinities (`isInf_iff`).
-/
import FlowPricing.Proofs.Weight.Units

namespace FlowPricing.Weight

open Float.Model (Format UnpackedFloat)
open Float.Model.UnpackedFloat

-- ================================================================ place

/-- The place of a magnitude under a sign: upwards from zero, or downwards
from minus one. -/
def signed : Sign → Nat → Int
  | .positive, n => n
  | .negative, n => -1 - (n : Int)

/-- The sign of a decoded weight. -/
def signOf : UnpackedFloat → Sign
  | .notANumber => .positive
  | .infinity s => s
  | .zero s => s
  | .finite s _ _ _ => s

/-- A magnitude in units of the smallest weight. -/
def magnitude : UnpackedFloat → Nat
  | .notANumber => 0
  | .infinity _ => 2 ^ 53 * 2 ^ topExponent
  | .zero _ => 0
  | .finite _ m e _ => m * 2 ^ (e + 1074).toNat

/-- A magnitude's bits as a number. -/
def digits : UnpackedFloat → Nat
  | .notANumber => 0
  | .infinity _ => 2047 * 2 ^ 52
  | .zero _ => 0
  | .finite _ m e _ => (e + 1074).toNat * 2 ^ 52 + m

/-- The rank of a decoded weight. -/
def place (u : UnpackedFloat) : Int := signed (signOf u) (digits u)

/-- The rank of a bit pattern. -/
def rankOfBits (bits : Nat) : Int :=
  if bits < 0x8000000000000000 then bits else 0x7FFFFFFFFFFFFFFF - (bits : Int)

/-- A bit pattern is its sign bit, its exponent and its significand. -/
theorem toNat_components (b : BitVec Format.binary64.numBits) :
    b.toNat = (unpackSign b).toNat * 2 ^ 63
      + ((unpackExponent b).toNat * 2 ^ 52 + (unpackMantissa b).toNat) := by
  have hs : (unpackSign b).toNat = b.toNat / 2 ^ 63 % 2 := by
    simp [unpackSign, BitVec.extractLsb, Nat.shiftRight_eq_div_pow]
  have he : (unpackExponent b).toNat = b.toNat / 2 ^ 52 % 2 ^ 11 := by
    simp [unpackExponent, BitVec.extractLsb, Nat.shiftRight_eq_div_pow]
  have hm : (unpackMantissa b).toNat = b.toNat % 2 ^ 52 := by
    simp [unpackMantissa, BitVec.extractLsb]
  have hlt : b.toNat < 2 ^ 64 := b.isLt
  rw [hs, he, hm]
  omega

/-- The sign bit decides the direction. -/
theorem rankOfBits_components (s : BitVec 1) {n : Nat} (hn : n < 2 ^ 63) :
    rankOfBits (s.toNat * 2 ^ 63 + n) = signed (Sign.ofBitVec s) n := by
  have hs : s = 0#1 ∨ s = 1#1 := by
    have := s.isLt
    rcases Nat.lt_or_ge s.toNat 1 with h | h
    · exact .inl (BitVec.eq_of_toNat_eq (by simp; omega))
    · exact .inr (BitVec.eq_of_toNat_eq (by simp; omega))
  unfold rankOfBits
  rcases hs with rfl | rfl
  · rw [if_pos (by simp; omega)]
    simp [Sign.ofBitVec, signed]
  · rw [if_neg (by simp)]
    simp [Sign.ofBitVec, signed]
    omega

/-- The rank of bits is the place of the number they stand for. -/
theorem rankOfBits_eq_place (b : BitVec Format.binary64.numBits)
    (hn : IsNumber (unpack Format.binary64 b)) :
    rankOfBits b.toNat = place (unpack Format.binary64 b) := by
  have hm : (unpackMantissa b).toNat < 2 ^ 52 := (unpackMantissa b).isLt
  have he : (unpackExponent b).toNat < 2 ^ 11 := (unpackExponent b).isLt
  rw [toNat_components, rankOfBits_components _ (by omega)]
  revert hn
  unfold unpack
  simp only
  split
  · next hmax =>
      have hexp : (unpackExponent b).toNat = 2047 := by rw [hmax]; rfl
      split
      · next hzero =>
          have hman : (unpackMantissa b).toNat = 0 := by rw [hzero]; rfl
          intro _
          rw [hexp, hman]
          rfl
      · intro hn
        exact hn.elim
  · split
    · next hmin =>
        have hexp : (unpackExponent b).toNat = 0 := by rw [hmin]; rfl
        split
        · next hzero =>
            have hman : (unpackMantissa b).toNat = 0 := by rw [hzero]; rfl
            intro _
            rw [hexp, hman]
            rfl
        · intro _
          simp only [place, signOf, digits, hexp, Format.exponentBias]
          norm_num
    · next hpos =>
        have h0 : (unpackExponent b).toNat ≠ 0 := fun h =>
          hpos (BitVec.eq_of_toNat_eq h)
        have hlead := leadingBit_toNat (unpackMantissa b)
        intro _
        simp only [place, signOf, digits, hlead, Format.exponentBias]
        norm_num
        refine congrArg (signed _) ?_
        omega

/-- The rank of a number is the place of its decoded form. -/
theorem rank_eq_place {x : Float} (hx : x.isNaN = false) :
    rank x = place (decoded x) :=
  rankOfBits_eq_place x.toModel.toBits.toBitVec ((isNaN_eq_false_iff x).1 hx)

-- ================================================================ order

theorem unitsOf_eq (u : UnpackedFloat) :
    unitsOf u = (signOf u).apply (magnitude u) := by
  cases u <;> first | rfl | (rename_i s; cases s <;> rfl)

/-- Finite magnitudes have lower digits the smaller they are. -/
theorem digits_lt_of_finite {m₁ m₂ : Nat} {e₁ e₂ : Int}
    (h₁ : m₁ < 2 ^ 53 ∧ -1074 ≤ e₁ ∧ e₁ ≤ 971 ∧ (2 ^ 52 ≤ m₁ ∨ e₁ = -1074))
    (h₂ : m₂ < 2 ^ 53 ∧ -1074 ≤ e₂ ∧ e₂ ≤ 971 ∧ (2 ^ 52 ≤ m₂ ∨ e₂ = -1074))
    (h : m₁ * 2 ^ (e₁ + 1074).toNat < m₂ * 2 ^ (e₂ + 1074).toNat) :
    (e₁ + 1074).toNat * 2 ^ 52 + m₁ < (e₂ + 1074).toNat * 2 ^ 52 + m₂ := by
  rcases lt_trichotomy e₁ e₂ with he | rfl | he
  · omega
  · have := Nat.lt_of_mul_lt_mul_right h
    omega
  · have hback : m₂ * 2 ^ (e₂ + 1074).toNat < m₁ * 2 ^ (e₁ + 1074).toNat :=
      units_lt_of_exponent_lt h₂.1 (by omega) (by omega)
    omega

/-- Finite magnitudes stay short of the infinities. -/
theorem magnitude_lt {u : UnpackedFloat} (hu : Canonical u) (hf : IsFinite u) :
    magnitude u < 2 ^ 53 * 2 ^ topExponent := by
  have hb := unitsOf_bounds hu hf
  rw [unitsOf_eq] at hb
  have hbeyond : beyond = (2 ^ 53 * 2 ^ topExponent : Nat) := rfl
  rw [hbeyond] at hb
  generalize 2 ^ 53 * 2 ^ topExponent = b at hb ⊢
  generalize magnitude u = n at hb ⊢
  generalize signOf u = s at hb
  cases s with
  | negative =>
      have h : -(b : Int) < -(n : Int) := hb.1
      omega
  | positive =>
      have h : (n : Int) < b := hb.2
      omega

/-- Smaller magnitudes have lower digits. -/
theorem digits_lt {u v : UnpackedFloat} (hu : Canonical u) (hv : Canonical v)
    (hun : IsNumber u) (hvn : IsNumber v) (h : magnitude u < magnitude v) :
    digits u < digits v := by
  cases v with
  | notANumber => exact hvn.elim
  | zero s₂ => exact absurd h (Nat.not_lt_zero _)
  | infinity s₂ =>
      cases u with
      | notANumber => exact hun.elim
      | infinity s₁ => exact absurd h (Nat.lt_irrefl _)
      | zero s₁ => show 0 < 2047 * 2 ^ 52; omega
      | finite s₁ m₁ e₁ p₁ =>
          obtain ⟨hm, hlo, hhi, -⟩ := hu
          show (e₁ + 1074).toNat * 2 ^ 52 + m₁ < 2047 * 2 ^ 52
          omega
  | finite s₂ m₂ e₂ p₂ =>
      cases u with
      | notANumber => exact hun.elim
      | infinity s₁ => exact absurd h (Nat.lt_asymm (magnitude_lt hv trivial))
      | zero s₁ => show 0 < (e₂ + 1074).toNat * 2 ^ 52 + m₂; omega
      | finite s₁ m₁ e₁ p₁ => exact digits_lt_of_finite hu hv h

/-- Of two numbers in order, the smaller has the lower place. -/
theorem place_lt {u v : UnpackedFloat} (hu : Canonical u) (hv : Canonical v)
    (hun : IsNumber u) (hvn : IsNumber v) (h : unitsOf u < unitsOf v) :
    place u < place v := by
  have hup := digits_lt hu hv hun hvn
  have hdown := digits_lt hv hu hvn hun
  rw [unitsOf_eq, unitsOf_eq] at h
  unfold place
  generalize magnitude u = n₁ at h hup hdown
  generalize magnitude v = n₂ at h hup hdown
  generalize digits u = d₁ at hup hdown ⊢
  generalize digits v = d₂ at hup hdown ⊢
  generalize signOf u = s₁ at h ⊢
  generalize signOf v = s₂ at h ⊢
  cases s₁ with
  | negative =>
      cases s₂ with
      | negative =>
          have h' : -(n₁ : Int) < -(n₂ : Int) := h
          have := hdown (by omega)
          show -1 - (d₁ : Int) < -1 - (d₂ : Int)
          omega
      | positive =>
          show -1 - (d₁ : Int) < (d₂ : Int)
          omega
  | positive =>
      cases s₂ with
      | negative =>
          have h' : (n₁ : Int) < -(n₂ : Int) := h
          omega
      | positive =>
          have h' : (n₁ : Int) < (n₂ : Int) := h
          have := hup (by omega)
          show (d₁ : Int) < (d₂ : Int)
          omega

/-- Of two numbers in order, the smaller has the lower rank. -/
theorem rank_lt_of_lt {x y : Float} (h : x < y) : rank x < rank y := by
  obtain ⟨hx, hy, hu⟩ := (lt_iff x y).1 h
  rw [rank_eq_place hx, rank_eq_place hy]
  exact place_lt (canonical_decoded x) (canonical_decoded y)
    ((isNaN_eq_false_iff x).1 hx) ((isNaN_eq_false_iff y).1 hy) hu

-- ============================================================ identity

/-- Every bit pattern has a rank of its own. -/
theorem eq_of_rank_eq {x y : Float} (h : rank x = rank y) : x = y := by
  have hx : x.toBits.toNat < 2 ^ 64 := x.toBits.toNat_lt
  have hy : y.toBits.toNat < 2 ^ 64 := y.toBits.toNat_lt
  unfold rank at h
  simp only at h
  have hbits : x.toBits = y.toBits := by
    apply UInt64.toNat.inj
    split at h <;> split at h <;> omega
  cases x with
  | ofModel x =>
      cases y with
      | ofModel y =>
          cases x
          cases y
          cases hbits
          rfl

/-- A number is known by its decoded form. -/
theorem eq_of_decoded_eq {x y : Float} (hx : x.isNaN = false)
    (h : decoded x = decoded y) :
    x = y := by
  have hy : y.isNaN = false := by
    rw [isNaN_eq_false_iff, ← h]
    exact (isNaN_eq_false_iff x).1 hx
  apply eq_of_rank_eq
  rw [rank_eq_place hx, rank_eq_place hy, h]

theorem decoded_neg_infinity : decoded (-infinity) = .infinity .negative := rfl

theorem infinity_ne_neg : infinity ≠ -infinity := by decide

/-- There is one infinity of either sign. -/
theorem isInf_iff (x : Float) :
    x.isInf = true ↔ x = infinity ∨ x = -infinity := by
  constructor
  · intro h
    have hdecoded : (decoded x).isInf = true := h
    cases hx : decoded x with
    | infinity s =>
        have hnumber : x.isNaN = false := by
          rw [isNaN_eq_false_iff, hx]
          trivial
        cases s with
        | positive =>
            exact .inl (eq_of_decoded_eq hnumber
              (hx.trans decoded_infinity.symm))
        | negative =>
            exact .inr (eq_of_decoded_eq hnumber
              (hx.trans decoded_neg_infinity.symm))
    | notANumber => rw [hx] at hdecoded; cases hdecoded
    | zero s => rw [hx] at hdecoded; cases hdecoded
    | finite s m e p => rw [hx] at hdecoded; cases hdecoded
  · intro h
    rcases h with rfl | rfl
    · exact isInf_infinity
    · show (decoded (-infinity)).isInf = true
      rw [decoded_neg_infinity]
      rfl

end FlowPricing.Weight
