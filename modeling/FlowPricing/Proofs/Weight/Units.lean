/-
Weights as whole numbers. Every finite weight is a whole multiple of the
smallest positive one, so its place among the others is an integer
(`units`), with the two infinities beyond all of them. Comparison of
weights is comparison of these integers (`lt_iff`, `le_iff`): apart from
not-a-number, which compares with nothing, weights are totally ordered,
negative zero beside zero.

The decoded form of a weight is `Canonical`: the significand fills its 53
bits, or the exponent is the least there is. Two canonical magnitudes
compare like their exponents and, where those agree, like their
significands, which is what the comparison of weights goes by.
-/
import FlowPricing.Weight
import Mathlib

namespace FlowPricing.Weight

open Float.Model (Format UnpackedFloat)
open Float.Model.UnpackedFloat

-- ============================================================ decoding

/-- What decoding a weight guarantees of a finite one. -/
def Canonical : UnpackedFloat → Prop
  | .finite _ m e _ =>
    m < 2 ^ 53 ∧ -1074 ≤ e ∧ e ≤ 971 ∧ (2 ^ 52 ≤ m ∨ e = -1074)
  | _ => True

/-- The decoded form of a weight. -/
def decoded (x : Float) : UnpackedFloat := x.toModel.unpack

/-- The implicit leading bit of a normal weight. -/
theorem leadingBit_toNat (m : BitVec 52) :
    (1#1 ++ m).toNat = 2 ^ 52 + m.toNat := by
  rw [BitVec.toNat_append, ← Nat.shiftLeft_add_eq_or_of_lt m.isLt]
  rfl

/-- Unpacking bits gives a number in its only form. -/
theorem canonical_unpack (b : BitVec Format.binary64.numBits) :
    Canonical (unpack Format.binary64 b) := by
  have hm : (unpackMantissa b).toNat < 2 ^ 52 := (unpackMantissa b).isLt
  have he : (unpackExponent b).toNat < 2 ^ 11 := (unpackExponent b).isLt
  unfold unpack
  simp only
  split
  · split <;> trivial
  · next hmax =>
      have hne : (unpackExponent b).toNat ≠ 2047 := fun h =>
        hmax (BitVec.eq_of_toNat_eq h)
      split
      · next hzero =>
          split
          · trivial
          · -- a subnormal weight
            have h0 : (unpackExponent b).toNat = 0 := by rw [hzero]; rfl
            refine ⟨?_, ?_, ?_, ?_⟩
            · omega
            · simp only [h0, Format.exponentBias]; norm_num
            · simp only [h0, Format.exponentBias]; norm_num
            · simp only [h0, Format.exponentBias]; norm_num
      · next hpos =>
          have h0 : (unpackExponent b).toNat ≠ 0 := fun h =>
            hpos (BitVec.eq_of_toNat_eq h)
          have hlead : (1#1 ++ unpackMantissa b).toNat
              = 2 ^ 52 + (unpackMantissa b).toNat := leadingBit_toNat _
          refine ⟨?_, ?_, ?_, ?_⟩
          · rw [hlead]; omega
          · simp only [Format.exponentBias]; norm_num; omega
          · simp only [Format.exponentBias]; norm_num; omega
          · rw [hlead]; omega

/-- The decoded form of a weight is canonical. -/
theorem canonical_decoded (x : Float) : Canonical (decoded x) :=
  canonical_unpack _

-- =============================================================== units

/-- The largest exponent of a finite weight, counted from the least. -/
def topExponent : Nat := 2045

/-- Where the infinities stand: beyond every finite weight. -/
def beyond : Int := (2 ^ 53 * 2 ^ topExponent : Nat)

theorem beyond_pos : 0 < beyond := by
  unfold beyond
  exact Int.natCast_pos.2
    (Nat.mul_pos (Nat.two_pow_pos 53) (Nat.two_pow_pos topExponent))

/-- A decoded weight as a multiple of the smallest positive one. -/
def unitsOf : UnpackedFloat → Int
  | .infinity s => s.apply beyond
  | .notANumber => 0
  | .zero _ => 0
  | .finite s m e _ => s.apply ((m * 2 ^ (e + 1074).toNat : Nat) : Int)

/-- A weight as a multiple of the smallest positive one. -/
def units (x : Float) : Int := unitsOf (decoded x)

/-- A finite magnitude is positive and short of the infinities. -/
theorem magnitude_bounds {m : Nat} {e : Int} (hpos : 0 < m) (hm : m < 2 ^ 53)
    (he : e ≤ 971) :
    (0 : Int) < (m * 2 ^ (e + 1074).toNat : Nat)
      ∧ ((m * 2 ^ (e + 1074).toNat : Nat) : Int) < beyond := by
  have hk : (e + 1074).toNat ≤ topExponent := by unfold topExponent; omega
  have hlt : m * 2 ^ (e + 1074).toNat < 2 ^ 53 * 2 ^ topExponent :=
    Nat.mul_lt_mul_of_lt_of_le hm (Nat.pow_le_pow_right (by decide) hk)
      (Nat.two_pow_pos _)
  exact ⟨Int.natCast_pos.2 (Nat.mul_pos hpos (Nat.two_pow_pos _)),
    Int.ofNat_lt.2 hlt⟩

/-- Of two numbers, the one with the greater exponent is greater, if its
leading bit is set. -/
theorem units_lt_of_exponent_lt {m₁ m₂ k₁ k₂ : Nat} (h₁ : m₁ < 2 ^ 53)
    (h₂ : 2 ^ 52 ≤ m₂) (hk : k₁ < k₂) : m₁ * 2 ^ k₁ < m₂ * 2 ^ k₂ := by
  calc m₁ * 2 ^ k₁ < 2 ^ 53 * 2 ^ k₁ :=
    Nat.mul_lt_mul_of_pos_right h₁ (Nat.two_pow_pos _)
    _ = 2 ^ 52 * 2 ^ (k₁ + 1) := by ring
    _ ≤ m₂ * 2 ^ k₂ := Nat.mul_le_mul h₂ (Nat.pow_le_pow_right (by decide) hk)

/-- Canonical magnitudes compare like exponents and then significands. -/
theorem magnitude_compare {m₁ m₂ : Nat} {e₁ e₂ : Int}
    (h₁ : m₁ < 2 ^ 53 ∧ -1074 ≤ e₁ ∧ e₁ ≤ 971 ∧ (2 ^ 52 ≤ m₁ ∨ e₁ = -1074))
    (h₂ : m₂ < 2 ^ 53 ∧ -1074 ≤ e₂ ∧ e₂ ≤ 971 ∧ (2 ^ 52 ≤ m₂ ∨ e₂ = -1074)) :
    (compare e₁ e₂).then (compare m₁ m₂)
      = compare (m₁ * 2 ^ (e₁ + 1074).toNat) (m₂ * 2 ^ (e₂ + 1074).toNat) := by
  rcases lt_trichotomy e₁ e₂ with he | rfl | he
  · rw [compare_lt_iff_lt.2 he, compare_lt_iff_lt.2
      (units_lt_of_exponent_lt h₁.1 (by omega) (by omega))]
    rfl
  · have hp : 0 < 2 ^ (e₁ + 1074).toNat := Nat.two_pow_pos _
    rw [compare_eq_iff_eq.2 rfl]
    show compare m₁ m₂ = _
    rcases lt_trichotomy m₁ m₂ with hm | rfl | hm
    · rw [compare_lt_iff_lt.2 hm,
        compare_lt_iff_lt.2 (Nat.mul_lt_mul_of_pos_right hm hp)]
    · rw [compare_eq_iff_eq.2 rfl, compare_eq_iff_eq.2 rfl]
    · rw [compare_gt_iff_gt.2 hm,
        compare_gt_iff_gt.2 (Nat.mul_lt_mul_of_pos_right hm hp)]
  · rw [compare_gt_iff_gt.2 he, compare_gt_iff_gt.2
      (units_lt_of_exponent_lt h₂.1 (by omega) (by omega))]
    rfl

/-- Whether a decoded weight is a number at all. -/
def IsNumber : UnpackedFloat → Prop
  | .notANumber => False
  | _ => True

/-- Finite numbers compare like their units: with equal signs the
magnitudes decide, in the one direction or the other. -/
theorem compare_finite {s₁ s₂ : Sign} {m₁ m₂ : Nat} {e₁ e₂ : Int} {p₁ : 0 < m₁}
    {p₂ : 0 < m₂} (h₁ : Canonical (.finite s₁ m₁ e₁ p₁))
    (h₂ : Canonical (.finite s₂ m₂ e₂ p₂)) :
    (UnpackedFloat.finite s₁ m₁ e₁ p₁).compare (.finite s₂ m₂ e₂ p₂)
      = some (compare (unitsOf (.finite s₁ m₁ e₁ p₁))
        (unitsOf (.finite s₂ m₂ e₂ p₂))) := by
  have hc := magnitude_compare h₁ h₂
  have b₁ := magnitude_bounds p₁ h₁.1 h₁.2.2.1
  have b₂ := magnitude_bounds p₂ h₂.1 h₂.2.2.1
  simp only [unitsOf]
  generalize m₁ * 2 ^ (e₁ + 1074).toNat = n₁ at hc b₁ ⊢
  generalize m₂ * 2 ^ (e₂ + 1074).toNat = n₂ at hc b₂ ⊢
  cases s₁ with
  | negative =>
      cases s₂ with
      | negative =>
          show some ((compare e₁ e₂).then (compare m₁ m₂)).swap
            = some (compare (-(n₁ : Int)) (-(n₂ : Int)))
          rw [hc]
          rcases lt_trichotomy n₁ n₂ with h | rfl | h
          · rw [compare_lt_iff_lt.2 h, compare_gt_iff_gt.2 (by omega)]; rfl
          · rw [compare_eq_iff_eq.2 rfl, compare_eq_iff_eq.2 rfl]; rfl
          · rw [compare_gt_iff_gt.2 h, compare_lt_iff_lt.2 (by omega)]; rfl
      | positive =>
          show some Ordering.lt = some (compare (-(n₁ : Int)) (n₂ : Int))
          rw [compare_lt_iff_lt.2 (by omega)]
  | positive =>
      cases s₂ with
      | negative =>
          show some Ordering.gt = some (compare (n₁ : Int) (-(n₂ : Int)))
          rw [compare_gt_iff_gt.2 (by omega)]
      | positive =>
          show some ((compare e₁ e₂).then (compare m₁ m₂))
            = some (compare (n₁ : Int) n₂)
          rw [hc]
          rcases lt_trichotomy n₁ n₂ with h | rfl | h
          · rw [compare_lt_iff_lt.2 h, compare_lt_iff_lt.2 (by omega)]
          · rw [compare_eq_iff_eq.2 rfl, compare_eq_iff_eq.2 rfl]
          · rw [compare_gt_iff_gt.2 h, compare_gt_iff_gt.2 (by omega)]

/-- Whether a decoded weight is a zero or a finite weight. -/
def IsFinite : UnpackedFloat → Prop
  | .zero _ => True
  | .finite .. => True
  | _ => False

/-- Finite weights stay short of the infinities. -/
theorem unitsOf_bounds {u : UnpackedFloat} (hu : Canonical u)
    (hf : IsFinite u) :
    -beyond < unitsOf u ∧ unitsOf u < beyond := by
  have hb := beyond_pos
  cases u with
  | notANumber => exact hf.elim
  | infinity s => exact hf.elim
  | zero s => exact ⟨neg_lt_zero.2 hb, hb⟩
  | finite s m e p =>
      have h := magnitude_bounds p hu.1 hu.2.2.1
      simp only [unitsOf]
      generalize m * 2 ^ (e + 1074).toNat = n at h ⊢
      cases s with
      | negative => show -beyond < -(n : Int) ∧ -(n : Int) < beyond; omega
      | positive => show -beyond < (n : Int) ∧ (n : Int) < beyond; omega

/-- An infinity is beyond every finite weight. -/
theorem compare_infinity_left {s : Sign} {v : UnpackedFloat} (hv : Canonical v)
    (hf : IsFinite v) :
    (UnpackedFloat.infinity s).compare v
      = some (compare (unitsOf (.infinity s)) (unitsOf v)) := by
  obtain ⟨hlo, hhi⟩ := unitsOf_bounds hv hf
  cases s with
  | negative =>
      rw [show unitsOf (.infinity .negative) = -beyond from rfl,
        compare_lt_iff_lt.2 hlo]
      cases v <;> first | rfl | exact hf.elim
  | positive =>
      rw [show unitsOf (.infinity .positive) = beyond from rfl,
        compare_gt_iff_gt.2 hhi]
      cases v <;> first | rfl | exact hf.elim

/-- An infinity is beyond every finite weight, seen from the other side. -/
theorem compare_infinity_right {s : Sign} {u : UnpackedFloat} (hu : Canonical u)
    (hf : IsFinite u) :
    u.compare (.infinity s)
      = some (compare (unitsOf u) (unitsOf (.infinity s))) := by
  obtain ⟨hlo, hhi⟩ := unitsOf_bounds hu hf
  cases s with
  | negative =>
      rw [show unitsOf (.infinity .negative) = -beyond from rfl,
        compare_gt_iff_gt.2 hlo]
      cases u <;> first | rfl | exact hf.elim
  | positive =>
      rw [show unitsOf (.infinity .positive) = beyond from rfl,
        compare_lt_iff_lt.2 hhi]
      cases u <;> first | rfl | exact hf.elim

/-- Numbers compare like their units. -/
theorem compare_eq_units {u v : UnpackedFloat} (hu : Canonical u)
    (hv : Canonical v) (hun : IsNumber u) (hvn : IsNumber v) :
    u.compare v = some (compare (unitsOf u) (unitsOf v)) := by
  have hb : -beyond < beyond := neg_lt_self beyond_pos
  cases u with
  | notANumber => exact hun.elim
  | infinity s₁ =>
      cases v with
      | notANumber => exact hvn.elim
      | infinity s₂ =>
          cases s₁ with
          | negative =>
              cases s₂ with
              | negative => exact congrArg some (compare_eq_iff_eq.2 rfl).symm
              | positive => exact congrArg some (compare_lt_iff_lt.2 hb).symm
          | positive =>
              cases s₂ with
              | negative => exact congrArg some (compare_gt_iff_gt.2 hb).symm
              | positive => exact congrArg some (compare_eq_iff_eq.2 rfl).symm
      | zero s₂ => exact compare_infinity_left hv trivial
      | finite s₂ m₂ e₂ p₂ => exact compare_infinity_left hv trivial
  | zero s₁ =>
      cases v with
      | notANumber => exact hvn.elim
      | infinity s₂ => exact compare_infinity_right hu trivial
      | zero s₂ => rfl
      | finite s₂ m₂ e₂ p₂ =>
          have h := (magnitude_bounds p₂ hv.1 hv.2.2.1).1
          cases s₂ with
          | negative =>
              exact congrArg some (compare_gt_iff_gt.2 (neg_lt_zero.2 h)).symm
          | positive => exact congrArg some (compare_lt_iff_lt.2 h).symm
  | finite s₁ m₁ e₁ p₁ =>
      cases v with
      | notANumber => exact hvn.elim
      | infinity s₂ => exact compare_infinity_right hu trivial
      | zero s₂ =>
          have h := (magnitude_bounds p₁ hu.1 hu.2.2.1).1
          cases s₁ with
          | negative =>
              exact congrArg some (compare_lt_iff_lt.2 (neg_lt_zero.2 h)).symm
          | positive => exact congrArg some (compare_gt_iff_gt.2 h).symm
      | finite s₂ m₂ e₂ p₂ => exact compare_finite hu hv

-- ========================================================== comparison

/-- A weight is a number unless its decoded form is none. -/
theorem isNaN_eq_false_iff (x : Float) :
    x.isNaN = false ↔ IsNumber (decoded x) := by
  show (decoded x).isNaN = false ↔ _
  cases decoded x <;> simp [UnpackedFloat.isNaN, IsNumber]

theorem isFinite_iff (x : Float) :
    x.isFinite = true ↔ IsFinite (decoded x) := by
  show (decoded x).isFinite = true ↔ _
  cases decoded x <;> simp [UnpackedFloat.isFinite, IsFinite]

/-- A finite weight is a number. -/
theorem isNaN_of_isFinite {x : Float} (h : x.isFinite = true) :
    x.isNaN = false := by
  rw [isFinite_iff] at h
  rw [isNaN_eq_false_iff]
  revert h
  cases decoded x <;> simp [IsFinite, IsNumber]

/-- What is not a number compares with nothing. -/
theorem compare_eq_none {u v : UnpackedFloat} (h : ¬(IsNumber u ∧ IsNumber v)) :
    u.compare v = none := by
  cases u with
  | notANumber => rfl
  | infinity s => cases v <;> first | rfl | exact absurd ⟨trivial, trivial⟩ h
  | zero s => cases v <;> first | rfl | exact absurd ⟨trivial, trivial⟩ h
  | finite s m e p =>
      cases v <;> first | rfl | exact absurd ⟨trivial, trivial⟩ h

/-- Comparison answers "less" exactly for two numbers in this order. -/
theorem lt_iff (x y : Float) :
    x < y ↔ x.isNaN = false ∧ y.isNaN = false ∧ units x < units y := by
  rw [isNaN_eq_false_iff, isNaN_eq_false_iff, ← and_assoc]
  have hxy : x < y ↔ (decoded x).compare (decoded y) = some .lt := by
    show decide (x.toModel < y.toModel) = true ↔ _
    rw [decide_eq_true_iff]
    show ((decoded x).compare (decoded y) == some .lt) = true ↔ _
    rw [beq_iff_eq]
  rw [hxy]
  by_cases h : IsNumber (decoded x) ∧ IsNumber (decoded y)
  · rw [compare_eq_units (canonical_decoded x) (canonical_decoded y) h.1 h.2,
      Option.some_inj, compare_lt_iff_lt]
    exact (and_iff_right h).symm
  · rw [compare_eq_none h]
    exact ⟨nofun, fun hn => absurd hn.1 h⟩

/-- Comparison answers "at most" exactly for two numbers in this order. -/
theorem le_iff (x y : Float) :
    x ≤ y ↔ x.isNaN = false ∧ y.isNaN = false ∧ units x ≤ units y := by
  rw [isNaN_eq_false_iff, isNaN_eq_false_iff, ← and_assoc]
  have hxy : x ≤ y ↔ ((decoded x).compare (decoded y)).any (·.isLE) = true := by
    show decide (x.toModel ≤ y.toModel) = true ↔ _
    rw [decide_eq_true_iff]
    exact Iff.rfl
  rw [hxy]
  by_cases h : IsNumber (decoded x) ∧ IsNumber (decoded y)
  · rw [compare_eq_units (canonical_decoded x) (canonical_decoded y) h.1 h.2]
    show (compare (units x) (units y)).isLE = true ↔ _
    rw [Ordering.isLE_iff_ne_gt, compare_gt_iff_gt, not_lt]
    exact (and_iff_right h).symm
  · rw [compare_eq_none h]
    exact ⟨nofun, fun hn => absurd hn.1 h⟩

/-- Comparison answers "equal" exactly for two numbers of the same value. -/
theorem beq_iff (x y : Float) :
    (x == y) = true ↔ x.isNaN = false ∧ y.isNaN = false
      ∧ units x = units y := by
  rw [isNaN_eq_false_iff, isNaN_eq_false_iff, ← and_assoc]
  have hxy : (x == y) = true ↔ (decoded x).compare (decoded y) = some .eq := by
    show ((decoded x).compare (decoded y) == some .eq) = true ↔ _
    rw [beq_iff_eq]
  rw [hxy]
  by_cases h : IsNumber (decoded x) ∧ IsNumber (decoded y)
  · rw [compare_eq_units (canonical_decoded x) (canonical_decoded y) h.1 h.2,
      Option.some_inj, compare_eq_iff_eq]
    exact (and_iff_right h).symm
  · rw [compare_eq_none h]
    exact ⟨nofun, fun hn => absurd hn.1 h⟩

/-- Numbers that are not in order are in the opposite order. -/
theorem le_of_not_lt {x y : Float} (hx : x.isNaN = false) (hy : y.isNaN = false)
    (h : ¬x < y) : y ≤ x := by
  rw [lt_iff] at h
  rw [le_iff]
  refine ⟨hy, hx, ?_⟩
  by_contra hc
  exact h ⟨hx, hy, by omega⟩

theorem le_refl {x : Float} (hx : x.isNaN = false) : x ≤ x := by
  rw [le_iff]
  exact ⟨hx, hx, Int.le_refl _⟩

theorem le_of_lt {x y : Float} (h : x < y) : x ≤ y := by
  rw [lt_iff] at h
  rw [le_iff]
  exact ⟨h.1, h.2.1, Int.le_of_lt h.2.2⟩

theorem le_trans {x y z : Float} (h₁ : x ≤ y) (h₂ : y ≤ z) : x ≤ z := by
  rw [le_iff] at h₁ h₂ ⊢
  exact ⟨h₁.1, h₂.2.1, Int.le_trans h₁.2.2 h₂.2.2⟩

theorem lt_of_le_of_lt {x y z : Float} (h₁ : x ≤ y) (h₂ : y < z) : x < z := by
  rw [le_iff] at h₁
  rw [lt_iff] at h₂ ⊢
  exact ⟨h₁.1, h₂.2.1, Int.lt_of_le_of_lt h₁.2.2 h₂.2.2⟩

theorem lt_trans {x y z : Float} (h₁ : x < y) (h₂ : y < z) : x < z :=
  lt_of_le_of_lt (le_of_lt h₁) h₂

theorem beq_self {x : Float} (hx : x.isNaN = false) : (x == x) = true :=
  (beq_iff x x).2 ⟨hx, hx, rfl⟩

theorem lt_of_beq_of_lt {x y z : Float} (h₁ : (x == y) = true) (h₂ : y < z) :
    x < z := by
  rw [beq_iff] at h₁
  rw [lt_iff] at h₂ ⊢
  exact ⟨h₁.1, h₂.2.1, h₁.2.2 ▸ h₂.2.2⟩

/-- No weight is less than itself, numbers or not. -/
theorem lt_irrefl (x : Float) : ¬x < x := by
  rw [lt_iff]
  omega

-- ============================================================ infinity

theorem decoded_infinity : decoded infinity = .infinity .positive := rfl

/-- Infinity counts for more units than any finite weight. -/
theorem units_infinity : units infinity = beyond := by
  unfold units
  rw [decoded_infinity]
  rfl

theorem isNaN_infinity : infinity.isNaN = false := by
  rw [isNaN_eq_false_iff, decoded_infinity]
  trivial

theorem isInf_infinity : infinity.isInf = true := by
  show (decoded infinity).isInf = true
  rw [decoded_infinity]
  rfl

/-- No number is beyond infinity. -/
theorem units_le_beyond (x : Float) : units x ≤ beyond := by
  have hb := beyond_pos
  have hc := unitsOf_bounds (canonical_decoded x)
  unfold units
  cases hd : decoded x with
  | notANumber => exact hb.le
  | infinity s =>
      cases s with
      | negative => show -beyond ≤ beyond; omega
      | positive => exact Int.le_refl _
  | zero s => exact hb.le
  | finite s m e p =>
      rw [hd] at hc
      exact (hc trivial).2.le

/-- Nothing is beyond infinity. -/
theorem not_infinity_lt (x : Float) : ¬infinity < x := by
  rw [lt_iff, units_infinity]
  have := units_le_beyond x
  omega

/-- A finite number is short of infinity. -/
theorem not_infinity_le {x : Float} (h : x.isFinite = true) :
    ¬infinity ≤ x := by
  have hb := unitsOf_bounds (canonical_decoded x) ((isFinite_iff x).1 h)
  rw [le_iff, units_infinity]
  unfold units
  omega

/-- No finite weight is infinite. -/
theorem isInf_of_isFinite {x : Float} (h : x.isFinite = true) :
    x.isInf = false := by
  rw [isFinite_iff] at h
  show (decoded x).isInf = false
  revert h
  cases decoded x <;> simp [IsFinite, UnpackedFloat.isInf]

/-- A number short of both infinities is finite. -/
theorem isFinite_of_not_isInf {x : Float} (hx : x.isNaN = false)
    (h : x.isInf = false) :
    x.isFinite = true := by
  rw [isNaN_eq_false_iff] at hx
  rw [isFinite_iff]
  have hinf : (decoded x).isInf = false := h
  revert hx hinf
  cases decoded x <;> simp [IsNumber, IsFinite, UnpackedFloat.isInf]

end FlowPricing.Weight
