/-
How weights are stored. A canonical weight comes back from its bits as it
went in (`unpack_pack`), so what is computed on decoded weights is what the
weights themselves hold; an exponent too large to store leaves an infinity
(`unpack_pack_of_large`).

Negation only turns the sign over, which the magnitude does not show
(`abs_neg`), and with it the order.
-/
import FlowPricing.Proofs.Weight.Units

namespace FlowPricing.Weight

open Float.Model (Format UnpackedFloat)
open Float.Model.UnpackedFloat

theorem finite_congr {s s' : Sign} {m m' : Nat} {e e' : Int} (hs : s = s')
    (hm : m = m') (he : e = e') (p : 0 < m) (p' : 0 < m') :
    UnpackedFloat.finite s m e p = .finite s' m' e' p' := by
  subst hs hm he
  rfl

/-- The biased exponent, as storing computes it. -/
theorem biased_exponent (e : Int) :
    (e + Format.binary64.exponentBias
      + Format.binary64.mantissaBitsWithoutImplicit).toNat
      = (e + 1075).toNat := by
  simp only [Format.exponentBias]
  norm_num
  omega

/-- An overlarge exponent is stored as an infinity. -/
theorem unpack_pack_of_large {s : Sign} {m : Nat} {e : Int} {p : 0 < m}
    (he : 972 ≤ e) :
    UnpackedFloat.unpack Format.binary64
      (pack Format.binary64 (.finite s m e p))
      = .infinity s := by
  have hlarge : 2 ^ Format.binary64.exponentBits ≤ (e + 1075).toNat + 1 := by
    show 2 ^ 11 ≤ (e + 1075).toNat + 1
    omega
  have hbias := biased_exponent e
  unfold pack
  simp only [hbias]
  rw [if_pos hlarge]
  cases s <;> rfl

theorem unpack_pack_notANumber :
    UnpackedFloat.unpack Format.binary64 (pack Format.binary64 .notANumber)
      = .notANumber := rfl

/-- An infinity is stored as itself. -/
theorem unpack_pack_infinity (s : Sign) :
    UnpackedFloat.unpack Format.binary64 (pack Format.binary64 (.infinity s))
      = .infinity s := by
  cases s <;> rfl

/-- A full significand is stored without its leading bit. -/
theorem unpack_pack_normal {s : Sign} {m : Nat} {e : Int} {p : 0 < m}
    (hm : m < 2 ^ 53) (hlo : -1074 ≤ e) (hhi : e ≤ 971) (hnorm : 2 ^ 52 ≤ m) :
    UnpackedFloat.unpack Format.binary64
      (pack Format.binary64 (.finite s m e p))
      = .finite s m e p := by
  have hlog : m.log2 = 52 := by
    have h₁ := (Nat.le_log2 p.ne').2 hnorm
    have h₂ := (Nat.log2_lt p.ne').2 hm
    omega
  have hfits : ¬2 ^ Format.binary64.exponentBits ≤ (e + 1075).toNat + 1 := by
    show ¬2 ^ 11 ≤ (e + 1075).toNat + 1
    omega
  have hexp : (BitVec.ofNat 11 (e + 1075).toNat).toNat = (e + 1075).toNat := by
    rw [BitVec.toNat_ofNat]
    exact Nat.mod_eq_of_lt (by omega)
  have hman : (BitVec.ofNat 52 m).toNat = m - 2 ^ 52 := by
    rw [BitVec.toNat_ofNat, Nat.mod_eq_sub_mod hnorm]
    exact Nat.mod_eq_of_lt (by omega)
  have hmax : BitVec.ofNat 11 (e + 1075).toNat ≠ -1#11 := fun h => by
    have h₁ := congrArg BitVec.toNat h
    have h₂ : (-1#11 : BitVec 11).toNat = 2047 := rfl
    omega
  have hzero : BitVec.ofNat 11 (e + 1075).toNat ≠ 0#11 := fun h => by
    have h₁ := congrArg BitVec.toNat h
    have h₂ : (0#11 : BitVec 11).toNat = 0 := rfl
    omega
  have hbias := biased_exponent e
  unfold pack
  simp only [hbias]
  rw [if_neg hfits, hlog, if_pos (by rfl)]
  unfold UnpackedFloat.unpack
  simp only [unpackMantissa_packComponents, unpackExponent_packComponents,
    unpackSign_packComponents]
  rw [if_neg hmax, if_neg hzero]
  apply finite_congr
  · exact Sign.ofBitVec_toBitVec s
  · rw [leadingBit_toNat, hman]
    omega
  · rw [hexp]
    simp only [Format.exponentBias]
    norm_num
    omega

/-- A significand with room to spare is stored as it is. -/
theorem unpack_pack_subnormal {s : Sign} {m : Nat} {p : 0 < m}
    (hm : m < 2 ^ 52) :
    UnpackedFloat.unpack Format.binary64
      (pack Format.binary64 (.finite s m (-1074) p))
      = .finite s m (-1074) p := by
  have hlog : m.log2 < 52 := (Nat.log2_lt p.ne').2 hm
  have hman : (BitVec.ofNat 52 m).toNat = m := by
    rw [BitVec.toNat_ofNat]
    exact Nat.mod_eq_of_lt hm
  have hne : BitVec.ofNat 52 m ≠ 0#52 := fun h => by
    have := congrArg BitVec.toNat h
    rw [hman] at this
    exact p.ne' this
  unfold pack
  simp only
  rw [if_neg (by decide), if_neg (by show ¬m.log2 + 1 = 53; omega)]
  unfold UnpackedFloat.unpack
  simp only [unpackMantissa_packComponents, unpackExponent_packComponents,
    unpackSign_packComponents]
  rw [if_neg (by decide), if_pos trivial, dif_neg hne]
  exact finite_congr (Sign.ofBitVec_toBitVec s) hman rfl _ p

/-- A weight comes back as it was. -/
theorem unpack_pack {u : UnpackedFloat} (hc : Canonical u) :
    UnpackedFloat.unpack Format.binary64 (pack Format.binary64 u) = u := by
  cases u with
  | notANumber => rfl
  | infinity s => exact unpack_pack_infinity s
  | zero s => cases s <;> rfl
  | finite s m e p =>
      obtain ⟨hm, hlo, hhi, hnorm⟩ := hc
      rcases Nat.lt_or_ge m (2 ^ 52) with h | h
      · obtain rfl : e = -1074 := hnorm.resolve_left (by omega)
        exact unpack_pack_subnormal h
      · exact unpack_pack_normal hm hlo hhi h

-- ================================================================ signs

theorem canonical_neg {u : UnpackedFloat} (h : Canonical u) :
    Canonical u.neg := by
  cases u <;> exact h

/-- Negating a weight negates its decoded form. -/
theorem decoded_neg (x : Float) : decoded (-x) = (decoded x).neg :=
  unpack_pack (canonical_neg (canonical_decoded x))

theorem unitsOf_neg (u : UnpackedFloat) : unitsOf u.neg = -unitsOf u := by
  cases u with
  | notANumber => rfl
  | infinity s => cases s <;> simp [unitsOf, UnpackedFloat.neg, Sign.apply]
  | zero s => rfl
  | finite s m e p => cases s <;> simp [unitsOf, UnpackedFloat.neg, Sign.apply]

/-- What is below a negated bound is below zero. -/
theorem lt_zero_of_lt_neg {x bound : Float} (hbound : 0.0 ≤ bound)
    (h : x < -bound) :
    x < 0.0 := by
  have hzero : units 0.0 = 0 := rfl
  have hneg : units (-bound) = -units bound := by
    unfold units
    rw [decoded_neg, unitsOf_neg]
  rw [le_iff, hzero] at hbound
  rw [lt_iff, hneg] at h
  rw [lt_iff, hzero]
  exact ⟨h.1, rfl, by omega⟩

theorem model_abs_neg (u : UnpackedFloat) : u.neg.abs = u.abs := by
  cases u with
  | notANumber => rfl
  | infinity s => rfl
  | zero s => rfl
  | finite s m e p => rfl

/-- The magnitude of a number does not show its sign. -/
theorem abs_neg (x : Float) : (-x).abs = x.abs := by
  show Float.ofModel (Float.Model.pack (decoded (-x)).abs)
    = Float.ofModel (Float.Model.pack (decoded x).abs)
  rw [decoded_neg, model_abs_neg]

end FlowPricing.Weight
