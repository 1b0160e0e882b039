/-
Addition of weights keeps their order. The sum of two finite weights, as
long as it is finite, is their exact sum rounded (`units_add`), and
rounding keeps order, so a smaller summand makes no larger sum
(`add_le_add`). Neither infinities nor not-a-number ever disappear from a
sum: a finite sum has finite summands (`isFinite_of_add`).

The path from the definition to this: the exponent a sum is rounded to is
the one its surplus bits dictate (`round_spec`), a rounded sum that is
not too large survives being stored (`unpack_pack`), and one that is too
large is stored as an infinity.
-/
import FlowPricing.Proofs.Weight.Rounding
import FlowPricing.Proofs.Weight.Storing

namespace FlowPricing.Weight

open Float.Model (Format UnpackedFloat totalExponent)
open Float.Model.UnpackedFloat

-- ============================================================ rounding

/-- A rounded sum: zero, or finite with its significand in place; its
exponent may be too large to store. -/
def Rounded : UnpackedFloat → Prop
  | .zero _ => True
  | .finite _ m e _ => m < 2 ^ 53 ∧ -1074 ≤ e ∧ (2 ^ 52 ≤ m ∨ e = -1074)
  | _ => False

/-- What comes back finite went in short of the infinities. -/
theorem unpack_pack_of_finite {u : UnpackedFloat} (hu : Rounded u)
    (hf : IsFinite
      (UnpackedFloat.unpack Format.binary64 (pack Format.binary64 u))) :
    UnpackedFloat.unpack Format.binary64 (pack Format.binary64 u) = u := by
  cases u with
  | notANumber => exact hu.elim
  | infinity s => exact hu.elim
  | zero s => exact unpack_pack (u := .zero s) trivial
  | finite s m e p =>
      rcases lt_or_ge e 972 with he | he
      · exact unpack_pack ⟨hu.1, hu.2.1, by omega, hu.2.2⟩
      · rw [unpack_pack_of_large he] at hf
        exact hf.elim

/-- The exponent a significand is rounded to. -/
theorem targetExponent_eq (m : Nat) (e : Int) :
    Format.binary64.targetExponent (totalExponent m e) = max (m.log2 + e - 52)
      (-1074) := by
  have hmin : Format.binary64.minExponent = -1074 := by decide
  have hbits : (Format.binary64.mantissaBits : Int) = 53 := by decide
  unfold Format.targetExponent totalExponent
  rw [hmin, hbits]
  omega

/-- It leaves room for exactly the bits that are not surplus. -/
theorem targetExponent_surplus {m : Nat} {e : Int} (hm : 0 < m)
    (he : -1074 ≤ e) :
    Format.binary64.targetExponent (totalExponent m e)
      = surplus (m * 2 ^ (e + 1074).toNat) - 1074 := by
  rw [targetExponent_eq, surplus_mul_pow hm]
  omega

/-- Moving bits from the exponent into the significand changes nothing. -/
theorem decreaseExponent_units (m : Nat) {e t : Int} (ht : -1074 ≤ t) :
    (decreaseExponent m e t).1 * 2 ^ ((decreaseExponent m e t).2 + 1074).toNat
      = m * 2 ^ (e + 1074).toNat := by
  unfold decreaseExponent
  simp only [Nat.shiftLeft_eq]
  rcases Int.le_total e t with h | h
  · rw [show (e - t).toNat = 0 by omega]
    simp
  · rw [Nat.mul_assoc, ← Nat.pow_add]
    congr 2
    omega

/-- The second shift of a rounding: a significand that fits stays. -/
theorem shift_of_fits {n : Nat} {t : Int} (hn : n < 2 ^ 53) (ht : -1074 ≤ t) :
    shiftToTargetExponent Format.binary64 n t .exact
      = (⟨n, false, false⟩, t) := by
  have hlog : n.log2 ≤ 52 := by
    rcases Nat.eq_zero_or_pos n with rfl | hpos
    · decide
    · exact Nat.le_of_lt_succ ((Nat.log2_lt hpos.ne').2 hn)
  have hshift : (Format.binary64.targetExponent (totalExponent n t)
      - t).toNat = 0 := by
    rw [targetExponent_eq]
    omega
  unfold shiftToTargetExponent shiftToExponent
  simp only [hshift]
  exact Prod.ext rfl (Int.add_zero t)

/-- The second shift of a rounding: one that has grown by a bit is halved. -/
theorem shift_of_full {t : Int} (ht : -1074 ≤ t) :
    shiftToTargetExponent Format.binary64 (2 ^ 53) t .exact
      = (⟨2 ^ 52, false, false⟩, t + 1) := by
  have hlog : (2 ^ 53 : Nat).log2 = 53 := Nat.log2_two_pow
  have hshift : (Format.binary64.targetExponent (totalExponent (2 ^ 53) t)
      - t).toNat = 1 := by
    rw [targetExponent_eq, hlog]
    omega
  unfold shiftToTargetExponent shiftToExponent
  simp only [hshift]
  rfl

/-- Rounding an exact magnitude drops its surplus bits. -/
theorem roundWithAccuracy_spec (s : Sign) {m : Nat} {e : Int} (hm : 0 < m)
    (he : -1074 ≤ e)
    (hle : e ≤ Format.binary64.targetExponent (totalExponent m e)) :
    Rounded (roundWithAccuracy Format.binary64 s m e .exact)
      ∧ unitsOf (roundWithAccuracy Format.binary64 s m e .exact)
        = s.apply (roundMagnitude (m * 2 ^ (e + 1074).toNat) : Nat) := by
  have htarget := targetExponent_surplus hm he
  have hfits := nearest_surplus_le (m * 2 ^ (e + 1074).toNat)
  have hfull := le_nearest_surplus (n := m * 2 ^ (e + 1074).toNat)
  unfold roundMagnitude
  generalize hk : surplus (m * 2 ^ (e + 1074).toNat)
    = k at htarget hfits hfull ⊢
  -- the first shift and the rounding after it
  have hfirst : (shiftToTargetExponent Format.binary64 m e
      .exact).1.roundedMantissa
        = nearest (m * 2 ^ (e + 1074).toNat) k
      ∧ (shiftToTargetExponent Format.binary64 m e .exact).2
        = (k : Int) - 1074 := by
    unfold shiftToTargetExponent shiftToExponent
    simp only
    rw [htarget] at hle ⊢
    refine ⟨?_, by omega⟩
    rw [roundedMantissa_shift, ← nearest_mul_pow m _ (e + 1074).toNat]
    congr 1
    omega
  obtain ⟨hmant, hexp⟩ := hfirst
  unfold roundWithAccuracy
  simp only
  rw [hmant, hexp]
  generalize nearest (m * 2 ^ (e + 1074).toNat) k = n at hfits hfull ⊢
  have hback : ((k : Int) - 1074 + 1074).toNat = k := by omega
  rcases Nat.lt_or_ge n (2 ^ 53) with h | h
  · rw [shift_of_fits h (by omega)]
    by_cases h0 : n = 0
    · subst h0
      rw [dif_pos rfl, Nat.zero_mul]
      exact ⟨trivial, by cases s <;> rfl⟩
    · rw [dif_neg h0]
      refine ⟨⟨h, by omega, ?_⟩, ?_⟩
      · rcases Nat.eq_zero_or_pos k with rfl | hkpos
        · exact .inr rfl
        · exact .inl (hfull hkpos)
      · simp only [unitsOf, hback]
  · obtain rfl : n = 2 ^ 53 := Nat.le_antisymm hfits h
    rw [shift_of_full (by omega), dif_neg (Nat.two_pow_pos 52).ne']
    refine ⟨⟨Nat.pow_lt_pow_right (by decide) (by decide), by omega,
      .inl (Nat.le_refl _)⟩, ?_⟩
    simp only [unitsOf]
    rw [show ((k : Int) - 1074 + 1 + 1074).toNat = k + 1 by omega]
    congr 2
    ring

/-- Rounding a magnitude drops its surplus bits. -/
theorem round_spec (s : Sign) {m : Nat} {e : Int} (hm : 0 < m)
    (he : -1074 ≤ e) :
    Rounded (UnpackedFloat.round Format.binary64 s m e)
      ∧ unitsOf (UnpackedFloat.round Format.binary64 s m e)
        = s.apply (roundMagnitude (m * 2 ^ (e + 1074).toNat) : Nat) := by
  have ht := targetExponent_surplus hm he
  have hunits := decreaseExponent_units m (e := e)
    (t := Format.binary64.targetExponent (totalExponent m e)) (by omega)
  unfold UnpackedFloat.round
  simp only
  generalize hd : decreaseExponent m e
    (Format.binary64.targetExponent (totalExponent m e)) = d at hunits ⊢
  have hd₁ : 0 < d.1 := by
    rw [← hd]
    unfold decreaseExponent
    simp only [Nat.shiftLeft_eq]
    exact Nat.mul_pos hm (Nat.two_pow_pos _)
  have hd₂ : d.2
      = min e (Format.binary64.targetExponent (totalExponent m e)) := by
    rw [← hd]
    unfold decreaseExponent
    simp only
    omega
  have hd₃ : -1074 ≤ d.2 := by omega
  have hle : d.2 ≤ Format.binary64.targetExponent (totalExponent d.1 d.2) := by
    rw [targetExponent_surplus hd₁ hd₃, hunits, ← ht]
    omega
  rw [← hunits]
  exact roundWithAccuracy_spec s hd₁ hd₃ hle

/-- Rounding a number rounds its units. -/
theorem normalize_spec (n : Int) {e : Int} (he : -1074 ≤ e) :
    Rounded (UnpackedFloat.normalize Format.binary64 n e .positive)
      ∧ unitsOf (UnpackedFloat.normalize Format.binary64 n e .positive)
        = roundUnits (n * (2 ^ (e + 1074).toNat : Nat)) := by
  unfold UnpackedFloat.normalize
  rcases lt_trichotomy n 0 with h | rfl | h
  · rw [compare_lt_iff_lt.2 h]
    obtain ⟨hr, hu⟩ := round_spec .negative (m := (-n).toNat) (by omega) he
    refine ⟨hr, ?_⟩
    rw [hu]
    obtain ⟨m, rfl⟩ : ∃ m : Nat, n = -m := ⟨(-n).toNat, by omega⟩
    rw [Int.neg_neg, Int.toNat_natCast, Int.neg_mul, ← Int.natCast_mul,
      roundUnits_neg_natCast]
    rfl
  · rw [compare_eq_iff_eq.2 rfl]
    refine ⟨trivial, ?_⟩
    rw [Int.zero_mul]
    rfl
  · rw [compare_gt_iff_gt.2 h]
    obtain ⟨hr, hu⟩ := round_spec .positive (m := n.toNat) (by omega) he
    refine ⟨hr, ?_⟩
    rw [hu]
    obtain ⟨m, rfl⟩ : ∃ m : Nat, n = m := ⟨n.toNat, by omega⟩
    rw [Int.toNat_natCast, ← Int.natCast_mul]
    rfl

-- ============================================================ addition

theorem roundUnits_natCast (n : Nat) :
    roundUnits (n : Int) = (roundMagnitude n : Int) := rfl

/-- What a weight holds is rounded already. -/
theorem rounded_of_canonical {u : UnpackedFloat} (hc : Canonical u)
    (hf : IsFinite u) :
    Rounded u ∧ roundUnits (unitsOf u) = unitsOf u := by
  cases u with
  | notANumber => exact hf.elim
  | infinity s => exact hf.elim
  | zero s => exact ⟨trivial, rfl⟩
  | finite s m e p =>
      obtain ⟨hm, hlo, -, hnorm⟩ := hc
      refine ⟨⟨hm, hlo, hnorm⟩, ?_⟩
      have hkeep := roundMagnitude_mul_pow hm (e + 1074).toNat
      simp only [unitsOf]
      generalize m * 2 ^ (e + 1074).toNat = n at hkeep ⊢
      cases s with
      | negative =>
          show roundUnits (-(n : Int)) = -(n : Int)
          rw [roundUnits_neg_natCast, hkeep]
      | positive =>
          show roundUnits (n : Int) = (n : Int)
          rw [roundUnits_natCast, hkeep]

/-- The exact sum of two finite numbers, over their smaller exponent. -/
theorem aligned_units (s : Sign) (m : Nat) {e t : Int} (ht : -1074 ≤ t)
    (hte : t ≤ e) :
    s.apply ((decreaseExponent m e t).1 : Int) * (2 ^ (t + 1074).toNat : Nat)
      = s.apply ((m * 2 ^ (e + 1074).toNat : Nat) : Int) := by
  have h := decreaseExponent_units m (e := e) ht
  have hexp : (decreaseExponent m e t).2 = t := by
    unfold decreaseExponent
    simp only
    omega
  rw [hexp] at h
  rw [← h, Int.natCast_mul]
  cases s with
  | negative => exact Int.neg_mul _ _
  | positive => rfl

/-- Addition before storing: the exact sum, rounded. -/
theorem add_spec {u v : UnpackedFloat} (hu : Canonical u) (hv : Canonical v)
    (huf : IsFinite u) (hvf : IsFinite v) :
    Rounded (UnpackedFloat.add Format.binary64 u v)
      ∧ unitsOf (UnpackedFloat.add Format.binary64 u v)
        = roundUnits (unitsOf u + unitsOf v) := by
  cases u with
  | notANumber => exact huf.elim
  | infinity s => exact huf.elim
  | zero s₁ =>
      obtain ⟨hr, hk⟩ := rounded_of_canonical hv hvf
      cases v with
      | notANumber => exact hvf.elim
      | infinity s => exact hvf.elim
      | zero s₂ => cases s₁ <;> cases s₂ <;> exact ⟨trivial, rfl⟩
      | finite s₂ m₂ e₂ p₂ =>
          refine ⟨hr, ?_⟩
          show unitsOf (.finite s₂ m₂ e₂ p₂) = roundUnits (0 + _)
          rw [Int.zero_add, hk]
  | finite s₁ m₁ e₁ p₁ =>
      obtain ⟨hr, hk⟩ := rounded_of_canonical hu huf
      cases v with
      | notANumber => exact hvf.elim
      | infinity s => exact hvf.elim
      | zero s₂ =>
          refine ⟨hr, ?_⟩
          show unitsOf (.finite s₁ m₁ e₁ p₁) = roundUnits (_ + 0)
          rw [Int.add_zero, hk]
      | finite s₂ m₂ e₂ p₂ =>
          have hlo : -1074 ≤ min e₁ e₂ := le_min hu.2.1 hv.2.1
          obtain ⟨hr, hk⟩ := normalize_spec
            (s₁.apply ((decreaseExponent m₁ e₁ (min e₁ e₂)).1 : Int)
              + s₂.apply ((decreaseExponent m₂ e₂ (min e₁ e₂)).1 : Int)) hlo
          refine ⟨hr, hk.trans ?_⟩
          rw [Int.add_mul, aligned_units s₁ m₁ hlo (min_le_left _ _),
            aligned_units s₂ m₂ hlo (min_le_right _ _)]
          rfl

theorem decoded_add (x y : Float) :
    decoded (x + y) = UnpackedFloat.unpack Format.binary64
      (pack Format.binary64
        (UnpackedFloat.add Format.binary64 (decoded x) (decoded y))) :=
  rfl

/-- A finite sum of finite weights is their exact sum, rounded. -/
theorem units_add {x y : Float} (hx : x.isFinite = true)
    (hy : y.isFinite = true) (h : (x + y).isFinite = true) :
    units (x + y) = roundUnits (units x + units y) := by
  rw [isFinite_iff] at hx hy h
  obtain ⟨hr, hu⟩ := add_spec (canonical_decoded x) (canonical_decoded y) hx hy
  rw [decoded_add] at h
  unfold units
  rw [decoded_add, unpack_pack_of_finite hr h, hu]

/-- An infinite or undefined summand leaves an infinite or undefined sum. -/
theorem add_of_not_finite {u v : UnpackedFloat}
    (h : ¬(IsFinite u ∧ IsFinite v)) :
    UnpackedFloat.add Format.binary64 u v = .notANumber
      ∨ ∃ s, UnpackedFloat.add Format.binary64 u v = .infinity s := by
  cases u with
  | notANumber => exact .inl rfl
  | infinity s₁ =>
      cases v with
      | notANumber => exact .inl rfl
      | infinity s₂ =>
          cases s₁ with
          | negative =>
              cases s₂ with
              | negative => exact .inr ⟨_, rfl⟩
              | positive => exact .inl rfl
          | positive =>
              cases s₂ with
              | negative => exact .inl rfl
              | positive => exact .inr ⟨_, rfl⟩
      | zero s₂ => exact .inr ⟨_, rfl⟩
      | finite s₂ m₂ e₂ p₂ => exact .inr ⟨_, rfl⟩
  | zero s₁ =>
      cases v with
      | notANumber => exact .inl rfl
      | infinity s₂ => exact .inr ⟨_, rfl⟩
      | zero s₂ => exact absurd ⟨trivial, trivial⟩ h
      | finite s₂ m₂ e₂ p₂ => exact absurd ⟨trivial, trivial⟩ h
  | finite s₁ m₁ e₁ p₁ =>
      cases v with
      | notANumber => exact .inl rfl
      | infinity s₂ => exact .inr ⟨_, rfl⟩
      | zero s₂ => exact absurd ⟨trivial, trivial⟩ h
      | finite s₂ m₂ e₂ p₂ => exact absurd ⟨trivial, trivial⟩ h

/-- A finite sum has finite summands. -/
theorem isFinite_of_add {x y : Float} (h : (x + y).isFinite = true) :
    x.isFinite = true ∧ y.isFinite = true := by
  rw [isFinite_iff, decoded_add] at h
  rw [isFinite_iff, isFinite_iff]
  by_contra hn
  rcases add_of_not_finite hn with ha | ⟨s, ha⟩
  · rw [ha, unpack_pack_notANumber] at h
    exact h.elim
  · rw [ha, unpack_pack_infinity] at h
    exact h.elim

/-- Addition keeps order, as long as the sums are finite. -/
theorem add_le_add {x y w : Float} (h : x ≤ y) (hx : (x + w).isFinite = true)
    (hy : (y + w).isFinite = true) : x + w ≤ y + w := by
  obtain ⟨-, -, hle⟩ := (le_iff x y).1 h
  obtain ⟨hxf, hwf⟩ := isFinite_of_add hx
  obtain ⟨hyf, -⟩ := isFinite_of_add hy
  rw [le_iff, units_add hxf hwf hx, units_add hyf hwf hy]
  exact ⟨isNaN_of_isFinite hx, isNaN_of_isFinite hy,
    roundUnits_mono (Int.add_le_add_right hle _)⟩

end FlowPricing.Weight
