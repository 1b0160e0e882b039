/-
Which characters written numbers are made of. Texts are put together with
separators and cut apart at them again, which works because no number has a
separator in it: a whole number is digits behind at most a minus sign, and a
floating-point number has a point and a few letters besides.
-/
import FlowPricing.Text.Pieces
import FlowPricing.Text.Positional

namespace FlowPricing

-- ========================================================= whole numbers

namespace Numeral

theorem ne_of_mem_ofNat {n : Nat} {c d : Char} (hd : d.isDigit = false)
    (hc : c ∈ ofNat n) : d ≠ c := by
  rintro rfl
  rw [isDigit_of_mem_ofNat hc] at hd
  exact nomatch hd

/-- A number behind a minus sign is no numeral. -/
theorem read?_ofInt (i : Int) :
    read? (ofInt i) = if 0 ≤ i then some i.natAbs else none := by
  cases i with
  | ofNat n => simp [ofInt]
  | negSucc n => simp [ofInt, read?, isNumeral]

theorem mem_ofInt {i : Int} {c : Char} (h : c ∈ ofInt i) :
    c.isDigit = true ∨ c = '-' := by
  cases i with
  | ofNat n => exact .inl (isDigit_of_mem_ofNat h)
  | negSucc n =>
      rcases List.mem_cons.1 h with h | h
      · exact .inr h
      · exact .inl (isDigit_of_mem_ofNat h)

/-- Nothing but a minus sign tells a negative number from a numeral. -/
theorem ofNat_ne_cons (m n : Nat) : ofNat m ≠ '-' :: ofNat n := by
  intro h
  have hmem : '-' ∈ ofNat m := by simp [h]
  exact ne_of_mem_ofNat rfl hmem rfl

/-- Written numbers tell the numbers apart. -/
theorem ofInt_injective {i j : Int} (h : ofInt i = ofInt j) : i = j := by
  cases i with
  | ofNat m =>
      cases j with
      | ofNat n => rw [ofNat_injective h]
      | negSucc n => exact absurd h (ofNat_ne_cons m (n + 1))
  | negSucc m =>
      cases j with
      | ofNat n => exact absurd h.symm (ofNat_ne_cons n (m + 1))
      | negSucc n => rw [Nat.succ.inj (ofNat_injective (List.cons.inj h).2)]

end Numeral

-- ============================================================== pieces

namespace Pieces

variable {sep c : Char} {ps : List (List Char)}

/-- A joined text has the characters of its pieces and the separator. -/
theorem mem_join (h : c ∈ join sep ps) : c = sep ∨ ∃ p ∈ ps, c ∈ p := by
  induction ps with
  | nil => exact absurd h List.not_mem_nil
  | cons p ps ih =>
      cases ps with
      | nil => exact .inr ⟨p, List.mem_cons_self, h⟩
      | cons q ps =>
          rcases List.mem_append.1 h with h | h
          · exact .inr ⟨p, List.mem_cons_self, h⟩
          rcases List.mem_cons.1 h with h | h
          · exact .inl h
          · exact (ih h).imp_right fun ⟨r, hr, hc⟩ =>
              ⟨r, List.mem_cons_of_mem p hr, hc⟩

/-- What is in no piece is not in the joined text, other than as the
separator. -/
theorem not_mem_join (hc : c ≠ sep) (h : ∀ p ∈ ps, c ∉ p) :
    c ∉ join sep ps := by
  intro hmem
  rcases mem_join hmem with heq | ⟨p, hp, hmem⟩
  · exact hc heq
  · exact h p hp hmem

end Pieces

-- ==================================================== fractional numbers

namespace Positional

/-- What a decimal is written with. -/
theorem mem_ofDecimal {d : Shortest.Decimal} {c : Char} (h : c ∈ ofDecimal d) :
    c.isDigit = true ∨ c = '.' := by
  have hzeros : ∀ {k : Nat}, c ∈ List.replicate k '0' → c.isDigit = true := by
    intro k hk
    rw [(List.mem_replicate.1 hk).2]
    rfl
  unfold ofDecimal at h
  simp only at h
  split at h
  · rcases List.mem_append.1 h with h | h
    · exact .inl (Numeral.isDigit_of_mem_ofNat h)
    · exact .inl (hzeros h)
  · split at h
    · rcases List.mem_append.1 h with h | h
      · exact .inl (Numeral.isDigit_of_mem_ofNat (List.mem_of_mem_take h))
      · rcases List.mem_cons.1 h with h | h
        · exact .inr h
        · exact .inl (Numeral.isDigit_of_mem_ofNat (List.mem_of_mem_drop h))
    · rcases List.mem_append.1 h with h | h
      · rcases List.mem_cons.1 h with rfl | h
        · exact .inl rfl
        · rcases List.mem_cons.1 h with h | h
          · exact .inr h
          · exact .inl (hzeros h)
      · exact .inl (Numeral.isDigit_of_mem_ofNat h)

/-- What a floating-point number is written with. -/
theorem mem_ofFloat {x : Float} {c : Char} (h : c ∈ ofFloat x) :
    c.isDigit = true ∨ c ∈ "-.NaNinf".toList := by
  have hmagnitude : ∀ {bits : Nat}, c ∈ ofMagnitude bits →
      c.isDigit = true ∨ c ∈ "-.NaNinf".toList := by
    intro bits hbits
    unfold ofMagnitude at hbits
    split at hbits
    · obtain rfl := List.mem_singleton.1 hbits
      exact .inl rfl
    · split at hbits
      · exact .inr (List.mem_append_right "-.NaN".toList hbits)
      · rcases mem_ofDecimal hbits with hd | rfl
        · exact .inl hd
        · exact .inr (by decide)
  unfold ofFloat at h
  split at h
  · exact .inr (List.mem_append_left "inf".toList
      (List.mem_append_right "-.".toList h))
  · simp only at h
    split at h
    · exact hmagnitude h
    · rcases List.mem_cons.1 h with rfl | h
      · exact .inr (by decide)
      · exact hmagnitude h

end Positional

end FlowPricing
