/-
Which network group an identifier names. What counts is the text behind the
last underscore (`Tail`), and of that the longest run of digits at its start
(`LeadingDigits`). The group is the number these digits stand for; where they
stand for none, or for one that is too large for a group, the identifier is
refused as a whole (`groupOfIdentifier_exact`).

Both parts are said without the scans that find them, so that the boundary
cases take care of themselves: a text without an underscore is its own tail, a
tail that is empty or starts with a letter has no digits, and digits beyond
ASCII are none. Nothing else in an identifier matters: two of them name the same
group, or neither names one, as soon as they agree in these digits, zeros in
front apart.
-/
import FlowPricing.Network.Description
import FlowPricing.Proofs.VariableName.Grammar
import Mathlib.Data.List.TakeWhile

namespace FlowPricing.Identifier

variable {cs tail digits : List Char} {s : String}

-- ============================================================= the parts

/-- `tail` stands behind the last underscore of a text, or is all of it if there
is none. -/
inductive Tail : List Char → List Char → Prop
  | whole {cs : List Char} (unbroken : '_' ∉ cs) : Tail cs cs
  | behind (front : List Char) {tail : List Char} (last : '_' ∉ tail) :
      Tail (front ++ '_' :: tail) tail

/-- `digits` is the longest run of digits that a text starts with. -/
structure LeadingDigits (cs digits : List Char) : Prop where
  leads : digits <+: cs
  isDigit : ∀ c ∈ digits, c.isDigit = true
  longest : ∀ ds, ds <+: cs → (∀ c ∈ ds, c.isDigit = true) → ds <+: digits

/-- The tail is found by going back to the last underscore. -/
theorem tail_iff :
    Tail cs tail ↔ tail = (cs.reverse.takeWhile (· ≠ '_')).reverse := by
  constructor
  · intro h
    cases h with
    | whole hnone =>
        have hall : cs.reverse.takeWhile (· ≠ '_') = cs.reverse := by
          rw [List.takeWhile_eq_self_iff]
          intro c hc
          have hne : c ≠ '_' := fun heq => hnone (heq ▸ List.mem_reverse.1 hc)
          simpa using hne
        rw [hall, List.reverse_reverse]
    | behind front hlast =>
        have hback : (front ++ '_' :: tail).reverse
            = tail.reverse ++ '_' :: front.reverse := by
          simp
        have hall : ∀ c ∈ tail.reverse, decide (c ≠ '_') = true := by
          intro c hc
          have hne : c ≠ '_' := fun heq => hlast (heq ▸ List.mem_reverse.1 hc)
          simpa using hne
        rw [hback, List.takeWhile_append_of_pos hall,
          List.takeWhile_cons_of_neg (by simp), List.append_nil,
          List.reverse_reverse]
  · intro h
    have hlast : '_' ∉ tail := by
      intro hmem
      rw [h, List.mem_reverse] at hmem
      simpa using List.mem_takeWhile_imp hmem
    have hsplit : cs = (cs.reverse.dropWhile (· ≠ '_')).reverse ++ tail := by
      rw [h, ← List.reverse_append, List.takeWhile_append_dropWhile,
        List.reverse_reverse]
    cases hfront : cs.reverse.dropWhile (· ≠ '_') with
    | nil =>
        rw [hfront, List.reverse_nil, List.nil_append] at hsplit
        rw [hsplit]
        exact .whole hlast
    | cons c front =>
        have hc : c = '_' := by
          have hstop := List.head?_dropWhile_not (· ≠ '_') cs.reverse
          rw [hfront] at hstop
          simpa using hstop
        rw [hfront, hc, List.reverse_cons, List.append_assoc] at hsplit
        rw [hsplit]
        exact .behind front.reverse hlast

/-- The digits are found by going on to the first character that is none. -/
theorem leadingDigits_iff :
    LeadingDigits cs digits ↔ digits = cs.takeWhile Char.isDigit := by
  have hlongest : ∀ ds, ds <+: cs → (∀ c ∈ ds, c.isDigit = true) →
      ds <+: cs.takeWhile Char.isDigit := by
    intro ds hleads hdigits
    obtain ⟨rest, rfl⟩ := hleads
    rw [List.takeWhile_append_of_pos hdigits]
    exact List.prefix_append ds _
  have hdigits : ∀ c ∈ cs.takeWhile Char.isDigit, c.isDigit = true :=
    fun _ hc => List.mem_takeWhile_imp hc
  constructor
  · intro h
    have hle := (h.longest _ (List.takeWhile_prefix _) hdigits).length_le
    exact (hlongest digits h.leads h.isDigit).eq_of_length_le hle
  · intro h
    rw [h]
    exact ⟨List.takeWhile_prefix _, hdigits, hlongest⟩

/-- The digits of the group lead the tail of the identifier. -/
theorem groupDigits_eq (htail : Tail s.toList tail)
    (hdigits : LeadingDigits tail digits) :
    groupDigits s = digits := by
  rw [leadingDigits_iff.1 hdigits, tail_iff.1 htail]
  rfl

-- ============================================================= the group

/-- Zeros in front of a numeral do not change what it stands for. -/
theorem read?_zeros (k : Nat) (hne : k = 0 ∨ digits ≠ []) :
    Numeral.read? (List.replicate k '0' ++ digits) = Numeral.read? digits := by
  induction k with
  | zero => rfl
  | succ k ih =>
      have hdigits : digits ≠ [] := hne.resolve_left (Nat.succ_ne_zero k)
      have hnumeral : ∀ ds : List Char, ds ≠ [] →
          Numeral.read? ('0' :: ds) = Numeral.read? ds := by
        intro ds hds
        simp [Numeral.read?, Numeral.isNumeral, Numeral.value,
          Nat.ofDigitChars_cons, hds]
      rw [List.replicate_succ, List.cons_append, hnumeral _ (by simp [hdigits])]
      exact ih (.inr hdigits)

/-- The number that digits stand for, if it is not too large for a group. -/
def number? (digits : List Char) : Option Nat :=
  (Numeral.read? digits).filter (· ≤ 2147483647)

/-- A number is read if it fits into 32 bits. -/
theorem number?_eq_some_iff {n : Nat} :
    number? digits = some n ↔ Numeral.Denotes digits n ∧ n ≤ 2147483647 := by
  unfold number?
  rw [Option.filter_eq_some_iff, Numeral.read?_eq_some_iff, decide_eq_true_iff]

/-- The group is read off the digits. -/
theorem groupOfIdentifier_eq (s : String) : groupOfIdentifier s
    = match number? (groupDigits s) with
      | some n => .ok (Int32.ofNat n)
      | none => .error (.malformedIdentifier s) := by
  unfold groupOfIdentifier number?
  cases Numeral.read? (groupDigits s) with
  | none => rfl
  | some n => by_cases hn : n ≤ 2147483647 <;> simp [hn, Option.filter]

/-- The group is the number of these digits. -/
theorem groupOfIdentifier_eq_ok {group : Int32} :
    groupOfIdentifier s = .ok group
    ↔ ∃ n : Nat, Numeral.Denotes (groupDigits s) n ∧ n ≤ 2147483647
      ∧ group.toInt = n := by
  rw [groupOfIdentifier_eq]
  cases hread : number? (groupDigits s) with
  | none =>
      apply iff_of_false nofun
      intro h
      obtain ⟨n, hn, hle, -⟩ := h
      rw [number?_eq_some_iff.2 ⟨hn, hle⟩] at hread
      cases hread
  | some n =>
      obtain ⟨hn, hle⟩ := number?_eq_some_iff.1 hread
      constructor
      · intro h
        exact ⟨n, hn, hle, (VariableName.eq_ofNat_iff hle).1
          (Except.ok.inj h).symm⟩
      · intro h
        obtain ⟨m, hm, -, hgroup⟩ := h
        obtain rfl : m = n := hm.value_eq.symm.trans hn.value_eq
        exact congrArg Except.ok ((VariableName.eq_ofNat_iff hle).2 hgroup).symm

/-- Without such a number the identifier is malformed. -/
theorem groupOfIdentifier_eq_error {err : NetworkError} :
    groupOfIdentifier s = .error err
    ↔ err = .malformedIdentifier s
      ∧ ¬∃ n, Numeral.Denotes (groupDigits s) n ∧ n ≤ 2147483647 := by
  rw [groupOfIdentifier_eq]
  cases hread : number? (groupDigits s) with
  | none =>
      have hnone : ¬∃ n, Numeral.Denotes (groupDigits s) n
          ∧ n ≤ 2147483647 := by
        intro h
        obtain ⟨n, hn⟩ := h
        rw [number?_eq_some_iff.2 hn] at hread
        cases hread
      constructor
      · exact fun h => ⟨(Except.error.inj h).symm, hnone⟩
      · exact fun h => congrArg Except.error h.1.symm
  | some n =>
      exact iff_of_false nofun fun h => h.2 ⟨n, number?_eq_some_iff.1 hread⟩

/-- Where the digits stand for the same number, so do the identifiers for the
same group. -/
theorem toOption_groupOfIdentifier (s : String) :
    (groupOfIdentifier s).toOption
      = (number? (groupDigits s)).map Int32.ofNat := by
  rw [groupOfIdentifier_eq]
  cases number? (groupDigits s) <;> rfl

/-- Every identifier has one tail, and that one run of leading digits. The
identifier names a group exactly if the digits stand for a number that is not
larger than the largest group, and this number is the group; otherwise the error
holds the identifier. An identifier with the same digits, or with more zeros in
front of them, names the same group, or names none either. -/
theorem groupOfIdentifier_exact (s : String) :
    ∃ tail digits, (∀ t, Tail s.toList t ↔ t = tail)
      ∧ (∀ ds, LeadingDigits tail ds ↔ ds = digits)
      ∧ (∀ group, groupOfIdentifier s = .ok group
          ↔ ∃ n : Nat, Numeral.Denotes digits n ∧ n ≤ 2147483647
            ∧ group.toInt = n)
      ∧ (∀ err, groupOfIdentifier s = .error err
          ↔ err = .malformedIdentifier s ∧ ¬∃ n, Numeral.Denotes digits n
            ∧ n ≤ 2147483647)
      ∧ ∀ s' tail' k, Tail s'.toList tail' →
          LeadingDigits tail' (List.replicate k '0' ++ digits) →
            (k = 0 ∨ digits ≠ []) →
          (groupOfIdentifier s').toOption = (groupOfIdentifier s).toOption := by
  refine ⟨(s.toList.reverse.takeWhile (· ≠ '_')).reverse, groupDigits s,
    fun t => tail_iff, fun ds => leadingDigits_iff, fun group =>
      groupOfIdentifier_eq_ok, fun err => groupOfIdentifier_eq_error, ?_⟩
  intro s' tail' k htail hdigits hne
  have hnumber : number? (groupDigits s') = number? (groupDigits s) := by
    unfold number?
    rw [groupDigits_eq htail hdigits, read?_zeros k hne]
  rw [toOption_groupOfIdentifier, toOption_groupOfIdentifier, hnumber]

/-- Other digits before the last underscore, zeros in front of those that count,
and letters of any kind behind them make no difference. -/
theorem groupOfIdentifier_exact_sample :
    groupOfIdentifier "graphs/graph_26.xml" = .ok 26
      ∧ (groupOfIdentifier "é_7_0026é9").toOption = some 26 := by
  have htail : Tail "graphs/graph_26.xml".toList "26.xml".toList :=
    .behind "graphs/graph".toList (by decide)
  have htail' : Tail "é_7_0026é9".toList "0026é9".toList :=
    .behind "é_7".toList (by decide)
  obtain ⟨tail, digits, htails, hruns, hok, -, hsame⟩ :=
    groupOfIdentifier_exact "graphs/graph_26.xml"
  obtain rfl := (htails _).1 htail
  obtain rfl := (hruns "26".toList).1 (leadingDigits_iff.2 (by decide))
  have hgroup : groupOfIdentifier "graphs/graph_26.xml" = .ok 26 :=
    (hok 26).2 ⟨26,
      Numeral.read?_eq_some_iff.1 (by decide), by decide, by decide⟩
  refine ⟨hgroup, ?_⟩
  rw [hsame "é_7_0026é9" _ 2 htail' (leadingDigits_iff.2 (by decide))
    (.inr (by decide)), hgroup]
  rfl

end FlowPricing.Identifier
