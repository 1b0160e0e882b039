/-
Which written arcs are read back. Writing is total: an attribute may be
negative everywhere, and down to the least integer where `neg` is spelled.
Reading is not. It takes no minus sign, and it reads the magnitude behind
`neg` before it negates it, so that the magnitude of the least integer is
too large. Such attributes apart (`Node.Legible`), a written arc is read
back as itself, and no written arc is ever read as another one
(`arc?_text_eq_ok`).

Even where it cannot be read, a written arc is that of one arc only
(`Arc.text_inj`). No field has a separator in it, so there is one way to
take a text apart, and every field tells its attribute: the two spellings
of negative numbers differ in their first character from those of all
others.
-/
import FlowPricing.VariableName
import FlowPricing.Proofs.Action
import FlowPricing.Proofs.Text

namespace FlowPricing

-- ====================================================== legible nodes

namespace Node

/-- The attributes that are written plainly are natural numbers. -/
structure Plain (n : Node) : Prop where
  careerGroup : 0 ≤ n.careerGroup
  career : 0 ≤ n.career
  status : 0 ≤ n.status
  network : 0 ≤ n.network

/-- The written node can be read: what is spelled with `neg` has a
magnitude that fits an attribute, too. -/
structure Legible (n : Node) : Prop extends Plain n where
  rank : n.rank ≠ Int32.minValue
  timeSlice : n.timeSlice ≠ Int32.minValue

/-- A numeral does not start like a negative attribute. -/
theorem neg_ne_ofNat (digits : List Char) (k : Nat) :
    'n' :: 'e' :: 'g' :: digits ≠ Numeral.ofNat k := by
  intro h
  have hn : 'n' ∈ Numeral.ofNat k := by simp [← h]
  exact Numeral.ne_of_mem_ofNat (by decide) hn rfl

end Node

namespace VariableName

-- ============================================================= fields

/-- A number is a field without sign exactly if it is not too large. -/
theorem natural_of_read? {cs : List Char} {n : Nat} {y : Int32}
    (h : Numeral.read? cs = some n) :
    natural cs = .ok y ↔ n ≤ maxField ∧ y = Int32.ofNat n := by
  unfold natural
  rw [h]
  by_cases hn : n ≤ maxField
  · simp [hn, eq_comm]
  · simp [hn]

/-- Attributes are the integers from the least to the largest. -/
theorem natAbs_le_maxField {x : Int32} (h : x ≠ Int32.minValue) :
    x.toInt.natAbs ≤ maxField := by
  have hlow := x.le_toInt
  have hhigh := x.toInt_lt
  have hne : x.toInt ≠ -2 ^ 31 := by
    rw [← Int32.toInt_minValue]
    exact fun heq => h (Int32.toInt_inj.1 heq)
  unfold maxField
  omega

theorem ofNat_natAbs_of_nonneg {x : Int32} (h : 0 ≤ x.toInt) :
    Int32.ofNat x.toInt.natAbs = x := by
  rw [← Int32.ofInt_eq_ofNat, Int.natAbs_of_nonneg h, Int32.ofInt_toInt]

theorem neg_ofNat_natAbs {x : Int32} (h : x.toInt < 0) :
    -Int32.ofNat x.toInt.natAbs = x := by
  rw [← Int32.ofInt_eq_ofNat, ← Int32.ofInt_neg,
    Int.ofNat_natAbs_of_nonpos (Int.le_of_lt h), Int.neg_neg, Int32.ofInt_toInt]

/-- A plain field is read back exactly if it is not negative. -/
theorem natural_plainField {x y : Int32} :
    natural (Node.plainField x) = .ok y ↔ 0 ≤ x ∧ y = x := by
  unfold Node.plainField
  have hread := Numeral.read?_ofInt x.toInt
  rw [Int32.le_iff_toInt_le, Int32.toInt_zero]
  by_cases hx : 0 ≤ x.toInt
  · rw [if_pos hx] at hread
    have hmin : x ≠ Int32.minValue := by
      rintro rfl
      exact absurd hx (by decide)
    rw [natural_of_read? hread, ofNat_natAbs_of_nonneg hx]
    simp [hx, natAbs_le_maxField hmin]
  · rw [if_neg hx] at hread
    unfold natural
    rw [hread]
    simp [hx]

/-- The magnitude is read before it is negated, so it has to fit on its
own. -/
theorem signed_signedField {x y : Int32} :
    signed (Node.signedField x) = .ok y ↔ x ≠ Int32.minValue ∧ y = x := by
  have hread := Numeral.read?_ofNat x.toInt.natAbs
  have hsign : x < 0 ↔ x.toInt < 0 := Int32.lt_iff_toInt_lt
  unfold Node.signedField
  by_cases hx : x < 0
  · rw [if_pos hx]
    unfold signed
    simp only
    by_cases hmin : x = Int32.minValue
    · subst hmin
      have hfails : natural (Numeral.ofNat Int32.minValue.toInt.natAbs)
          = .error (.tooLarge
            (String.ofList (Numeral.ofNat Int32.minValue.toInt.natAbs))) := by
        unfold natural
        rw [hread]
        exact if_neg (by decide)
      rw [hfails]
      simp
    · have hreads := (natural_of_read? hread).2 ⟨natAbs_le_maxField hmin, rfl⟩
      rw [hreads]
      simp [neg_ofNat_natAbs (hsign.1 hx), hmin, eq_comm]
  · rw [if_neg hx]
    have hmin : x ≠ Int32.minValue := by
      rintro rfl
      exact hx (by decide)
    have hreads := (natural_of_read? hread).2 ⟨natAbs_le_maxField hmin, rfl⟩
    unfold signed
    split
    · next digits heq => exact absurd heq.symm (Node.neg_ne_ofNat digits _)
    · rw [hreads, ofNat_natAbs_of_nonneg (Int.not_lt.1 (mt hsign.2 hx))]
      simp [hmin, eq_comm]

/-- A flag is read back as it was written. -/
theorem flag_flagField {b c : Bool} :
    flag (Node.flagField b) = .ok c ↔ c = b := by
  cases b with
  | false => simp [flag, Node.flagField, eq_comm]
  | true => simp [flag, Node.flagField, eq_comm]

-- ====================================================== nodes and arcs

/-- The attributes hold no separators. -/
theorem not_mem_fields {n : Node} {sep : Char} (hsep : sep = '|' ∨ sep = ',')
    {f : List Char} (hf : f ∈ n.fields) : sep ∉ f := by
  have hdigit : sep.isDigit = false := by
    rcases hsep with rfl | rfl <;> rfl
  have hsign : sep ≠ '-' ∧ sep ≠ 'n' ∧ sep ≠ 'e' ∧ sep ≠ 'g' := by
    rcases hsep with rfl | rfl <;> decide
  have hnumeral : ∀ k, sep ∉ Numeral.ofNat k :=
    fun k hk => Numeral.ne_of_mem_ofNat hdigit hk rfl
  have hplain : ∀ x, sep ∉ Node.plainField x := by
    intro x hx
    rcases Numeral.mem_ofInt hx with hd | hd
    · exact nomatch hdigit.symm.trans hd
    · exact hsign.1 hd
  have hsigned : ∀ x, sep ∉ Node.signedField x := by
    intro x
    unfold Node.signedField
    split
    · simp [hsign, hnumeral]
    · exact hnumeral _
  have hflag : ∀ b, sep ∉ Node.flagField b := by
    intro b
    rcases hsep with rfl | rfl <;> cases b <;> decide
  simp only [Node.fields, List.mem_cons, List.not_mem_nil, or_false] at hf
  rcases hf with rfl | rfl | rfl | rfl | rfl | rfl | rfl
  · exact hplain _
  · exact hplain _
  · exact hsigned _
  · exact hsigned _
  · exact hplain _
  · exact hflag _
  · exact hplain _

/-- A written node is taken apart into its attributes. -/
theorem split_node (n : Node) : Pieces.split '|' n.chars = n.fields :=
  Pieces.split_join (by simp [Node.fields]) fun f hf =>
    not_mem_fields (.inl rfl) hf

/-- A node is read back exactly if it is legible. -/
theorem node_chars {n m : Node} : node n.chars = .ok m ↔ n.Legible ∧ m = n := by
  unfold node
  rw [split_node]
  simp only [Node.fields, Action.except_bind_eq_ok, Action.except_pure_eq_ok,
    natural_plainField, signed_signedField, flag_flagField]
  constructor
  · rintro ⟨_, ⟨h₁, rfl⟩, _, ⟨h₂, rfl⟩, _, ⟨h₃, rfl⟩, _, ⟨h₄, rfl⟩, _,
      ⟨h₅, rfl⟩, _, rfl, _, ⟨h₇, rfl⟩, rfl⟩
    exact ⟨⟨⟨h₁, h₂, h₅, h₇⟩, h₃, h₄⟩, rfl⟩
  · rintro ⟨h, rfl⟩
    exact ⟨_, ⟨h.careerGroup, rfl⟩, _, ⟨h.career, rfl⟩, _, ⟨h.rank, rfl⟩, _,
      ⟨h.timeSlice, rfl⟩, _, ⟨h.status, rfl⟩, _, rfl, _, ⟨h.network, rfl⟩, rfl⟩

/-- No comma is written in a node. -/
theorem not_mem_chars (n : Node) : ',' ∉ n.chars :=
  Pieces.not_mem_join (by decide) fun f hf => not_mem_fields (.inr rfl) hf

/-- What stands between the brackets of a written arc is taken apart into its
nodes. -/
theorem split_nodes (m n : Node) : Pieces.split ',' (m.chars ++ ',' :: n.chars)
    = [m.chars, n.chars] := by
  rw [Pieces.split_append_cons (not_mem_chars m),
    Pieces.split_of_not_mem (not_mem_chars n)]

/-- The body of an arc is read back exactly if both its nodes are legible. -/
theorem body_chars {a b : Arc} :
    body (a.source.chars ++ ',' :: a.target.chars ++ [')']) = .ok b
      ↔ (a.source.Legible ∧ a.target.Legible) ∧ b = a := by
  unfold body
  rw [if_pos List.getLast?_concat, List.dropLast_concat, split_nodes]
  simp only [Action.except_bind_eq_ok, Action.except_pure_eq_ok, node_chars]
  constructor
  · rintro ⟨_, ⟨hs, rfl⟩, _, ⟨ht, rfl⟩, rfl⟩
    exact ⟨⟨hs, ht⟩, rfl⟩
  · rintro ⟨⟨hs, ht⟩, rfl⟩
    exact ⟨_, ⟨hs, rfl⟩, _, ⟨ht, rfl⟩, rfl⟩

/-- A name that an arc was written as is a pricing variable, so all depends
on its body. -/
theorem arc?_text (a : Arc) :
    arc? a.text = match body (a.source.chars ++ ',' :: a.target.chars
      ++ [')']) with
      | .ok b => .ok (some b)
      | .error flaw => .error ⟨a.text, flaw⟩ := by
  have hchars : a.text.toList = a.chars := String.toList_ofList
  unfold arc?
  rw [hchars]
  rfl

/-- A written arc is read back if and only if both of its nodes are
legible, and then as the arc that was written. -/
theorem arc?_text_eq_ok (a : Arc) (b : Option Arc) :
    arc? a.text = .ok b ↔ (a.source.Legible ∧ a.target.Legible)
      ∧ b = some a := by
  rw [arc?_text]
  cases hbody : body (a.source.chars ++ ',' :: a.target.chars ++ [')']) with
  | ok c =>
      obtain ⟨hlegible, rfl⟩ := body_chars.1 hbody
      simp [hlegible, eq_comm]
  | error flaw =>
      have hnot : ¬(a.source.Legible ∧ a.target.Legible) := by
        intro h
        rw [body_chars.2 ⟨h, rfl⟩] at hbody
        exact nomatch hbody
      simp [hnot]

/-- An arc whose source has the least rank. -/
def leastRank : Arc where
  source := ⟨0, 0, Int32.minValue, 0, 0, false, 0⟩
  target := ⟨0, 0, 0, 0, 0, false, 0⟩

/-- The least rank is written, but it is not read back. -/
theorem arc?_text_leastRank :
    leastRank.source.Plain ∧ leastRank.target.Plain
      ∧ leastRank.text = "y(0|0|neg2147483648|0|0|false|0,0|0|0|0|0|false|0)"
      ∧ arc? leastRank.text
        = .error ⟨leastRank.text, .notSigned "neg2147483648"⟩
      ∧ ¬∀ a : Arc, a.source.Plain → a.target.Plain →
        arc? a.text = .ok (some a) := by
  have hsource : leastRank.source.Plain :=
    ⟨by decide, by decide, by decide, by decide⟩
  have htarget : leastRank.target.Plain :=
    ⟨by decide, by decide, by decide, by decide⟩
  have hfails : arc? leastRank.text
      = .error ⟨leastRank.text, .notSigned "neg2147483648"⟩ := by
    decide +kernel
  refine ⟨hsource, htarget, by decide +kernel, hfails, ?_⟩
  intro h
  rw [h leastRank hsource htarget] at hfails
  exact nomatch hfails

end VariableName

-- ================================================== telling arcs apart

namespace Node

variable {m n : Node} {x y : Int32}

/-- Different numbers are written differently. -/
theorem plainField_injective (h : plainField x = plainField y) : x = y :=
  Int32.toInt_inj.1 (Numeral.ofInt_injective h)

/-- The magnitude tells attributes of one sign apart, and their first character
attributes of different signs. -/
theorem signedField_injective (h : signedField x = signedField y) : x = y := by
  have hmagnitude : ∀ {digits : List Char},
      digits = Numeral.ofNat x.toInt.natAbs →
      digits = Numeral.ofNat y.toInt.natAbs → (x < 0 ↔ y < 0) → x = y := by
    intro digits hx hy hsign
    rw [Int32.lt_iff_toInt_lt, Int32.lt_iff_toInt_lt, Int32.toInt_zero] at hsign
    have habs := Numeral.ofNat_injective (hx.symm.trans hy)
    apply Int32.toInt_inj.1
    omega
  unfold signedField at h
  by_cases hx : x < 0
  · rw [if_pos hx] at h
    by_cases hy : y < 0
    · rw [if_pos hy] at h
      simp only [List.cons.injEq, true_and] at h
      exact hmagnitude rfl h (iff_of_true hx hy)
    · rw [if_neg hy] at h
      exact absurd h (neg_ne_ofNat _ _)
  · rw [if_neg hx] at h
    by_cases hy : y < 0
    · rw [if_pos hy] at h
      exact absurd h.symm (neg_ne_ofNat _ _)
    · rw [if_neg hy] at h
      exact hmagnitude rfl h (iff_of_false hx hy)

theorem flagField_injective :
    ∀ {b c : Bool}, flagField b = flagField c → b = c := by decide

/-- The written attributes tell nodes apart. -/
theorem fields_injective (h : m.fields = n.fields) : m = n := by
  obtain ⟨m₁, m₂, m₃, m₄, m₅, m₆, m₇⟩ := m
  obtain ⟨n₁, n₂, n₃, n₄, n₅, n₆, n₇⟩ := n
  simp only [fields, List.cons.injEq, and_true] at h
  obtain ⟨h₁, h₂, h₃, h₄, h₅, h₆, h₇⟩ := h
  rw [plainField_injective h₁, plainField_injective h₂,
    signedField_injective h₃, signedField_injective h₄, plainField_injective h₅,
    flagField_injective h₆, plainField_injective h₇]

/-- Different nodes are written differently. -/
theorem chars_injective (h : m.chars = n.chars) : m = n := by
  apply fields_injective
  rw [← VariableName.split_node, h, VariableName.split_node]

end Node

/-- A written arc identifies the arc, whether it can be read back or not. -/
theorem Arc.text_inj {a b : Arc} : a.text = b.text ↔ a = b := by
  refine ⟨fun h => ?_, fun h => congrArg Arc.text h⟩
  have hchars : a.chars = b.chars := String.ofList_injective h
  simp only [Arc.chars, List.cons_append, List.cons.injEq, true_and] at hchars
  have hnodes := List.append_cancel_right hchars
  -- the text between the brackets has one comma
  have hpieces := VariableName.split_nodes a.source a.target
  rw [hnodes, VariableName.split_nodes] at hpieces
  simp only [List.cons.injEq, and_true] at hpieces
  obtain ⟨hsource, htarget⟩ := hpieces
  exact congrArg₂ Arc.mk (Node.chars_injective hsource).symm
    (Node.chars_injective htarget).symm

end FlowPricing
