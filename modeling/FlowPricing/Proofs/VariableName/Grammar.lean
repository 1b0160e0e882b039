/-
The grammar of the names that take part in pricing. A name spells an arc
(`VariableName.Spells`) as `y(block,block)`, a block its node as seven fields
between bars, and a field its attribute as a decimal numeral, one behind
`neg`, or a flag. Reading accepts the names that spell something, and no
others (`VariableName.arc?_grammar`). An arc may have many spellings, with
zeros in front or a negated zero; the written arc is the canonical one
(`VariableName.arc?_canonical`).

The reason is the same at each level: no separator occurs inside of what it
separates, so splitting a text finds the one way to take it apart, and joining
the pieces gives the text back.
-/
import FlowPricing.Proofs.VariableName
import Mathlib.Data.List.Induction

namespace FlowPricing

variable {cs block : List Char} {c : Char} {n : Nat} {x : Int32} {v : Node}
  {a : Arc} {name : String}

-- ============================================================ numerals

namespace Numeral

/-- The digits `cs` stand for `n`. There is at least one; zeros in front make no
difference. -/
inductive Denotes : List Char → Nat → Prop
  | digit {c : Char} (h : c.isDigit = true) : Denotes [c] (c.toNat - '0'.toNat)
  | snoc {cs : List Char} {n : Nat} {c : Char} (front : Denotes cs n)
      (h : c.isDigit = true) :
      Denotes (cs ++ [c]) (10 * n + (c.toNat - '0'.toNat))

/-- One more digit is worth its own value and ten times the rest. -/
theorem value_concat (cs : List Char) (c : Char) :
    value (cs ++ [c]) = 10 * value cs + (c.toNat - '0'.toNat) := by
  unfold value
  rw [Nat.ofDigitChars_append, Nat.ofDigitChars_cons, Nat.ofDigitChars_nil]

/-- A numeral is a text of digits that is not empty. -/
theorem isNumeral_iff :
    isNumeral cs = true ↔ cs ≠ [] ∧ ∀ c ∈ cs, c.isDigit = true := by
  simp [isNumeral]

theorem Denotes.isNumeral (h : Denotes cs n) : isNumeral cs = true := by
  rw [isNumeral_iff]
  induction h with
  | digit h => simp [h]
  | snoc front h ih =>
      refine ⟨by simp, ?_⟩
      intro c hc
      rcases List.mem_append.1 hc with hc | hc
      · exact ih.2 c hc
      · rw [List.mem_singleton.1 hc]
        exact h

/-- The number that digits denote is the value read from them. -/
theorem Denotes.value_eq (h : Denotes cs n) : value cs = n := by
  induction h with
  | digit h => simp [value, Nat.ofDigitChars_cons, Nat.ofDigitChars_nil]
  | snoc front h ih => rw [value_concat, ih]

/-- Every numeral denotes its value. -/
theorem denotes_value (h : isNumeral cs = true) : Denotes cs (value cs) := by
  obtain ⟨hne, hdigits⟩ := isNumeral_iff.1 h
  induction cs using List.reverseRecOn with
  | nil => exact absurd rfl hne
  | append_singleton cs c ih =>
      have hc := hdigits c (by simp)
      have hfront : ∀ c ∈ cs, c.isDigit = true :=
        fun c hc => hdigits c (by simp [hc])
      by_cases hnil : cs = []
      · subst hnil
        rw [List.nil_append, (Denotes.digit hc).value_eq]
        exact .digit hc
      · rw [value_concat]
        exact .snoc (ih (isNumeral_iff.2 ⟨hnil, hfront⟩) hnil hfront) hc

/-- Reading a number succeeds exactly on the digits that denote it. -/
theorem read?_eq_some_iff : read? cs = some n ↔ Denotes cs n := by
  unfold read?
  by_cases h : isNumeral cs = true
  · rw [if_pos h, Option.some_inj]
    constructor
    · intro hvalue
      rw [← hvalue]
      exact denotes_value h
    · exact Denotes.value_eq
  · rw [if_neg h]
    exact iff_of_false nofun fun hn => h hn.isNumeral

end Numeral

namespace VariableName

-- ============================================================= fields

/-- A field spells an attribute that is a natural number. -/
def Natural (x : Int32) (cs : List Char) : Prop :=
  ∃ n, Numeral.Denotes cs n ∧ n ≤ maxField ∧ x.toInt = n

/-- A field spells an attribute of either sign. -/
inductive Signed : Int32 → List Char → Prop
  | plain {x : Int32} {cs : List Char} (h : Natural x cs) : Signed x cs
  | negated {m x : Int32} {cs : List Char} (h : Natural m cs)
      (hx : x.toInt = -m.toInt) :
      Signed x ('n' :: 'e' :: 'g' :: cs)

/-- A number that fits a field is told by its integer value. -/
theorem eq_ofNat_iff (hn : n ≤ maxField) : x = Int32.ofNat n ↔ x.toInt = n := by
  have hvalue : (Int32.ofNat n).toInt = n := by
    apply Int32.toInt_ofNat_of_lt
    unfold maxField at hn
    omega
  rw [← hvalue, Int32.toInt_inj]

/-- A field without a sign is read exactly from its digits. -/
theorem natural_eq_ok : natural cs = .ok x ↔ Natural x cs := by
  cases hread : Numeral.read? cs with
  | none =>
      unfold natural
      rw [hread]
      apply iff_of_false nofun
      intro h
      obtain ⟨n, hn, -⟩ := h
      rw [Numeral.read?_eq_some_iff.2 hn] at hread
      cases hread
  | some n =>
      have hdenotes := Numeral.read?_eq_some_iff.1 hread
      rw [natural_of_read? hread]
      constructor
      · intro h
        obtain ⟨hn, hx⟩ := h
        exact ⟨n, hdenotes, hn, (eq_ofNat_iff hn).1 hx⟩
      · intro h
        obtain ⟨m, hm, hle, hx⟩ := h
        obtain rfl : m = n := hm.value_eq.symm.trans hdenotes.value_eq
        exact ⟨hle, (eq_ofNat_iff hle).2 hx⟩

/-- In such a field there is nothing but digits. -/
theorem Natural.not_mem (h : Natural x cs) (hc : c.isDigit = false) :
    c ∉ cs := by
  obtain ⟨n, hn, -⟩ := h
  intro hmem
  rw [(Numeral.isNumeral_iff.1 hn.isNumeral).2 c hmem] at hc
  cases hc

/-- A magnitude can be negated. -/
theorem Natural.toInt_neg (h : Natural x cs) : (-x).toInt = -x.toInt := by
  obtain ⟨n, -, hn, hx⟩ := h
  unfold maxField at hn
  rw [Int32.toInt_neg, Int.bmod_eq_of_le (by omega) (by omega)]

/-- Behind the mark of a negative number stands its magnitude. -/
theorem signed_negated {digits : List Char} :
    signed ('n' :: 'e' :: 'g' :: digits) = .ok x
    ↔ ∃ m, natural digits = .ok m ∧ -m = x := by
  unfold signed
  simp only
  cases natural digits with
  | ok m => simp
  | error flaw => simp

/-- Without the mark, a signed field is read like any other. -/
theorem signed_plain (h : ∀ digits, cs ≠ 'n' :: 'e' :: 'g' :: digits) :
    signed cs = .ok x ↔ natural cs = .ok x := by
  unfold signed
  simp only
  cases natural cs with
  | ok m => simp
  | error flaw => simp

/-- A signed field is read exactly from what the grammar allows. -/
theorem signed_eq_ok : signed cs = .ok x ↔ Signed x cs := by
  by_cases hneg : ∃ digits, cs = 'n' :: 'e' :: 'g' :: digits
  · obtain ⟨digits, rfl⟩ := hneg
    rw [signed_negated]
    constructor
    · intro h
      obtain ⟨m, hm, rfl⟩ := h
      have hnatural := natural_eq_ok.1 hm
      exact .negated hnatural hnatural.toInt_neg
    · intro h
      cases h with
      | plain h => exact absurd List.mem_cons_self (h.not_mem (c := 'n') rfl)
      | negated h hx =>
          exact ⟨_, natural_eq_ok.2 h,
            Int32.toInt_inj.1 (h.toInt_neg.trans hx.symm)⟩
  · have hplain : ∀ digits, cs ≠ 'n' :: 'e' :: 'g' :: digits :=
      fun digits heq => hneg ⟨digits, heq⟩
    rw [signed_plain hplain, natural_eq_ok]
    constructor
    · exact .plain
    · intro h
      cases h with
      | plain h => exact h
      | negated h hx => exact absurd rfl (hplain _)

/-- A flag is one of two words. -/
theorem flag_eq_ok {b : Bool} : flag cs = .ok b ↔ cs = Node.flagField b := by
  unfold flag
  by_cases htrue : cs = "true".toList
  · subst htrue
    cases b <;> decide
  · rw [if_neg htrue]
    by_cases hfalse : cs = "false".toList
    · subst hfalse
      cases b <;> decide
    · rw [if_neg hfalse]
      cases b with
      | false => exact iff_of_false nofun hfalse
      | true => exact iff_of_false nofun htrue

-- ============================================================== blocks

/-- Seven fields spell the attributes of a node. -/
inductive Fields : Node → List (List Char) → Prop
  | intro {v : Node} {f₁ f₂ f₃ f₄ f₅ f₆ f₇ : List Char}
      (careerGroup : Natural v.careerGroup f₁) (career : Natural v.career f₂)
      (rank : Signed v.rank f₃) (timeSlice : Signed v.timeSlice f₄)
      (status : Natural v.status f₅)
      (inTraining : f₆ = Node.flagField v.inTraining)
      (network : Natural v.network f₇) :
      Fields v [f₁, f₂, f₃, f₄, f₅, f₆, f₇]

/-- A block spells a node by its fields, with bars between them. -/
def Block (v : Node) (block : List Char) : Prop :=
  ∃ fs, Fields v fs ∧ block = Pieces.join '|' fs

/-- What keeps blocks and fields apart. -/
def IsSeparator (c : Char) : Prop := c = '|' ∨ c = ','

theorem IsSeparator.isDigit (h : IsSeparator c) : c.isDigit = false := by
  rcases h with rfl | rfl <;> rfl

/-- No separator stands inside a signed field. -/
theorem Signed.not_mem (h : Signed x cs) (hc : IsSeparator c) : c ∉ cs := by
  cases h with
  | plain h => exact h.not_mem hc.isDigit
  | negated h hx =>
      have hsign : c ≠ 'n' ∧ c ≠ 'e' ∧ c ≠ 'g' := by
        rcases hc with rfl | rfl <;> decide
      simp [hsign, h.not_mem hc.isDigit]

theorem not_mem_flagField (b : Bool) (hc : IsSeparator c) :
    c ∉ Node.flagField b := by
  rcases hc with rfl | rfl <;> cases b <;> decide

/-- No separator occurs in a field. -/
theorem Fields.not_mem {fs : List (List Char)} (h : Fields v fs)
    (hc : IsSeparator c) :
    ∀ f ∈ fs, c ∉ f := by
  cases h with
  | intro careerGroup career rank timeSlice status inTraining network =>
      subst inTraining
      simp [careerGroup.not_mem hc.isDigit, career.not_mem hc.isDigit,
        rank.not_mem hc, timeSlice.not_mem hc, status.not_mem hc.isDigit,
        not_mem_flagField v.inTraining hc, network.not_mem hc.isDigit]

/-- A node has at least one field. -/
theorem Fields.ne_nil {fs : List (List Char)} (h : Fields v fs) : fs ≠ [] := by
  cases h
  simp

/-- A node is read exactly from seven fields that its block is split into. -/
theorem node_eq_ok : node block = .ok v ↔ Block v block := by
  constructor
  · intro h
    unfold node at h
    split at h
    · next f₁ f₂ f₃ f₄ f₅ f₆ f₇ hsplit =>
        simp only [Action.except_bind_eq_ok, Action.except_pure_eq_ok,
          natural_eq_ok, signed_eq_ok, flag_eq_ok] at h
        obtain ⟨_, h₁, _, h₂, _, h₃, _, h₄, _, h₅, _, h₆, _, h₇, rfl⟩ := h
        have hjoin := Pieces.join_split '|' block
        rw [hsplit] at hjoin
        exact ⟨_, .intro h₁ h₂ h₃ h₄ h₅ h₆ h₇, hjoin.symm⟩
    · cases h
  · intro h
    obtain ⟨fs, hfields, rfl⟩ := h
    unfold node
    rw [Pieces.split_join hfields.ne_nil (hfields.not_mem (.inl rfl))]
    cases hfields with
    | intro h₁ h₂ h₃ h₄ h₅ h₆ h₇ =>
        simp only [Action.except_bind_eq_ok, Action.except_pure_eq_ok,
          natural_eq_ok, signed_eq_ok, flag_eq_ok]
        exact ⟨_, h₁, _, h₂, _, h₃, _, h₄, _, h₅, _, h₆, _, h₇, rfl⟩

/-- No comma stands inside a node. -/
theorem Block.not_mem (h : Block v block) : ',' ∉ block := by
  obtain ⟨fs, hfields, rfl⟩ := h
  exact Pieces.not_mem_join (by decide) (hfields.not_mem (.inr rfl))

-- =============================================================== names

/-- A body is two nodes around a comma, closed by a parenthesis. -/
theorem body_eq_ok : body cs = .ok a
    ↔ ∃ s t, Block a.source s ∧ Block a.target t
      ∧ cs = s ++ ',' :: t ++ [')'] := by
  constructor
  · intro h
    unfold body at h
    split at h
    · next hlast =>
        split at h
        · next s t hsplit =>
            simp only [Action.except_bind_eq_ok, Action.except_pure_eq_ok,
              node_eq_ok] at h
            obtain ⟨_, hs, _, ht, rfl⟩ := h
            have hjoin := Pieces.join_split ',' cs.dropLast
            rw [hsplit] at hjoin
            refine ⟨s, t, hs, ht, ?_⟩
            rw [← List.dropLast_append_getLast? _ hlast, ← hjoin]
            rfl
        · cases h
    · cases h
  · intro h
    obtain ⟨s, t, hs, ht, rfl⟩ := h
    have hsplit : Pieces.split ',' (s ++ ',' :: t) = [s, t] := by
      rw [Pieces.split_append_cons hs.not_mem,
        Pieces.split_of_not_mem ht.not_mem]
    unfold body
    rw [if_pos List.getLast?_concat, List.dropLast_concat, hsplit]
    simp only [Action.except_bind_eq_ok, Action.except_pure_eq_ok, node_eq_ok]
    exact ⟨_, hs, _, ht, rfl⟩

/-- The name spells an arc. -/
def Spells (a : Arc) (name : String) : Prop :=
  ∃ s t, Block a.source s ∧ Block a.target t
    ∧ name.toList = 'y' :: '(' :: (s ++ ',' :: t ++ [')'])

/-- A pricing variable is told by how its name begins. -/
theorem isPricing_iff :
    isPricing name = true ↔ "y(".toList <+: name.toList := by
  have hopening : "y(".toList = ['y', '('] := rfl
  unfold isPricing
  rw [hopening]
  split
  · next rest hname =>
      rw [hname]
      exact iff_of_true rfl ⟨rest, rfl⟩
  · next hother =>
      apply iff_of_false nofun
      intro h
      obtain ⟨rest, hname⟩ := h
      exact hother rest hname.symm

/-- Any other name is no arc, and no error either. -/
theorem arc?_of_not_isPricing (h : isPricing name = false) :
    arc? name = .ok none := by
  unfold isPricing at h
  unfold arc?
  split at h
  · cases h
  · rfl

/-- A name that begins like an arc is what its body is. -/
theorem arc?_of_toList {rest : List Char}
    (hname : name.toList = 'y' :: '(' :: rest) :
    (∀ a, arc? name = .ok (some a) ↔ body rest = .ok a)
      ∧ (∀ flaw, arc? name = .error ⟨name, flaw⟩ ↔ body rest = .error flaw)
      ∧ arc? name ≠ .ok none := by
  unfold arc?
  rw [hname]
  simp only
  cases body rest with
  | ok b => simp
  | error flaw => simp

/-- A name spells an arc exactly if its body is read as one. -/
theorem spells_iff {rest : List Char}
    (hname : name.toList = 'y' :: '(' :: rest) :
    Spells a name ↔ body rest = .ok a := by
  rw [body_eq_ok]
  unfold Spells
  rw [hname]
  simp only [List.cons.injEq, true_and]

theorem Spells.isPricing (h : Spells a name) : isPricing name = true := by
  obtain ⟨s, t, -, -, hname⟩ := h
  rw [isPricing_iff, hname]
  exact ⟨_, rfl⟩

/-- Reading accepts exactly the names of the grammar. A name is no arc exactly
if it does not begin with `y(`; it is read as an arc exactly if it spells that
arc; and it is refused, as the whole name, exactly if it begins like an arc
and spells none. -/
theorem arc?_grammar (name : String) :
    (isPricing name = true ↔ "y(".toList <+: name.toList)
      ∧ (arc? name = .ok none ↔ isPricing name = false)
      ∧ (∀ a, arc? name = .ok (some a) ↔ Spells a name)
      ∧ ((∃ flaw, arc? name = .error ⟨name, flaw⟩)
          ↔ isPricing name = true ∧ ¬∃ a, Spells a name) := by
  refine ⟨isPricing_iff, ?_⟩
  cases hpricing : isPricing name with
  | false =>
      have hnot : ∀ a, ¬Spells a name := by
        intro a ha
        rw [ha.isPricing] at hpricing
        cases hpricing
      simp [arc?_of_not_isPricing hpricing, hnot]
  | true =>
      obtain ⟨rest, hrest⟩ := isPricing_iff.1 hpricing
      have hname : name.toList = 'y' :: '(' :: rest := hrest.symm
      obtain ⟨hread, hrefused, hnever⟩ := arc?_of_toList hname
      have hspells := fun a => spells_iff (a := a) hname
      refine ⟨iff_of_false hnever nofun,
        fun a => (hread a).trans (hspells a).symm, ?_⟩
      simp only [hrefused, hspells, true_and]
      cases body rest with
      | ok b => simp
      | error flaw => simp

/-- Leading zeros are read over, and so is the sign of zero. -/
example : arc? "y(007|0|neg0|neg10|0|true|1,0|0|35|neg1|0|false|1)"
    = .ok (some ⟨⟨7, 0, 0, -10, 0, true, 1⟩, ⟨0, 0, 35, -1, 0, false, 1⟩⟩) := by
  decide +kernel

-- ===================================================== canonical names

/-- A number read without a sign is not negative. -/
theorem Natural.nonneg (h : Natural x cs) : 0 ≤ x := by
  obtain ⟨n, -, -, hx⟩ := h
  rw [Int32.le_iff_toInt_le, Int32.toInt_zero, hx]
  exact Int.natCast_nonneg n

/-- A magnitude fits an attribute before it is negated, and that of the least
integer does not. -/
theorem Signed.ne_minValue (h : Signed x cs) : x ≠ Int32.minValue := by
  intro hmin
  cases h with
  | plain h =>
      have hle := h.nonneg
      rw [hmin] at hle
      exact absurd hle (by decide)
  | negated h hx =>
      obtain ⟨n, -, hn, hm⟩ := h
      rw [hmin, Int32.toInt_minValue, hm] at hx
      unfold maxField at hn
      omega

/-- Nodes that were read have a text that can be read back. -/
theorem Fields.legible {fs : List (List Char)} (h : Fields v fs) :
    v.Legible := by
  cases h with
  | intro careerGroup career rank timeSlice status inTraining network =>
      exact {
        careerGroup := careerGroup.nonneg
        career := career.nonneg
        rank := rank.ne_minValue
        timeSlice := timeSlice.ne_minValue
        status := status.nonneg
        network := network.nonneg }

/-- What can be spelled can be written so that it is read back. -/
theorem Spells.legible (h : Spells a name) :
    a.source.Legible ∧ a.target.Legible := by
  obtain ⟨s, t, ⟨fs, hs, -⟩, ⟨ft, ht, -⟩, -⟩ := h
  exact ⟨hs.legible, ht.legible⟩

/-- A name is read as an arc exactly if it spells it. -/
theorem arc?_eq_some : arc? name = .ok (some a) ↔ Spells a name := by
  cases hpricing : isPricing name with
  | false =>
      rw [arc?_of_not_isPricing hpricing]
      apply iff_of_false nofun
      intro h
      rw [h.isPricing] at hpricing
      cases hpricing
  | true =>
      obtain ⟨rest, hrest⟩ := isPricing_iff.1 hpricing
      have hname : name.toList = 'y' :: '(' :: rest := hrest.symm
      rw [spells_iff hname]
      exact (arc?_of_toList hname).1 a

/-- The text of a legible arc is read back as the arc. -/
theorem arc?_text_of_legible (hs : a.source.Legible) (ht : a.target.Legible) :
    arc? a.text = .ok (some a) := by
  rw [arc?_text, body_chars.2 ⟨⟨hs, ht⟩, rfl⟩]

/-- Every accepted name has a canonical form, the written arc. It is accepted
and stands for the same arc; two accepted names stand for the same arc exactly
if they have the same canonical form; and the arcs that names stand for are
those with legible nodes, no more and no fewer. -/
theorem arc?_canonical :
    (∀ name a, arc? name = .ok (some a) → arc? a.text = .ok (some a))
      ∧ (∀ m n a b, arc? m = .ok (some a) → arc? n = .ok (some b) →
        (a = b ↔ a.text = b.text))
      ∧ ∀ a, (∃ name, arc? name = .ok (some a))
        ↔ a.source.Legible ∧ a.target.Legible := by
  have hcanonical : ∀ name a, arc? name = .ok (some a) →
      arc? a.text = .ok (some a) := by
    intro name a h
    obtain ⟨hs, ht⟩ := (arc?_eq_some.1 h).legible
    exact arc?_text_of_legible hs ht
  refine ⟨hcanonical, ?_, ?_⟩
  · intro m n a b hm hn
    refine ⟨congrArg Arc.text, fun htext => ?_⟩
    have ha := hcanonical m a hm
    rw [htext, hcanonical n b hn] at ha
    exact (Option.some.inj (Except.ok.inj ha)).symm
  · intro a
    constructor
    · intro h
      obtain ⟨name, hname⟩ := h
      exact (arc?_eq_some.1 hname).legible
    · intro h
      exact ⟨a.text, arc?_text_of_legible h.1 h.2⟩

/-- An arc with a zero that may be negated, and with attributes that may be
padded. -/
def sampleArc : Arc := ⟨⟨7, 0, 0, -10, 0, true, 1⟩, ⟨0, 0, 35, -1, 0, false, 1⟩⟩

/-- Two spellings of one arc, and its canonical form. -/
theorem arc?_canonical_sample :
    arc? "y(007|0|neg0|neg10|0|true|1,0|0|35|neg1|0|false|1)"
      = .ok (some sampleArc)
      ∧ arc? "y(7|00|0|neg010|0|true|1,0|0|35|neg1|0|false|01)"
        = .ok (some sampleArc)
      ∧ sampleArc.text = "y(7|0|0|neg10|0|true|1,0|0|35|neg1|0|false|1)"
      ∧ arc? sampleArc.text = .ok (some sampleArc)
      ∧ sampleArc.source.Legible ∧ sampleArc.target.Legible := by
  have hfirst : arc? "y(007|0|neg0|neg10|0|true|1,0|0|35|neg1|0|false|1)"
      = .ok (some sampleArc) := by
    decide +kernel
  have hsecond : arc? "y(7|00|0|neg010|0|true|1,0|0|35|neg1|0|false|01)"
      = .ok (some sampleArc) := by
    decide +kernel
  obtain ⟨hcanonical, -, hlegible⟩ := arc?_canonical
  exact ⟨hfirst, hsecond, by decide +kernel, hcanonical _ _ hfirst,
    (hlegible _).1 ⟨_, hfirst⟩⟩

end VariableName

end FlowPricing
