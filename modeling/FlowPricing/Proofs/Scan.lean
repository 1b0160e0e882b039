/-
Reading items from front to back, where what is wrong with an item is judged
against the ones before it. A reading that stops at the first flaw does so
exactly (`Scan.exact`): it goes through if and only if all items are clean, and
otherwise the error it gives is that of the first flaw. For this it is enough
that a success only ever follows clean items and an error a first flaw.
-/
import Mathlib.Data.List.Induction

namespace FlowPricing

variable {α β ε : Type} {Clean : List α → Prop} {Flaw : List α → α → ε → Prop}
  {items earlier later : List α} {e e' : ε}

/-- Items are clean as long as none of them has a flaw after the ones before
it, and an item has one flaw at most. -/
structure Scan (Clean : List α → Prop) (Flaw : List α → α → ε → Prop) :
    Prop where
  concat : ∀ earlier x, Clean (earlier ++ [x]) ↔ Clean earlier ∧ ∀ e,
    ¬Flaw earlier x e
  unique : ∀ earlier x e e', Flaw earlier x e → Flaw earlier x e' → e = e'

/-- The first item with a flaw has this one. -/
def FirstFlaw (Clean : List α → Prop) (Flaw : List α → α → ε → Prop)
    (items : List α) (e : ε) : Prop :=
  ∃ earlier x later, items = earlier ++ x :: later ∧ Clean earlier
    ∧ Flaw earlier x e

namespace Scan

/-- What comes first in a clean list is clean. -/
theorem clean_of_append (h : Scan Clean Flaw)
    (hclean : Clean (earlier ++ later)) :
    Clean earlier := by
  induction later using List.reverseRecOn with
  | nil =>
      rw [List.append_nil] at hclean
      exact hclean
  | append_singleton later x ih =>
      rw [← List.append_assoc] at hclean
      exact ih ((h.concat _ x).1 hclean).1

/-- A clean list has no first flaw. -/
theorem not_firstFlaw (h : Scan Clean Flaw) (hclean : Clean items) (e : ε) :
    ¬FirstFlaw Clean Flaw items e := by
  intro hflaw
  obtain ⟨earlier, x, later, rfl, -, hx⟩ := hflaw
  rw [List.append_cons] at hclean
  exact ((h.concat earlier x).1 (h.clean_of_append hclean)).2 e hx

/-- There is only one first flaw. -/
theorem firstFlaw_unique (h : Scan Clean Flaw)
    (he : FirstFlaw Clean Flaw items e) (he' : FirstFlaw Clean Flaw items e') :
    e = e' := by
  -- neither of two flawed items stands before the other
  have hnot : ∀ {k k' : List α} {x : α} {l : List α} {e : ε}, Clean k' →
      Flaw k x e →
      k' ≠ k ++ x :: l := by
    intro k k' x l e hclean hx heq
    rw [heq, List.append_cons] at hclean
    exact ((h.concat k x).1 (h.clean_of_append hclean)).2 e hx
  obtain ⟨earlier, x, later, rfl, hclean, hx⟩ := he
  obtain ⟨earlier', x', later', heq, hclean', hx'⟩ := he'
  rcases List.append_eq_append_iff.1 heq with ⟨mid, hmid, hrest⟩
    | ⟨mid, hmid, hrest⟩
  · cases mid with
    | nil =>
        rw [List.append_nil] at hmid
        obtain ⟨rfl, -⟩ := List.cons.inj hrest
        exact h.unique _ _ _ _ hx (hmid ▸ hx')
    | cons y mid =>
        obtain ⟨rfl, -⟩ := List.cons.inj hrest
        exact absurd hmid (hnot hclean' hx)
  · cases mid with
    | nil =>
        rw [List.append_nil] at hmid
        obtain ⟨rfl, -⟩ := List.cons.inj hrest
        exact h.unique _ _ _ _ hx (hmid ▸ hx')
    | cons y mid =>
        obtain ⟨rfl, -⟩ := List.cons.inj hrest
        exact absurd hmid (hnot hclean hx')

/-- A reading that answers only after clean items, and refuses only for a first
flaw, does both exactly then. -/
theorem exact (h : Scan Clean Flaw) {x : Except ε β}
    (hok : ∀ b, x = .ok b → Clean items)
    (herror : ∀ e, x = .error e → FirstFlaw Clean Flaw items e) :
    ((∃ b, x = .ok b) ↔ Clean items) ∧ ∀ e, x = .error e
      ↔ FirstFlaw Clean Flaw items e := by
  cases x with
  | ok b =>
      have hclean := hok b rfl
      refine ⟨⟨fun _ => hclean, fun _ => ⟨b, rfl⟩⟩, fun e => ⟨nofun, ?_⟩⟩
      exact fun he => absurd he (h.not_firstFlaw hclean e)
  | error e₀ =>
      have hfirst := herror e₀ rfl
      refine ⟨⟨nofun, fun hclean => absurd hfirst (h.not_firstFlaw hclean e₀)⟩,
        fun e => ?_⟩
      constructor
      · exact fun he => herror e he
      · exact fun he => congrArg Except.error (h.firstFlaw_unique hfirst he)

end Scan

end FlowPricing
