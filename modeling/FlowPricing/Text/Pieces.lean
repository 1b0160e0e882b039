/-
Text cut at a separator. `split` always gives at least one piece, and
two separators side by side have an empty piece between them, so that
nothing is lost: `join_split` puts the text together again, and
`split_join` takes apart what was joined from pieces that do not hold
the separator themselves.
-/
namespace FlowPricing.Pieces

/-- The pieces of a text between the separators in it. -/
def split (sep : Char) : List Char → List (List Char)
  | [] => [[]]
  | c :: cs =>
      if c = sep then [] :: split sep cs
      else match split sep cs with
        | [] => [[c]]
        | p :: ps => (c :: p) :: ps

/-- Pieces written one after another, with a separator between two. -/
def join (sep : Char) : List (List Char) → List Char
  | [] => []
  | [p] => p
  | p :: q :: ps => p ++ sep :: join sep (q :: ps)

theorem split_ne_nil (sep : Char) (cs : List Char) : split sep cs ≠ [] := by
  cases cs with
  | nil => simp [split]
  | cons c cs =>
      rw [split]
      split
      · simp
      · split <;> simp

/-- Joining the pieces gives the text back. -/
theorem join_split (sep : Char) (cs : List Char) :
    join sep (split sep cs) = cs := by
  induction cs with
  | nil => rfl
  | cons c cs ih =>
      rw [split]
      split
      · next h =>
          obtain ⟨p, ps, hp⟩ := List.exists_cons_of_ne_nil (split_ne_nil sep cs)
          rw [hp, join, ← hp, ih, h]
          rfl
      · split
        · next h => exact absurd h (split_ne_nil sep cs)
        · next p ps h =>
            rw [h] at ih
            cases ps with
            | nil => rw [join] at ih ⊢; rw [ih]
            | cons q ps => rw [join] at ih ⊢; rw [List.cons_append, ih]

/-- A text without the separator is one piece. -/
theorem split_of_not_mem {sep : Char} {p : List Char} (h : sep ∉ p) :
    split sep p = [p] := by
  induction p with
  | nil => rfl
  | cons c p ih =>
      rw [List.mem_cons, not_or] at h
      rw [split, if_neg (Ne.symm h.1), ih h.2]

/-- The first separator ends the first piece. -/
theorem split_append_cons {sep : Char} {p : List Char} (h : sep ∉ p)
    (rest : List Char) :
    split sep (p ++ sep :: rest) = p :: split sep rest := by
  induction p with
  | nil => simp [split]
  | cons c p ih =>
      rw [List.mem_cons, not_or] at h
      rw [List.cons_append, split, if_neg (Ne.symm h.1), ih h.2]

/-- Splitting takes apart what was joined. -/
theorem split_join {sep : Char} {ps : List (List Char)} (hne : ps ≠ [])
    (h : ∀ p ∈ ps, sep ∉ p) : split sep (join sep ps) = ps := by
  induction ps with
  | nil => exact absurd rfl hne
  | cons p ps ih =>
      cases ps with
      | nil => exact split_of_not_mem (h p (List.mem_cons_self ..))
      | cons q ps =>
          rw [join, split_append_cons (h p (List.mem_cons_self ..)),
            ih (by simp) fun r hr => h r (List.mem_cons_of_mem _ hr)]

end FlowPricing.Pieces
