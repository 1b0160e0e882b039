/-
Which paths a selection takes. Of the paths that are shorter than minus the
tolerance, `full` takes all in their order, and `shortest k` the `k` that come
first by length and group (`Foremost`). Two paths of one length and one group
have the same place, but no two networks have the same group; so what is taken
does not depend on the order in which the networks answered
(`Selection.select_exact`).

Lengths are compared twice, by `<` against the tolerance and by their ranks
when they are sorted. What passes the first test is a number, and there the
ranks agree with `<`.
-/
import FlowPricing.Pricing.Selection
import FlowPricing.Proofs.Weight.Rank

namespace FlowPricing

namespace Path

variable {p q : Path}

/-- `p` strictly precedes `q`: it is shorter in the total order of numbers, or
of the same length and of a smaller group. -/
def Before (p q : Path) : Prop :=
  Weight.rank p.length < Weight.rank q.length
    ∨ (Weight.rank p.length = Weight.rank q.length ∧ p.group < q.group)

/-- Paths neither of which precedes the other have the same length and the
same group. -/
theorem eq_of_not_before (h : ¬p.Before q) (h' : ¬q.Before p) :
    p.length = q.length ∧ p.group = q.group := by
  unfold Before at h h'
  have hrank : Weight.rank p.length = Weight.rank q.length := by omega
  refine ⟨Weight.eq_of_rank_eq hrank, Int32.le_antisymm ?_ ?_⟩
  · exact Int32.not_lt.1 fun hlt => h' (.inr ⟨hrank.symm, hlt⟩)
  · exact Int32.not_lt.1 fun hlt => h (.inr ⟨hrank, hlt⟩)

/-- What passes the test against a tolerance is a number, and not the length of
a path that leads nowhere. -/
theorem length_of_isImproving {tolerance : Float}
    (h : p.isImproving tolerance = true) :
    p.length.isNaN = false ∧ p.length ≠ Weight.infinity := by
  have hlt : p.length < -tolerance := by simpa [isImproving] using h
  refine ⟨((Weight.lt_iff _ _).1 hlt).1, fun hinf => ?_⟩
  rw [hinf] at hlt
  exact Weight.not_infinity_lt _ hlt

end Path

namespace Selection

variable {tolerance : Float} {paths paths' : List Path} {p q : Path}

-- ============================================================== sorting

/-- Paths are ordered by their lengths, and equal ones by their groups. -/
theorem atMost_iff (p q : Path) :
    atMost p q = true ↔ Weight.rank p.length < Weight.rank q.length
      ∨ (Weight.rank p.length = Weight.rank q.length ∧ p.group ≤ q.group) := by
  unfold atMost
  simp

/-- Paths are sorted by not letting a later one precede an earlier one. -/
theorem atMost_iff_not_before : atMost p q = true ↔ ¬q.Before p := by
  rw [atMost_iff]
  unfold Path.Before
  constructor
  · rintro (h | ⟨h, hg⟩) (h' | ⟨h', hg'⟩)
    · omega
    · omega
    · omega
    · exact Int32.not_lt.2 hg hg'
  · intro h
    rcases lt_trichotomy (Weight.rank p.length) (Weight.rank q.length) with
      hr | hr | hr
    · exact .inl hr
    · exact .inr ⟨hr, Int32.not_lt.1 fun hlt => h (.inr ⟨hr.symm, hlt⟩)⟩
    · exact absurd (.inl hr) h

/-- That order is transitive. -/
theorem atMost_trans (p q r : Path) (h₁ : atMost p q = true)
    (h₂ : atMost q r = true) :
    atMost p r = true := by
  rw [atMost_iff] at h₁ h₂ ⊢
  rcases h₁ with h₁ | ⟨h₁, hg₁⟩
  · rcases h₂ with h₂ | ⟨h₂, -⟩
    · exact .inl (Int.lt_trans h₁ h₂)
    · exact .inl (h₂ ▸ h₁)
  · rcases h₂ with h₂ | ⟨h₂, hg₂⟩
    · exact .inl (h₁ ▸ h₂)
    · exact .inr ⟨h₁.trans h₂, Int32.le_trans hg₁ hg₂⟩

theorem atMost_total (p q : Path) : (atMost p q || atMost q p) = true := by
  rw [Bool.or_eq_true, atMost_iff, atMost_iff]
  rcases lt_trichotomy (Weight.rank p.length) (Weight.rank q.length) with
    h | h | h
  · exact .inl (.inl h)
  · rcases Int32.le_total p.group q.group with hg | hg
    · exact .inl (.inr ⟨h, hg⟩)
    · exact .inr (.inr ⟨h.symm, hg⟩)
  · exact .inr (.inl h)

/-- A preferred path is not the longer one. -/
theorem not_lt_of_atMost {p q : Path} (h : atMost p q = true) :
    ¬q.length < p.length := by
  intro hlt
  have hrank := Weight.rank_lt_of_lt hlt
  rw [atMost_iff] at h
  omega

theorem sorted (paths : List Path) :
    (paths.mergeSort atMost).Pairwise fun p q => atMost p q = true :=
  List.pairwise_mergeSort atMost_trans atMost_total paths

/-- Lists of the same paths are sorted into the same order if no two of them
have one group. -/
theorem mergeSort_eq_of_perm (hgroups : (paths.map Path.group).Nodup)
    (h : paths.Perm paths') :
    paths'.mergeSort atMost = paths.mergeSort atMost := by
  have hperm : (paths'.mergeSort atMost).Perm (paths.mergeSort atMost) :=
    (List.mergeSort_perm paths' _).trans
      (h.symm.trans (List.mergeSort_perm paths _).symm)
  refine hperm.eq_of_pairwise ?_ (sorted paths') (sorted paths)
  intro p q hp hq hpq hqp
  have hmem : p ∈ paths :=
    h.mem_iff.2 ((List.mergeSort_perm paths' _).mem_iff.1 hp)
  have hmem' : q ∈ paths := (List.mergeSort_perm paths _).mem_iff.1 hq
  have hsame :=
    Path.eq_of_not_before (atMost_iff_not_before.1 hqp)
      (atMost_iff_not_before.1 hpq)
  exact List.inj_on_of_nodup_map hgroups hmem hmem' hsame.2

-- ============================================================== choosing

/-- `taken` are the first `k` of the paths, in their order, and `left` are the
others. -/
structure Foremost (k : Nat) (paths taken left : List Path) : Prop where
  perm : (taken ++ left).Perm paths
  length : taken.length = min k paths.length
  sorted : taken.Pairwise fun p q => ¬q.Before p
  first : ∀ p ∈ taken, ∀ q ∈ left, ¬q.Before p

/-- A cut through a sorted list leaves the first ones on one side. -/
theorem foremost_take (k : Nat) (paths : List Path) :
    Foremost k paths ((paths.mergeSort atMost).take k)
      ((paths.mergeSort atMost).drop k) := by
  have hperm := List.mergeSort_perm paths atMost
  have hsorted := (sorted paths).imp fun h => atMost_iff_not_before.1 h
  rw [← List.take_append_drop k (paths.mergeSort atMost),
    List.pairwise_append] at hsorted
  obtain ⟨htaken, -, hfirst⟩ := hsorted
  refine ⟨?_, ?_, htaken, hfirst⟩
  · rw [List.take_append_drop]
    exact hperm
  · rw [List.length_take, hperm.length_eq]

theorem select_shortest (k : Nat) :
    select (.shortest k) tolerance paths
      = ((paths.filter (·.isImproving tolerance)).mergeSort atMost).take k :=
  rfl

/-- Only paths that were found are ever chosen, and only if they are worth a
column. -/
theorem of_mem_select {s : Selection} (h : p ∈ s.select tolerance paths) :
    p ∈ paths ∧ p.isImproving tolerance = true := by
  unfold select at h
  cases s with
  | full => exact List.mem_filter.1 h
  | shortest k =>
      have hsorted := List.mem_of_mem_take h
      rw [List.mem_mergeSort] at hsorted
      exact List.mem_filter.1 hsorted

/-- None of them is chosen twice. -/
theorem select_subperm (s : Selection) (tolerance : Float) (paths : List Path) :
    (s.select tolerance paths).Subperm paths := by
  have himproving :=
    (List.filter_sublist (p := (·.isImproving tolerance)) (l := paths)).subperm
  cases s with
  | full => exact himproving
  | shortest k =>
      rw [select_shortest]
      refine (List.take_sublist k _).subperm.trans ?_
      exact (List.mergeSort_perm _ _).subperm.trans himproving

/-- A positive number bounds how many are chosen. -/
theorem length_select_ofCount {count : Nat} (h : 0 < count) (tolerance : Float)
    (paths : List Path) :
    ((ofCount count).select tolerance paths).length ≤ count := by
  cases count with
  | zero => exact absurd h (Nat.lt_irrefl 0)
  | succ count => exact List.length_take_le _ _

/-- The improving paths are taken in one order, and all that the number of paths
to take decides is how many. -/
theorem select_exact (tolerance : Float) (paths : List Path) :
    (∀ k, ∃ left, Foremost k (paths.filter (·.length < -tolerance))
        (select (.shortest k) tolerance paths) left)
    ∧ (∀ k, select (.shortest k) tolerance paths
      <+: select (.shortest (k + 1)) tolerance paths)
    ∧ ((paths.map Path.group).Nodup → ∀ paths', paths.Perm paths' → ∀ k,
        select (.shortest k) tolerance paths'
          = select (.shortest k) tolerance paths)
    ∧ select .full tolerance paths = paths.filter (·.length < -tolerance)
    ∧ (∀ k, (select .full tolerance paths).length ≤ k →
        (select (.shortest k) tolerance paths).Perm
          (select .full tolerance paths))
    ∧ ∀ s, ∀ p ∈ select s tolerance paths,
        p.length.isNaN = false ∧ p.length ≠ Weight.infinity := by
  refine ⟨fun k => ⟨_, foremost_take k _⟩, fun k => ?further,
    fun hgroups paths' h k => ?perm, rfl, fun k hk => ?all, fun s p hp =>
      Path.length_of_isImproving (of_mem_select hp).2⟩
  case further =>
    rw [select_shortest, select_shortest]
    exact List.take_prefix_take_left (Nat.le_succ k)
  case perm =>
    rw [select_shortest, select_shortest]
    congr 1
    apply mergeSort_eq_of_perm _ (h.filter _)
    exact hgroups.sublist (List.filter_sublist.map _)
  case all =>
    have hall : ((paths.filter (·.isImproving tolerance)).mergeSort
        atMost).length ≤ k := by
      rw [List.length_mergeSort]
      exact hk
    rw [select_shortest, List.take_of_length_le hall]
    exact List.mergeSort_perm _ _

/-- Answers of five networks. Two of them have the same length, and two are not
worth a column. -/
def sampleAnswers : List Path :=
  [⟨[], -1.0, 5⟩, ⟨[], -1.0, 2⟩, ⟨[], 0.0 / 0.0, 3⟩, ⟨[], -4.0, 7⟩,
    .unreachable 1]

/-- The sample answers are selected the same in either order. -/
theorem select_exact_sample :
    (sampleAnswers.map Path.group).Nodup
      ∧ select (.shortest 2) 0.0 sampleAnswers.reverse
        = select (.shortest 2) 0.0 sampleAnswers
      ∧ (select .full 0.0 sampleAnswers).length = 3
      ∧ (select (.shortest 3) 0.0 sampleAnswers).Perm
        (select .full 0.0 sampleAnswers) := by
  have hgroups : (sampleAnswers.map Path.group).Nodup := by decide
  have hlength : (select .full 0.0 sampleAnswers).length = 3 := by
    decide +kernel
  obtain ⟨-, -, hperm, -, hall, -⟩ := select_exact 0.0 sampleAnswers
  exact ⟨hgroups, hperm hgroups _ sampleAnswers.reverse_perm.symm 2, hlength,
    hall 3 hlength.le⟩

end Selection

end FlowPricing
