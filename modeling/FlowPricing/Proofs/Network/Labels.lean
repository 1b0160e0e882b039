/-
What relaxation over the topological order arrives at. The invariant has
two halves, both about the vertices expanded so far. `Grown`: every label
but the start's was reached over an arc out of an expanded vertex, and is
that vertex's distance plus the arc's weight. `Tight`: no arc out of an
expanded vertex offers anything less than the label it leads to.

An expanded vertex is never relabelled, since arcs go forward in the
order, so both halves survive the next expansion. None of this asks
anything of the weights: distances only ever go down, and a distance that
is not a number is never entered.

From the halves: walking back along the labels leads to the start and
spells out a walk that weighs exactly the distance (`traceBack_spec`), and
if the walks to a vertex have finite totals, none is shorter
(`distance_le_total`).
-/
import FlowPricing.Proofs.Network.Route
import FlowPricing.Proofs.Weight.Units
import Mathlib.Data.List.Induction

namespace FlowPricing.Labels

variable {weights : Table Arc Float} {order done : List Node} {s u v : Node}
  {labels : Labels} {base : Float} {e : Arc × Float} {l : List (Arc × Float)}

-- ======================================================== single steps

/-- The distance of a vertex is that of its label. -/
theorem distance_of_get? {lab : Label} (h : labels.get? v = some lab) :
    labels.distance v = lab.distance := by
  unfold distance
  rw [h]

theorem distance_congr {labels' : Labels} (h : labels'.get? v = labels.get? v) :
    labels'.distance v = labels.distance v := by
  unfold distance
  rw [h]

theorem distance_insert (lab : Label) :
    Labels.distance (labels.insert v lab) v = lab.distance :=
  distance_of_get? (by rw [Table.get?_insert, if_pos rfl])

/-- An arc only touches the label of the vertex it leads to. -/
theorem get?_relax_of_ne (h : e.1.target ≠ v) :
    (relax base labels e).get? v = labels.get? v := by
  unfold relax
  simp only
  split
  · rw [Table.get?_insert, if_neg h]
  · rfl

/-- What following an arc does to the label it leads to. -/
theorem distance_relax_target (base : Float) (labels : Labels)
    (e : Arc × Float) :
    (relax base labels e).distance e.1.target = base + e.2
      ∨ (relax base labels e).distance e.1.target = labels.distance e.1.target
        ∧ ¬base + e.2 < labels.distance e.1.target := by
  unfold relax
  simp only
  split
  · exact .inl (distance_insert _)
  · next h => exact .inr ⟨rfl, h⟩

/-- Following an arc lowers a distance or leaves it. -/
theorem distance_relax (base : Float) (labels : Labels) (e : Arc × Float)
    (v : Node) :
    (relax base labels e).distance v = labels.distance v
      ∨ (relax base labels e).distance v < labels.distance v := by
  by_cases hv : e.1.target = v
  · subst hv
    unfold relax
    simp only
    split
    · next h =>
        right
        rw [distance_insert]
        exact h
    · exact .inl rfl
  · exact .inl (distance_congr (get?_relax_of_ne hv))

/-- Following several arcs lowers a distance or leaves it. -/
theorem distance_foldl_relax (v : Node) :
    (l.foldl (relax base) labels).distance v = labels.distance v
      ∨ (l.foldl (relax base) labels).distance v < labels.distance v := by
  induction l generalizing labels with
  | nil => exact .inl rfl
  | cons e l ih =>
      rw [List.foldl_cons]
      have hrest := @ih (relax base labels e)
      rcases hrest with h | h
      · rw [h]
        exact distance_relax base labels e v
      · rcases distance_relax base labels e v with h' | h'
        · rw [h'] at h
          exact .inr h
        · exact .inr (Weight.lt_trans h h')

/-- What was not less than a distance is not less than a lower one. -/
theorem not_lt_of_lowered {c d d' : Float} (h : d' = d ∨ d' < d) (hc : ¬c < d) :
    ¬c < d' := by
  rcases h with rfl | h
  · exact hc
  · exact fun hlt => hc (Weight.lt_trans hlt h)

/-- Once arcs have been followed, none of them offers anything less. -/
theorem not_lt_foldl_relax (base : Float) (labels : Labels) (he : e ∈ l) :
    ¬base + e.2 < (l.foldl (relax base) labels).distance e.1.target := by
  induction l generalizing labels with
  | nil => exact absurd he List.not_mem_nil
  | cons e' l ih =>
      rw [List.foldl_cons]
      rcases List.mem_cons.1 he with rfl | he
      · apply not_lt_of_lowered (distance_foldl_relax _)
        rcases distance_relax_target base labels e with h | ⟨h, hnot⟩
        · rw [h]
          exact Weight.lt_irrefl _
        · rw [h]
          exact hnot
      · exact ih _ he

/-- Arcs to other vertices leave a label alone. -/
theorem get?_foldl_relax_of_ne (h : ∀ e ∈ l, e.1.target ≠ v) :
    (l.foldl (relax base) labels).get? v = labels.get? v := by
  induction l generalizing labels with
  | nil => rfl
  | cons e l ih =>
      rw [List.foldl_cons, ih fun e' he' => h e' (List.mem_cons_of_mem e he')]
      exact get?_relax_of_ne (h e List.mem_cons_self)

-- ======================================================= the invariant

/-- Where the labels come from, once the vertices in `done` have been
expanded. -/
structure Grown (weights : Table Arc Float) (order : List Node) (s : Node)
    (done : List Node) (labels : Labels) : Prop where
  start : labels.get? s = some ⟨0.0, none⟩
  grown : ∀ v lab, labels.get? v = some lab → v = s ∨ ∃ a, lab.via = some a
    ∧ a ∈ weights.keys ∧ a.target = v ∧ a.source ∈ done
    ∧ (labels.get? a.source).isSome = true
    ∧ lab.distance = labels.distance a.source + weightOf weights a
  after : ∀ v, (labels.get? v).isSome = true → order.idxOf s ≤ order.idxOf v
  number : ∀ v, (labels.distance v).isNaN = false

/-- No arc out of an expanded vertex offers anything less. -/
def Tight (weights : Table Arc Float) (done : List Node)
    (labels : Labels) : Prop :=
  ∀ a ∈ weights.keys, a.source ∈ done →
    (labels.distance a.source).isInf = false →
    ¬labels.distance a.source + weightOf weights a < labels.distance a.target

/-- Before the search the start alone has a label. -/
theorem grown_start : Grown weights order s [] (Labels.start s) := by
  have hget : ∀ v, (Labels.start s).get? v = if s = v then some ⟨0.0, none⟩
      else none :=
    fun v => by rw [Labels.start, Table.get?_insert, Table.get?_empty]
  have hreached : ∀ v lab, (Labels.start s).get? v = some lab → v = s := by
    intro v lab h
    rw [hget] at h
    split at h
    · next hv => exact hv.symm
    · exact nomatch h
  refine ⟨by rw [hget, if_pos rfl], ?_, ?_, ?_⟩
  · exact fun v lab h => .inl (hreached v lab h)
  · intro v h
    obtain ⟨lab, hlab⟩ := Option.isSome_iff_exists.1 h
    rw [hreached v lab hlab]
  · intro v
    by_cases hv : s = v
    · rw [distance_of_get? (by rw [hget, if_pos hv])]
      rfl
    · unfold distance
      rw [hget, if_neg hv]
      exact Weight.isNaN_infinity

theorem Grown.mono {done' : List Node} (h : Grown weights order s done labels)
    (hsub : done ⊆ done') : Grown weights order s done' labels := by
  refine ⟨h.start, ?_, h.after, h.number⟩
  intro v lab hv
  rcases h.grown v lab hv with hs | ⟨a, hvia, hin, ht, hdone, hrest⟩
  · exact .inl hs
  · exact .inr ⟨a, hvia, hin, ht, hsub hdone, hrest⟩

/-- Following an arc out of an expanded vertex to one that is not. -/
theorem Grown.relax (h : Grown weights order s done labels)
    (hin : e.1 ∈ weights.keys) (hw : weightOf weights e.1 = e.2)
    (hdone : e.1.source ∈ done)
    (hreached : (labels.get? e.1.source).isSome = true)
    (hnew : e.1.target ∉ done)
    (hforward : order.idxOf e.1.source < order.idxOf e.1.target) :
    Grown weights order s done
      (relax (labels.distance e.1.source) labels e) := by
  have hafter := h.after _ hreached
  have hfar : order.idxOf s < order.idxOf e.1.target :=
    Nat.lt_of_le_of_lt hafter hforward
  have hkeep : ∀ w ∈ done,
      (Labels.relax (labels.distance e.1.source) labels e).get? w
        = labels.get? w :=
    fun w hw => get?_relax_of_ne fun heq => hnew (heq ▸ hw)
  have hs : (Labels.relax (labels.distance e.1.source) labels e).get? s
      = labels.get? s :=
    get?_relax_of_ne fun heq => by rw [heq] at hfar; exact Nat.lt_irrefl _ hfar
  by_cases hlt : labels.distance e.1.source + e.2 < labels.distance e.1.target
  · have hset : Labels.relax (labels.distance e.1.source) labels e
        = labels.insert e.1.target
          ⟨labels.distance e.1.source + e.2, some e.1⟩ := by
      unfold Labels.relax
      exact if_pos hlt
    refine ⟨hs.trans h.start, ?_, ?_, ?_⟩
    · intro v lab hv
      by_cases heq : e.1.target = v
      · -- the label just entered
        rw [hset, Table.get?_insert, if_pos heq] at hv
        obtain rfl := Option.some.inj hv
        refine .inr ⟨e.1, rfl, hin, heq, hdone, ?_, ?_⟩
        · rw [hkeep _ hdone]
          exact hreached
        · rw [distance_congr (hkeep _ hdone), hw]
      · rw [get?_relax_of_ne heq] at hv
        rcases h.grown v lab hv with hs | ⟨a, hvia, hain, ht, had, har, hdist⟩
        · exact .inl hs
        · refine .inr ⟨a, hvia, hain, ht, had, ?_, ?_⟩
          · rw [hkeep _ had]
            exact har
          · rw [distance_congr (hkeep _ had)]
            exact hdist
    · intro v hv
      by_cases heq : e.1.target = v
      · rw [← heq]
        exact hfar.le
      · rw [get?_relax_of_ne heq] at hv
        exact h.after v hv
    · intro v
      rcases distance_relax (labels.distance e.1.source) labels e v with hd | hd
      · rw [hd]
        exact h.number v
      · exact ((Weight.lt_iff _ _).1 hd).1
  · have hset : Labels.relax (labels.distance e.1.source) labels e
        = labels := by
      unfold Labels.relax
      exact if_neg hlt
    rw [hset]
    exact h

/-- Following arcs out of one expanded vertex. -/
theorem Grown.foldl_relax (h : Grown weights order s done labels)
    (hdone : u ∈ done) (hreached : (labels.get? u).isSome = true)
    (hbase : labels.distance u = base)
    (hl : ∀ e ∈ l, e.1.source = u ∧ e.1 ∈ weights.keys
      ∧ weightOf weights e.1 = e.2
      ∧ e.1.target ∉ done ∧ order.idxOf u < order.idxOf e.1.target) :
    Grown weights order s done (l.foldl (Labels.relax base) labels) := by
  induction l generalizing labels with
  | nil => exact h
  | cons e l ih =>
      obtain ⟨hu, hin, hw, hnew, hforward⟩ := hl e List.mem_cons_self
      have hkeep : (Labels.relax base labels e).get? u = labels.get? u :=
        get?_relax_of_ne fun heq => hnew (heq ▸ hdone)
      have hnext : Grown weights order s done (Labels.relax base labels e) := by
        subst hbase hu
        exact h.relax hin hw hdone hreached hnew hforward
      rw [List.foldl_cons]
      apply ih hnext
      · rw [hkeep]
        exact hreached
      · rw [distance_congr hkeep]
        exact hbase
      · exact fun e' he' => hl e' (List.mem_cons_of_mem e he')

-- =========================================================== expansion

/-- What the weighted arcs out of a vertex are. -/
theorem mem_outgoing (hn : weights.Nodup) :
    e ∈ outgoing weights u
      ↔ e.1.source = u ∧ e.1 ∈ weights.keys ∧ weightOf weights e.1 = e.2 := by
  unfold outgoing
  rw [List.mem_filter, decide_eq_true_iff]
  constructor
  · intro h
    obtain ⟨hin, hu⟩ := h
    have hget : weights.get? e.1 = some e.2 := (Table.get?_eq_some_iff hn).2 hin
    refine ⟨hu, List.mem_map_of_mem hin, ?_⟩
    unfold weightOf
    rw [hget]
    rfl
  · intro h
    obtain ⟨hu, hin, hw⟩ := h
    obtain ⟨w, hget⟩ :=
      Option.isSome_iff_exists.1 ((Table.isSome_get?_iff weights e.1).2 hin)
    refine ⟨?_, hu⟩
    unfold weightOf at hw
    rw [hget, Option.getD_some] at hw
    subst hw
    exact (Table.get?_eq_some_iff hn).1 hget

/-- The weights and the order a search goes by: no arc has two weights, no
vertex has two places, and every arc goes forward. -/
structure Ordered (weights : Table Arc Float) (order : List Node) : Prop where
  weights_nodup : weights.Nodup
  order_nodup : order.Nodup
  forward : Order.Forward weights.keys order

/-- As many vertices come before the next one as are expanded. -/
theorem Ordered.idxOf_next {todo : List Node} (h : Ordered weights order)
    (hsplit : order = done ++ u :: todo) : order.idxOf u = done.length := by
  have hnodup := h.order_nodup
  rw [hsplit] at hnodup
  have hu : u ∉ done :=
    fun hin => (List.disjoint_of_nodup_append hnodup) hin List.mem_cons_self
  rw [hsplit, List.idxOf_append_of_notMem hu, List.idxOf_cons_self,
    Nat.add_zero]

/-- The expanded vertices are before the next one. -/
theorem Ordered.idxOf_lt {todo : List Node} (h : Ordered weights order)
    (hsplit : order = done ++ u :: todo) (hv : v ∈ done) :
    order.idxOf v < order.idxOf u := by
  rw [h.idxOf_next hsplit, hsplit, List.idxOf_append_of_mem hv]
  exact List.idxOf_lt_length_of_mem hv

/-- An arc out of the next vertex leads to one that is not expanded. -/
theorem Ordered.target_not_mem {todo : List Node} (h : Ordered weights order)
    (hsplit : order = done ++ u :: todo) {a : Arc} (ha : a ∈ weights.keys)
    (hu : a.source = u) : a.target ∉ done ++ [u] := by
  intro hmem
  have hlt := h.forward a ha
  rw [hu] at hlt
  rcases List.mem_append.1 hmem with hin | hin
  · exact Nat.lt_asymm hlt (h.idxOf_lt hsplit hin)
  · rw [List.mem_singleton.1 hin] at hlt
    exact Nat.lt_irrefl _ hlt

/-- The weighted arcs out of the next vertex all lead on. -/
theorem Ordered.outgoing {todo : List Node} (ho : Ordered weights order)
    (hsplit : order = done ++ u :: todo) (he : e ∈ Labels.outgoing weights u) :
    e.1.source = u ∧ e.1 ∈ weights.keys ∧ weightOf weights e.1 = e.2
      ∧ e.1.target ∉ done ++ [u] ∧ order.idxOf u < order.idxOf e.1.target := by
  obtain ⟨hsrc, hin, hw⟩ := (mem_outgoing ho.weights_nodup).1 he
  refine ⟨hsrc, hin, hw, ho.target_not_mem hsplit hin hsrc, ?_⟩
  rw [← hsrc]
  exact ho.forward e.1 hin

/-- A vertex that is not reached passes nothing on. -/
theorem expand_of_isInf (h : (labels.distance u).isInf = true) :
    expand weights labels u = labels := by
  unfold expand
  exact if_pos h

/-- One that is reached offers all its arcs. -/
theorem expand_of_not_isInf (h : ¬(labels.distance u).isInf = true) :
    expand weights labels u
      = (Labels.outgoing weights u).foldl
        (relax (labels.distance u)) labels := by
  unfold expand
  exact if_neg h

/-- A vertex without a label is infinitely far away. -/
theorem reached_of_not_isInf (h : ¬(labels.distance u).isInf = true) :
    (labels.get? u).isSome = true := by
  cases hget : labels.get? u with
  | some lab => rfl
  | none =>
      exfalso
      apply h
      unfold distance
      rw [hget]
      exact Weight.isInf_infinity

/-- Expanding the next vertex keeps the first half of the invariant. -/
theorem Grown.expand {todo : List Node} (hg : Grown weights order s done labels)
    (ho : Ordered weights order) (hsplit : order = done ++ u :: todo) :
    Grown weights order s (done ++ [u]) (Labels.expand weights labels u) := by
  have hmono : Grown weights order s (done ++ [u]) labels :=
    hg.mono (List.subset_append_left done [u])
  by_cases hinf : (labels.distance u).isInf = true
  · rw [expand_of_isInf hinf]
    exact hmono
  · rw [expand_of_not_isInf hinf]
    apply hmono.foldl_relax (List.mem_append_right done List.mem_cons_self)
    · exact reached_of_not_isInf hinf
    · rfl
    · exact fun e he => ho.outgoing hsplit he

/-- An expanded vertex is never relabelled. -/
theorem Ordered.get?_expand {todo : List Node} (ho : Ordered weights order)
    (hsplit : order = done ++ u :: todo) (hv : v ∈ done ++ [u]) :
    (Labels.expand weights labels u).get? v = labels.get? v := by
  by_cases hinf : (labels.distance u).isInf = true
  · rw [expand_of_isInf hinf]
  · rw [expand_of_not_isInf hinf]
    apply get?_foldl_relax_of_ne
    intro e he heq
    exact (ho.outgoing hsplit he).2.2.2.1 (heq ▸ hv)

/-- Expanding the next vertex keeps the second half of the invariant. -/
theorem Tight.expand {todo : List Node} (ht : Tight weights done labels)
    (ho : Ordered weights order) (hsplit : order = done ++ u :: todo) :
    Tight weights (done ++ [u]) (Labels.expand weights labels u) := by
  intro a ha hsrc hfin
  rw [distance_congr (ho.get?_expand hsplit hsrc)] at hfin ⊢
  by_cases hinf : (labels.distance u).isInf = true
  · rw [expand_of_isInf hinf]
    rcases List.mem_append.1 hsrc with hsrc | hsrc
    · exact ht a ha hsrc hfin
    · rw [List.mem_singleton.1 hsrc, hinf] at hfin
      exact nomatch hfin
  · rw [expand_of_not_isInf hinf]
    rcases List.mem_append.1 hsrc with hsrc | hsrc
    · -- an old bound survives, since distances only go down
      have hold := ht a ha hsrc hfin
      exact not_lt_of_lowered (distance_foldl_relax _) hold
    · -- the arcs just followed
      have heq : a.source = u := List.mem_singleton.1 hsrc
      have hmem : (a, weightOf weights a) ∈ Labels.outgoing weights u :=
        (mem_outgoing ho.weights_nodup).2 ⟨heq, ha, rfl⟩
      have hfollowed := not_lt_foldl_relax (labels.distance u) labels hmem
      rw [heq]
      exact hfollowed

/-- What holds at the start, and survives the expansion of the next vertex,
holds at the end of the search. -/
theorem reach_induction {P : List Node → Labels → Prop}
    (hstart : P [] (start s))
    (hstep : ∀ {done u todo labels}, order = done ++ u :: todo → P done labels →
      P (done ++ [u]) (expand weights labels u)) :
        P order (reach weights order s) := by
  -- over the vertices still to be expanded
  have hrun : ∀ todo done labels, order = done ++ todo → P done labels →
      P order (todo.foldl (expand weights) labels) := by
    intro todo
    induction todo with
    | nil =>
        intro done labels hsplit hp
        rw [List.append_nil] at hsplit
        subst hsplit
        exact hp
    | cons u todo ih =>
        intro done labels hsplit hp
        apply ih (done ++ [u])
        · rw [hsplit, List.append_assoc]
          rfl
        · exact hstep hsplit hp
  exact hrun order [] _ rfl hstart

/-- The invariant at the end of the search. -/
theorem reach_spec (ho : Ordered weights order) (s : Node) :
    Grown weights order s order (reach weights order s)
      ∧ Tight weights order (reach weights order s) :=
  reach_induction (P := fun done labels => Grown weights order s done labels
      ∧ Tight weights done labels)
    ⟨grown_start, fun _ _ hsrc => absurd hsrc List.not_mem_nil⟩
    fun hsplit h => ⟨h.1.expand ho hsplit, h.2.expand ho hsplit⟩

-- ============================================================ the walks

/-- Walking back from a reached vertex leads to the start. What is spelled
out, forwards, is a walk that weighs exactly the distance. -/
theorem traceBack_spec (ho : Ordered weights order)
    (hg : Grown weights order s order labels) {bound : Nat}
    (hv : (labels.get? v).isSome = true) (hb : order.idxOf v ≤ bound) :
    ∃ arcs, traceBack labels s bound v = some arcs
      ∧ (∀ a ∈ arcs, a ∈ weights.keys)
      ∧ Walk s v arcs.reverse
      ∧ labels.distance v = total weights arcs.reverse := by
  induction bound generalizing v with
  | zero =>
      have hs : v = s := by
        obtain ⟨lab, hlab⟩ := Option.isSome_iff_exists.1 hv
        rcases hg.grown v lab hlab with hs | ⟨a, -, hin, ht, -⟩
        · exact hs
        · have := ho.forward a hin
          rw [ht] at this
          omega
      subst hs
      exact ⟨[], if_pos rfl, fun a ha => absurd ha List.not_mem_nil, rfl,
        distance_of_get? hg.start⟩
  | succ bound ih =>
      by_cases hs : v = s
      · subst hs
        exact ⟨[], if_pos rfl, fun a ha => absurd ha List.not_mem_nil, rfl,
          distance_of_get? hg.start⟩
      · obtain ⟨lab, hlab⟩ := Option.isSome_iff_exists.1 hv
        obtain ⟨a, hvia, hin, ht, -, hreached, hdist⟩ :=
          (hg.grown v lab hlab).resolve_left hs
        have hlt := ho.forward a hin
        rw [ht] at hlt
        obtain ⟨arcs, htrace, hall, hwalk, htotal⟩ := ih hreached (by omega)
        refine ⟨a :: arcs, ?_, ?_, ?_, ?_⟩
        · have hvia' : labels.via v = some a := by
            unfold via
            rw [hlab]
            exact hvia
          unfold traceBack
          rw [if_neg hs, hvia']
          simp only [htrace, Option.map_some]
        · intro b hb
          rcases List.mem_cons.1 hb with rfl | hb
          · exact hin
          · exact hall b hb
        · rw [List.reverse_cons, ← ht]
          exact hwalk.concat
        · rw [List.reverse_cons, total_concat, ← htotal, distance_of_get? hlab]
          exact hdist

/-- Every reached vertex has a walk that weighs its distance. -/
theorem exists_walk (ho : Ordered weights order)
    (hg : Grown weights order s order labels)
    (hv : (labels.get? v).isSome = true) :
    ∃ arcs, (∀ a ∈ arcs, a ∈ weights.keys) ∧ Walk s v arcs
      ∧ labels.distance v = total weights arcs := by
  obtain ⟨arcs, -, hall, hwalk, htotal⟩ :=
    traceBack_spec ho hg hv (Nat.le_refl _)
  exact ⟨arcs.reverse, fun a ha => hall a (List.mem_reverse.1 ha),
    hwalk, htotal⟩

/-- A vertex at a distance short of infinity has been reached. -/
theorem reached_of_le {x : Float} (h : labels.distance v ≤ x)
    (hx : x.isFinite = true) :
    (labels.get? v).isSome = true := by
  cases hget : labels.get? v with
  | some lab => rfl
  | none =>
      unfold distance at h
      rw [hget] at h
      exact absurd h (Weight.not_infinity_le hx)

/-- If the walks from the start to `w` have finite totals, no beginning of
one weighs less than the distance of the vertex it leads to. -/
theorem distance_le_of_prefix (bs : List Arc) {w : Node}
    (ho : Ordered weights order) (hg : Grown weights order s order labels)
    (ht : Tight weights order labels)
    (hfin : ∀ arcs, (∀ a ∈ arcs, a ∈ weights.keys) → Walk s w arcs →
      (total weights arcs).isFinite = true)
    {as : List Arc} (hall : ∀ a ∈ as ++ bs, a ∈ weights.keys) (hv : Walk s v as)
    (hw : Walk v w bs) : labels.distance v ≤ total weights as := by
  induction as using List.reverseRecOn generalizing v bs with
  | nil =>
      obtain rfl : s = v := hv
      rw [distance_of_get? hg.start]
      exact Weight.le_refl rfl
  | append_singleton as a ih =>
      obtain ⟨u, hu, hsrc, htgt⟩ := walk_append.1 hv
      subst hsrc
      obtain rfl : a.target = v := htgt
      rw [List.append_assoc] at hall
      have hin : a ∈ weights.keys := hall a (by simp)
      have hpast := ih (a :: bs) hall hu ⟨rfl, hw⟩
      have hsum : (total weights (as ++ [a])).isFinite = true := by
        apply isFinite_total_of_append bs
        rw [List.append_assoc]
        exact hfin _ hall (walk_append.2 ⟨_, hu, rfl, hw⟩)
      have hreached : (labels.get? a.source).isSome = true :=
        reached_of_le hpast (isFinite_total_of_append [a] hsum)
      -- the walk behind the label, continued to `w`, has a finite total too
      obtain ⟨cs, hcs, hwalk, htotal⟩ := exists_walk ho hg hreached
      have hstep : (labels.distance a.source + weightOf weights a).isFinite
          = true := by
        rw [htotal, ← total_concat]
        apply isFinite_total_of_append bs
        rw [List.append_assoc]
        apply hfin
        · intro b hb
          rcases List.mem_append.1 hb with hb | hb
          · exact hcs b hb
          · exact hall b (List.mem_append_right as hb)
        · exact walk_append.2 ⟨_, hwalk, rfl, hw⟩
      have hnot : ¬labels.distance a.source + weightOf weights a
          < labels.distance a.target :=
        ht a hin (ho.forward.source_mem hin)
          (Weight.isInf_of_isFinite (Weight.isFinite_of_add hstep).1)
      have hlast : labels.distance a.target
          ≤ labels.distance a.source + weightOf weights a :=
        Weight.le_of_not_lt (Weight.isNaN_of_isFinite hstep) (hg.number _) hnot
      rw [total_concat] at hsum ⊢
      exact Weight.le_trans hlast (Weight.add_le_add hpast hstep hsum)

/-- If the walks from the start to a vertex have finite totals, none of
them weighs less than its distance. -/
theorem distance_le_total (ho : Ordered weights order)
    (hg : Grown weights order s order labels) (ht : Tight weights order labels)
    (hfin : ∀ arcs, (∀ a ∈ arcs, a ∈ weights.keys) → Walk s v arcs →
      (total weights arcs).isFinite = true)
    {arcs : List Arc} (hall : ∀ a ∈ arcs, a ∈ weights.keys)
    (hv : Walk s v arcs) :
    labels.distance v ≤ total weights arcs :=
  distance_le_of_prefix [] ho hg ht hfin (by rwa [List.append_nil]) hv rfl

end FlowPricing.Labels
