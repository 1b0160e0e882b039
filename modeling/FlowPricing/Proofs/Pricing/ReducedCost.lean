/-
The length of a generated column is its reduced cost. A round reaches the
weight of an arc through the list of constraints, grouped by network; the
column gets its coefficients from the arc index. That both see the same
pairs in the same order is what makes the sum of the weights, addition by
addition, the sum of the coefficients times the prices.
-/
import FlowPricing.Proofs.Setup.Prepared

namespace FlowPricing

variable {μ : Type} {kind : PricingKind} {out : RoundOutcome}

-- ============================================================ the sums

/-- What the entries of an arc cost under multipliers `v`. Multipliers
within the tolerance of zero are left out. -/
def arcCost (v : ConstraintId → Float) (tolerance : Float)
    (entries : List IndexEntry) :
    Float :=
  (entries.filter fun e => !decide ((v e.handle).abs ≤ tolerance)).foldl
    (fun w e => w + e.coefficient * -v e.handle) 0.0

/-- What the arcs cost, one after another. -/
def reducedCost (v : ConstraintId → Float) (tolerance : Float)
    (entries : Arc → List IndexEntry) (arcs : List Arc) : Float :=
  arcs.foldl (fun s a => s + arcCost v tolerance (entries a)) 0.0

-- ========================================================== the changes

namespace Round

variable {r : Registry} {tolerance price value : Float} {g : Int32} {a : Arc}

theorem weightChange_spec {e : Arc × Float} {w : WeightChange}
    (h : weightChange r price e = .ok w) :
    w.arc = e.1 ∧ w.delta = e.2 * price
      ∧ ∀ g, r.fields.get? e.1.source.network = some g → w.group = g := by
  unfold weightChange at h
  cases hn : r.networkOfArc e.1 with
  | error err =>
      rw [hn] at h
      cases h
  | ok n =>
      rw [hn] at h
      cases h
      refine ⟨rfl, rfl, ?_⟩
      intro g hg
      unfold Registry.networkOfArc at hn
      rw [hg] at hn
      exact Registry.group_of_network hn

/-- The changes on one arc, in the network it is routed to. -/
def changesOn (changes : List WeightChange) (g : Int32) (a : Arc) :
    List (Arc × Float) :=
  (changesOf changes g).filter (·.1 = a)

theorem changesOn_append (as bs : List WeightChange) :
    changesOn (as ++ bs) g a = changesOn as g a ++ changesOn bs g a := by
  unfold changesOn
  rw [changesOf_append, List.filter_append]

/-- Of the terms of a constraint, those of the arc change its weight. -/
theorem changesOn_mapM (hroute : r.fields.get? a.source.network = some g)
    {es : List (Arc × Float)} {ws : List WeightChange}
    (h : es.mapM (weightChange r price) = .ok ws) :
    changesOn ws g a = (es.filter (·.1 = a)).map fun e =>
      (e.1, e.2 * price) := by
  have hall := Action.except_mapM_eq_ok.1 h
  clear h
  induction hall with
  | nil => rfl
  | @cons e w es ws he _ ih =>
      obtain ⟨harc, hdelta, hgroup⟩ := weightChange_spec he
      unfold changesOn changesOf at ih ⊢
      by_cases hea : e.1 = a
      · have hg : w.group = g := hgroup g (hea ▸ hroute)
        have hw : w.arc = a := harc.trans hea
        rw [List.filter_cons_of_pos (by simpa using hg), List.map_cons,
          List.filter_cons_of_pos (by simpa using hw),
          List.filter_cons_of_pos (by simpa using hea), List.map_cons, ih,
          harc, hdelta]
      · have hw : ¬w.arc = a := fun heq => hea (harc.symm.trans heq)
        have hes : (e :: es).filter (·.1 = a) = es.filter (·.1 = a) :=
          List.filter_cons_of_neg (by simpa using hea)
        rw [hes, ← ih]
        by_cases hg : w.group = g
        · rw [List.filter_cons_of_pos (by simpa using hg), List.map_cons,
            List.filter_cons_of_neg (by simpa using hw)]
        · rw [List.filter_cons_of_neg (by simpa using hg)]

/-- The changes one constraint makes on an arc add up like its entries. -/
theorem foldl_changesFor (hroute : r.fields.get? a.source.network = some g)
    {c : Constraint} {ws : List WeightChange} {v : ConstraintId → Float}
    (hv : v c.handle = value) (h : changesFor r tolerance c value = .ok ws)
    (w₀ : Float) :
    (changesOn ws g a).foldl (fun w c => w + c.2) w₀
      = ((c.entriesFor a).filter fun e =>
        !decide ((v e.handle).abs ≤ tolerance)).foldl
          (fun w e => w + e.coefficient * -v e.handle) w₀ := by
  unfold changesFor at h
  rw [Weight.abs_neg] at h
  unfold Constraint.entriesFor
  split at h
  · next hle =>
      obtain rfl := Except.ok.inj h
      rw [List.filter_eq_nil_iff.2]
      · rfl
      · intro e he
        obtain ⟨_, -, rfl⟩ := List.mem_map.1 he
        simp [hv, hle]
  · next hle =>
      have hall : ((c.arcs.filter (·.1 = a)).map fun e =>
          IndexEntry.mk c.handle e.2).filter
            (fun e => !decide ((v e.handle).abs ≤ tolerance))
          = (c.arcs.filter (·.1 = a)).map fun e => ⟨c.handle, e.2⟩ := by
        apply List.filter_eq_self.2
        intro e he
        obtain ⟨_, -, rfl⟩ := List.mem_map.1 he
        simp [hv, hle]
      rw [changesOn_mapM hroute h, hall, List.foldl_map, List.foldl_map]
      simp only [hv]

/-- The changes all constraints make on an arc add up like the entries they
have for it. -/
theorem foldl_changesOn (hroute : r.fields.get? a.source.network = some g)
    {cs : List Constraint} {values : List Float}
    {changes : List (List WeightChange)} {v : ConstraintId → Float}
    (hv : List.Forall₂ (fun c x => v c.handle = x) cs values)
    (h : List.Forall₂ (fun cv ws => changesFor r tolerance cv.1 cv.2 = .ok ws)
      (cs.zip values) changes) (w₀ : Float) :
    (changesOn changes.flatten g a).foldl (fun w c => w + c.2) w₀
      = ((Registry.entriesFor cs a).filter
          fun e => !decide ((v e.handle).abs ≤ tolerance)).foldl
          (fun w e => w + e.coefficient * -v e.handle) w₀ := by
  induction hv generalizing changes w₀ with
  | nil =>
      obtain rfl := List.forall₂_nil_left_iff.1 h
      rfl
  | @cons c x cs values hc _ ih =>
      obtain ⟨ws, rest, hws, hrest, rfl⟩ := List.forall₂_cons_left_iff.1 h
      unfold Registry.entriesFor
      rw [List.flatten_cons, changesOn_append, List.foldl_append,
        foldl_changesFor hroute hc hws, ih hrest, List.flatMap_cons,
        List.filter_append, List.foldl_append]
      rfl

end Round

-- ========================================================== the weights

/-- Changing weights one after another adds up what is meant for each. -/
theorem get?_foldl_modify (cs : List (Arc × Float))
    (t : Table Arc Float) (a : Arc) :
    (cs.foldl (fun t c => t.modify c.1 (· + c.2)) t).get? a
      = (t.get? a).map fun w =>
        (cs.filter (·.1 = a)).foldl (fun w c => w + c.2) w := by
  induction cs generalizing t with
  | nil => simp
  | cons c cs ih =>
      rw [List.foldl_cons, ih, Table.get?_modify]
      by_cases hca : c.1 = a
      · rw [if_pos hca, List.filter_cons_of_pos (by simpa using hca),
          Option.map_map]
        rfl
      · rw [if_neg hca, List.filter_cons_of_neg (by simpa using hca)]

theorem get?_mapValues_zero {t : Table Arc Float} {a : Arc} (h : a ∈ t.keys) :
    (t.mapValues fun _ => 0.0).get? a = some 0.0 := by
  have hk : a ∈ (t.mapValues fun _ => 0.0).keys := by rwa [Table.keys_mapValues]
  obtain ⟨w, hw⟩ :=
    Option.isSome_iff_exists.1 ((Table.isSome_get?_iff _ a).2 hk)
  obtain ⟨e, -, he⟩ := List.mem_map.1 (Table.mem_of_find hw)
  rw [hw, ← (Prod.mk.inj he).2]

namespace Solve

/-- The weight a round leaves on an arc is what was meant for it. -/
theorem Served.weightOf {changes : List WeightChange} {n : Network}
    {x : Path × Network} (h : Served changes n x) (hn : n.Sound) {a : Arc}
    (ha : a ∈ n.topology.arcs) :
    FlowPricing.weightOf x.2.weights a
      = (Round.changesOn changes n.group a).foldl (fun w c => w + c.2) 0.0 := by
  unfold FlowPricing.weightOf
  rw [h.weights, get?_foldl_modify, get?_mapValues_zero (hn.keys ▸ ha)]
  rfl

/-- Any column a round adds costs what its length says. -/
theorem Run.length_eq [MasterProblem μ] {s t : Solve (Recorded μ)}
    {values : List Float} {m : Recorded μ} {changes : List (List WeightChange)}
    {served : List (Path × Network)} {columns : List AddedColumn}
    (hs : s.problem.registry.Prepared)
    (run : Run kind s t out values m changes served columns)
    {v : ConstraintId → Float}
    (hv : List.Forall₂ (fun c x => v c.handle = x)
      s.problem.registry.constraints values)
    {c : AddedColumn} (hc : c ∈ columns) :
    c.path.length = reducedCost v s.pricer.tolerance
      (Round.entriesIn s.problem.registry)
      c.path.arcs.reverse := by
  -- the network that the column comes from
  have hin : c.path
      ∈ s.pricer.selection.select s.pricer.tolerance (served.map Prod.fst) := by
    rw [← run.chosen]
    exact List.mem_map_of_mem hc
  obtain ⟨hcandidate, himp⟩ := Selection.of_mem_select hin
  obtain ⟨x, hx, hpath⟩ := List.mem_map.1 hcandidate
  obtain ⟨n, hn, hserved⟩ := Action.exists_of_mem_right run.serves hx
  have hsound := hs.sound.networks n hn
  unfold Path.isImproving at himp
  rw [← hpath] at himp ⊢
  obtain ⟨hleads, hweighs, -⟩ :=
    (Network.answer_of_findPath hserved.sound hserved.answer).route_of_lt
      (of_decide_eq_true himp)
  rw [hweighs]
  -- arc by arc
  apply List.foldl_ext
  intro w a ha
  have harc : a ∈ n.topology.arcs := hserved.topology ▸ hleads.inside a ha
  have hroute := hs.routed n hn a harc
  have hentries : Round.entriesIn s.problem.registry a
      = Registry.entriesFor s.problem.registry.constraints a :=
        hs.transposed.getD a
  have hroute' : (Round.zeroWeights s.problem.registry).fields.get?
      a.source.network
      = some n.group := hroute
  unfold arcCost
  rw [hserved.weightOf hsound harc,
    Round.foldl_changesOn hroute' hv run.changed, hentries]

end Solve

namespace Session

/-- In a session, every column of every later round is as long as the
entries of its arcs cost: the constraints and coefficients by which it
reaches the master, arc by arc, under the multipliers that the master
reports. -/
theorem length_eq_reducedCost [EditableMaster μ] {ds : List Description}
    {unneeded : List String} {model : Recorded μ}
    {indexed : Problem (Recorded μ)} {s t u w : Solve (Recorded μ)}
    {f : ConstraintId → ConstraintId}
    (h : Session ds unneeded model indexed s t)
    (hf : Registry.Answers MasterProblem.transformedConstraint f
      s.problem.master)
    (hu : Solve.Later t u) (hround : Solve.price kind u = .ok out w) :
    ∃ (values : List Float) (m : Recorded μ) (columns : List AddedColumn),
      (u.problem.registry.constraints.map Constraint.handle).mapM
        (Round.multiplier kind)
          u.problem.master = .ok values m
      ∧ out.columns = columns.length
      ∧ w.problem.master.calls = m.calls ++ Round.succeeded
          (columns.flatMap
            (AddedColumn.calls (Round.entriesIn u.problem.registry)))
      ∧ (∀ c ∈ columns, w.problem.registry.path? c.name = some c.path)
      ∧ ∀ v : ConstraintId → Float,
          List.Forall₂ (fun c x => v c.handle = x)
            u.problem.registry.constraints values →
          ∀ c ∈ columns, c.path.length = reducedCost v u.pricer.tolerance
            (Round.entriesIn u.problem.registry) c.path.arcs.reverse := by
  have hprepared := h.prepared hf hu
  obtain ⟨values, m, changes, served, columns, run⟩ :=
    Solve.price_spec hprepared.sound hround
  refine ⟨values, m, columns, run.reads, ?_, run.calls, ?_, ?_⟩
  · rw [run.reported]
  · intro c hc
    exact run.recorded hc
  · intro v hv c hc
    exact run.length_eq hprepared hv hc

/-- The multipliers of the sample, by constraint. -/
def sampleValue (c : ConstraintId) : Float := if c = ⟨2⟩ then 1.0 else 1.5

/-- Two columns under different multipliers. The second meets both
constraints, the first only one. -/
theorem length_eq_reducedCost_sample :
    ∃ (u w : Solve (Recorded MemoryMaster)) (out : RoundOutcome)
      (columns : List AddedColumn),
      Solve.price .reducedCost u = .ok out w ∧ columns.length = 2
        ∧ w.problem.registry.columns.size = 2
        ∧ ∀ c ∈ columns, w.problem.registry.path? c.name = some c.path
          ∧ c.path.length = reducedCost sampleValue u.pricer.tolerance
            (Round.entriesIn u.problem.registry) c.path.arcs.reverse := by
  have hrun : passes sampleDescriptions [] { inner := sampleModel }
      (changeInner MemoryMaster.transform) (fun _ t =>
        Action.passes
          ((t.problem.registry.constraints.map Constraint.handle).mapM
            (Round.multiplier .reducedCost))
          (fun values _ => decide (values = [1.0, 1.5])
            && decide (t.problem.registry.constraints.map Constraint.handle
              = [⟨2⟩, ⟨3⟩])
            && Action.passes (Solve.price .reducedCost) (fun out w =>
                decide (out.columns = 2)
                  && decide (w.problem.registry.columns.size = 2))
              (withDuals t))
          (withDuals t).problem.master) = true := by
    decide +kernel
  obtain ⟨q, t, hsession, hrun⟩ := exists_of_passes hrun
  obtain ⟨values, m, hreads, hrun⟩ := Action.exists_of_passes hrun
  rw [Bool.and_eq_true, Bool.and_eq_true, decide_eq_true_iff,
    decide_eq_true_iff] at hrun
  obtain ⟨⟨rfl, hhandles⟩, hrun⟩ := hrun
  obtain ⟨out, w, hprice, hrun⟩ := Action.exists_of_passes hrun
  rw [Bool.and_eq_true, decide_eq_true_iff, decide_eq_true_iff] at hrun
  obtain ⟨htwo, hsize⟩ := hrun
  have hanswers := Recorded.answers
    (MemoryMaster.answers (changeInner MemoryMaster.transform q.master).inner)
  obtain ⟨values', m', columns, hreads', hcolumns, -, hrecorded, hlength⟩ :=
    length_eq_reducedCost hsession hanswers (.master _ .refl) hprice
  obtain ⟨rfl, -⟩ := EStateM.Result.ok.inj (hreads.symm.trans hreads')
  have hvalues : List.Forall₂ (fun c x => sampleValue c.handle = x)
      t.problem.registry.constraints [1.0, 1.5] := by
    refine (List.forall₂_map_left_iff (f := Constraint.handle)
      (R := fun v x => sampleValue v = x)).1 ?_
    rw [hhandles]
    exact .cons rfl (.cons rfl .nil)
  exact ⟨withDuals t, w, out, columns, hprice, hcolumns.symm.trans htwo,
    hsize, fun c hc =>
    ⟨hrecorded c hc, hlength sampleValue hvalues c hc⟩⟩

end Session

end FlowPricing
