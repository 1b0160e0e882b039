/-
A round proves what it reports. The networks worth a column are those with
a route lighter than minus the tolerance; the round finds all of them,
takes as many as its selection allows, the shortest first (`Division`), and
turns a lightest route of each into a column (`Run.lightest`).

Asked of the weights is only that the totals of the routes are finite.
That comparison orders such totals and that addition keeps their order are
facts about weights, not assumptions.
-/
import FlowPricing.Proofs.Network.Distances
import FlowPricing.Proofs.Setup.Prepared
import FlowPricing.Proofs.Weight.Rank

namespace FlowPricing

variable {μ : Type} {kind : PricingKind} {out : RoundOutcome}
  {tolerance : Float}

-- ============================================================= choosing

namespace Selection

/-- Pairs in the order of their paths. -/
def ranked (tolerance : Float) (served : List (Path × Network)) :
    List (Path × Network) :=
  (served.filter (·.1.isImproving tolerance)).mergeSort fun x y =>
    atMost x.1 y.1

theorem ranked_perm (tolerance : Float) (served : List (Path × Network)) :
    (ranked tolerance served).Perm
      (served.filter (·.1.isImproving tolerance)) :=
  List.mergeSort_perm _ _

/-- Ranking pairs is sorting their paths. -/
theorem map_ranked (tolerance : Float) (served : List (Path × Network)) :
    (ranked tolerance served).map Prod.fst
      = ((served.map Prod.fst).filter (·.isImproving tolerance)).mergeSort
        atMost := by
  have hmap : ∀ l : List (Path × Network),
      (l.mergeSort fun x y => atMost x.1 y.1).map Prod.fst
        = (l.map Prod.fst).mergeSort atMost :=
    fun l => List.map_mergeSort fun _ _ _ _ => rfl
  unfold ranked
  rw [hmap, List.filter_map]
  rfl

/-- Nothing that comes later is shorter. -/
theorem not_lt_of_ranked {served : List (Path × Network)} {k : Nat}
    {x y : Path × Network} (hx : x ∈ (ranked tolerance served).take k)
    (hy : y ∈ (ranked tolerance served).drop k) :
    ¬y.1.length < x.1.length := by
  have hsorted :=
    sorted ((served.map Prod.fst).filter (·.isImproving tolerance))
  rw [← map_ranked, List.pairwise_map,
    ← List.take_append_drop k (ranked tolerance served),
    List.pairwise_append] at hsorted
  exact not_lt_of_atMost (hsorted.2.2 x hx y hy)

end Selection

-- ============================================================= networks

namespace Network

/-- A network is worth a column if some route weighs less than minus the
tolerance. -/
def Worth (n : Network) (tolerance : Float) : Prop :=
  ∃ arcs, n.IsRoute arcs ∧ n.total arcs < -tolerance

/-- A path that is a lightest route of a network and knows its weight. -/
structure Lightest (n : Network) (p : Path) : Prop where
  leads : n.IsRoute p.arcs.reverse
  weighs : p.length = n.total p.arcs.reverse
  group : p.group = n.group
  least : ∀ arcs, n.IsRoute arcs → n.total p.arcs.reverse ≤ n.total arcs

/-- All routes of a network have finite totals. -/
def FiniteRoutes (n : Network) : Prop :=
  ∀ arcs, n.IsRoute arcs → (n.total arcs).isFinite = true

variable {n : Network} {p : Path}

/-- Routes are among the walks from the source. -/
theorem FiniteFrom.routes (h : n.FiniteFrom n.topology.source) :
    n.FiniteRoutes :=
  fun arcs ha => h n.topology.sink arcs ⟨ha.inside, ha.leads⟩

/-- An improving answer is a lightest route. -/
theorem lightest_of_isImproving (h : n.Sound) (hp : n.findPath = .ok p)
    (hfin : n.FiniteRoutes) (himp : p.isImproving tolerance = true) :
    n.Lightest p := by
  unfold Path.isImproving at himp
  obtain ⟨hleads, hweighs, hgroup⟩ :=
    (answer_of_findPath h hp).route_of_lt (of_decide_eq_true himp)
  refine ⟨hleads, hweighs, hgroup, ?_⟩
  intro arcs ha
  rw [← hweighs]
  exact findPath_minimal h hp hfin ha

end Network

-- ============================================================== columns

/-- The commits among calls that were made. -/
def commits (calls : List RecordedCall) : Nat :=
  calls.countP fun c => match c with
    | ⟨.commitVariable _, true⟩ => true
    | _ => false

theorem commits_append (as bs : List RecordedCall) :
    commits (as ++ bs) = commits as + commits bs := List.countP_append

/-- A column is committed once. -/
theorem commits_calls (entries : Arc → List IndexEntry)
    (columns : List AddedColumn) :
    commits (Round.succeeded (columns.flatMap (AddedColumn.calls entries)))
      = columns.length := by
  induction columns with
  | nil => rfl
  | cons c columns ih =>
      have hcoef : commits (Round.succeeded (c.coefficients entries)) = 0 := by
        unfold commits Round.succeeded AddedColumn.coefficients
        rw [List.countP_map, List.countP_eq_zero]
        intro call hcall
        obtain ⟨a, -, hcall⟩ := List.mem_flatMap.1 hcall
        obtain ⟨e, -, rfl⟩ := List.mem_map.1 hcall
        exact Bool.false_ne_true
      have hone : commits (Round.succeeded (c.calls entries)) = 1 := by
        have hsplit : Round.succeeded (c.calls entries)
            = [⟨.addPricedVariable c.name 0.0 Weight.infinity 0.0, true⟩]
              ++ Round.succeeded (c.coefficients entries)
              ++ [⟨.commitVariable c.handle, true⟩] := by
          simp [Round.succeeded, AddedColumn.calls]
        rw [hsplit, commits_append, commits_append, hcoef]
        rfl
      rw [List.flatMap_cons, List.length_cons]
      unfold Round.succeeded at hone ih ⊢
      rw [List.map_append, commits_append, hone, ih, Nat.add_comm]

/-- Reading multipliers commits nothing. -/
theorem commits_reads (hs : List ConstraintId) :
    commits (Round.succeeded (hs.map (Round.readCall kind))) = 0 := by
  unfold commits Round.succeeded
  rw [List.countP_map, List.countP_eq_zero]
  intro call hcall
  obtain ⟨h, -, rfl⟩ := List.mem_map.1 hcall
  cases kind <;> exact Bool.false_ne_true

-- ============================================================ the round

namespace Solve

/-- The networks that answered with a path worth a column are the ones
worth a column. -/
theorem mem_improving_iff {changes : List WeightChange} {ns : List Network}
    {served : List (Path × Network)}
    (hserves : List.Forall₂ (Served changes) ns served)
    (hfin : ∀ n ∈ served.map Prod.snd, n.FiniteRoutes) (n : Network) :
    n ∈ (served.filter (·.1.isImproving tolerance)).map Prod.snd
      ↔ n ∈ served.map Prod.snd ∧ n.Worth tolerance := by
  have hiff : ∀ x ∈ served, x.1.isImproving tolerance = true
      ↔ x.2.Worth tolerance := by
    intro x hx
    obtain ⟨_, -, hn⟩ := Action.exists_of_mem_right hserves hx
    exact Network.isImproving_iff hn.sound hn.answer
      (hfin x.2 (List.mem_map_of_mem hx)) tolerance
  constructor
  · intro hn
    obtain ⟨x, hx, rfl⟩ := List.mem_map.1 hn
    obtain ⟨hin, himp⟩ := List.mem_filter.1 hx
    exact ⟨List.mem_map_of_mem hin, (hiff x hin).1 himp⟩
  · intro h
    obtain ⟨hn, hworth⟩ := h
    obtain ⟨x, hx, rfl⟩ := List.mem_map.1 hn
    exact List.mem_map_of_mem (List.mem_filter.2 ⟨hx, (hiff x hx).2 hworth⟩)

/-- The pairs worth a column, divided into those that a round takes and
those that it leaves. -/
structure Division (selection : Selection) (tolerance : Float)
    (served taken left : List (Path × Network)) : Prop where
  perm : (taken ++ left).Perm (served.filter (·.1.isImproving tolerance))
  select : selection.select tolerance (served.map Prod.fst) = taken.map Prod.fst
  full : selection = .full → left = [] ∧ taken.Sublist served
  count : ∀ k, selection = .shortest k →
    taken.length = min k (taken ++ left).length
  shortest : ∀ k, selection = .shortest k →
    ∀ x ∈ taken, ∀ y ∈ left, ¬y.1.length < x.1.length

/-- Answers can be divided as the selection does. -/
theorem exists_division (selection : Selection) (tolerance : Float)
    (served : List (Path × Network)) :
    ∃ taken left, Division selection tolerance served taken left := by
  cases selection with
  | full =>
      refine ⟨served.filter (·.1.isImproving tolerance), [], ?_⟩
      exact {
        perm := by rw [List.append_nil]
        select := by
          unfold Selection.select
          simp only
          rw [List.filter_map]
          rfl
        full := fun _ => ⟨rfl, List.filter_sublist⟩
        count := nofun
        shortest := nofun }
  | shortest k =>
      refine ⟨(Selection.ranked tolerance served).take k,
        (Selection.ranked tolerance served).drop k, ?_⟩
      exact {
        perm := by
          rw [List.take_append_drop]
          exact Selection.ranked_perm tolerance served
        select := by
          unfold Selection.select
          simp only
          rw [← Selection.map_ranked, List.map_take]
        full := nofun
        count := by
          intro k' hk
          obtain rfl := Selection.shortest.inj hk
          rw [List.take_append_drop, List.length_take]
        shortest := fun _ _ x hx y hy => Selection.not_lt_of_ranked hx hy }

namespace Division

variable {selection : Selection} {served taken left : List (Path × Network)}

/-- All answers that were divided are improving. -/
theorem mem (d : Division selection tolerance served taken left)
    {x : Path × Network} (hx : x ∈ taken ++ left) :
    x ∈ served ∧ x.1.isImproving tolerance = true :=
  List.mem_filter.1 (d.perm.mem_iff.1 hx)

/-- Nothing is taken only if there is nothing to take. -/
theorem taken_eq_nil_iff (d : Division selection tolerance served taken left)
    (h : selection ≠ .shortest 0) : taken = [] ↔ taken ++ left = [] := by
  constructor
  · intro hnil
    subst hnil
    cases selection with
    | full => rw [(d.full rfl).1, List.append_nil]
    | shortest k =>
        have hk : k ≠ 0 := fun h0 => h (h0 ▸ rfl)
        have hmin := d.count k rfl
        rw [List.length_nil] at hmin
        exact List.length_eq_zero_iff.1 (by omega)
  · exact fun hnil => (List.append_eq_nil_iff.1 hnil).1

end Division

variable [MasterProblem μ] {s t : Solve (Recorded μ)}

section Running

variable {values : List Float} {m : Recorded μ}
  {changes : List (List WeightChange)}
  {served taken left : List (Path × Network)} {columns : List AddedColumn}

/-- The networks that were served are in the order of their groups too. -/
theorem Run.sound (hs : s.problem.registry.Sound)
    (run : Run kind s t out values m changes served columns) :
    t.problem.registry.Sound := by
  have hserved : List.Forall₂ (fun m n : Network =>
      m.Sound → n.Sound ∧ n.topology = m.topology)
      s.problem.registry.networks (served.map Prod.snd) := by
    rw [List.forall₂_map_right_iff]
    apply run.serves.imp
    intro n x hx _
    exact ⟨hx.sound, hx.topology⟩
  apply (hs.replaced hserved).of_networks
  exact run.networks

/-- What a round asked is what it left. -/
theorem Run.answered (run : Run kind s t out values m changes served columns)
    {x : Path × Network} (hx : x ∈ served) :
    x.2 ∈ t.problem.registry.networks ∧ x.2.Sound ∧ x.2.findPath = .ok x.1 := by
  obtain ⟨_, -, hn⟩ := Action.exists_of_mem_right run.serves hx
  rw [run.networks]
  exact ⟨List.mem_map_of_mem hx, hn.sound, hn.answer⟩

/-- The columns are those of the answers that were taken. -/
theorem Run.paths (run : Run kind s t out values m changes served columns)
    (d : Division s.pricer.selection s.pricer.tolerance served taken left) :
    columns.map AddedColumn.path = taken.map Prod.fst :=
  run.chosen.trans d.select

/-- Every network answers once. -/
theorem Run.nodup_networks (hs : s.problem.registry.Sound)
    (run : Run kind s t out values m changes served columns)
    (d : Division s.pricer.selection s.pricer.tolerance served taken left) :
    (taken.map Prod.snd ++ left.map Prod.snd).Nodup := by
  rw [← List.map_append, (d.perm.map Prod.snd).nodup_iff]
  have hnodup := (run.sound hs).nodup
  rw [run.networks] at hnodup
  exact hnodup.sublist (List.filter_sublist.map Prod.snd)

/-- The networks that were divided are those worth a column. -/
theorem Run.mem_division
    (run : Run kind s t out values m changes served columns)
    (d : Division s.pricer.selection s.pricer.tolerance served taken left)
    (hfin : ∀ n ∈ t.problem.registry.networks, n.FiniteRoutes) (n : Network) :
    n ∈ taken.map Prod.snd ++ left.map Prod.snd
      ↔ n ∈ t.problem.registry.networks ∧ n.Worth s.pricer.tolerance := by
  rw [run.networks] at hfin ⊢
  rw [← List.map_append, (d.perm.map Prod.snd).mem_iff]
  exact mem_improving_iff run.serves hfin n

/-- The networks that were taken gave a lightest route each. -/
theorem Run.lightest (run : Run kind s t out values m changes served columns)
    (d : Division s.pricer.selection s.pricer.tolerance served taken left)
    (hfin : ∀ n ∈ t.problem.registry.networks, n.FiniteRoutes) :
    List.Forall₂ Network.Lightest (taken.map Prod.snd)
      (columns.map AddedColumn.path) := by
  rw [run.paths d, List.forall₂_map_left_iff, List.forall₂_map_right_iff,
    List.forall₂_same]
  intro x hx
  obtain ⟨hin, himp⟩ := d.mem (List.mem_append_left left hx)
  obtain ⟨hn, hsound, hanswer⟩ := run.answered hin
  exact Network.lightest_of_isImproving hsound hanswer (hfin x.2 hn) himp

/-- A shorter route left out would be a shorter answer left out. -/
theorem Run.not_shorter (run : Run kind s t out values m changes served columns)
    (d : Division s.pricer.selection s.pricer.tolerance served taken left)
    (hfin : ∀ n ∈ t.problem.registry.networks, n.FiniteRoutes) {k : Nat}
    (hk : s.pricer.selection = .shortest k) {c : AddedColumn} (hc : c ∈ columns)
    {n : Network} (hn : n ∈ left.map Prod.snd) {arcs : List Arc}
    (ha : n.IsRoute arcs) :
    ¬n.total arcs < c.path.length := by
  intro hlt
  have hin : c.path ∈ taken.map Prod.fst := by
    rw [← run.paths d]
    exact List.mem_map_of_mem hc
  obtain ⟨x, hx, hxc⟩ := List.mem_map.1 hin
  obtain ⟨y, hy, rfl⟩ := List.mem_map.1 hn
  obtain ⟨hin, hsound, hanswer⟩ :=
    run.answered (d.mem (List.mem_append_right taken hy)).1
  have hle := Network.findPath_minimal hsound hanswer (hfin y.2 hin) ha
  apply d.shortest k hk x hx y hy
  rw [hxc]
  exact Weight.lt_of_le_of_lt hle hlt

/-- A round commits its columns. -/
theorem Run.commits (run : Run kind s t out values m changes served columns) :
    FlowPricing.commits t.problem.master.calls
      = FlowPricing.commits s.problem.master.calls + columns.length := by
  rw [run.calls, Round.mapM_multiplier_calls run.reads, commits_append,
    commits_append, commits_reads, commits_calls]
  rfl

end Running

/-- A round finds every network worth a column, takes as many as its
selection allows, the shortest first, and makes a lightest route of each a
column; what it reports is how many columns it committed and recorded. -/
theorem price_optimal (hr : s.problem.registry.Reachable)
    (hselection : s.pricer.selection ≠ .shortest 0)
    (h : price kind s = .ok out t)
    (hfin : ∀ n ∈ t.problem.registry.networks, n.FiniteRoutes) :
    ∃ (columns : List AddedColumn) (taken left : List Network),
      (taken ++ left).Nodup
      ∧ (∀ n, n ∈ taken ++ left
          ↔ n ∈ t.problem.registry.networks ∧ n.Worth s.pricer.tolerance)
      ∧ List.Forall₂ Network.Lightest taken (columns.map AddedColumn.path)
      ∧ (s.pricer.selection = .full → left = []
          ∧ taken.Sublist t.problem.registry.networks)
      ∧ (∀ k, s.pricer.selection = .shortest k →
          columns.length = min k (taken ++ left).length
          ∧ ∀ c ∈ columns, ∀ n ∈ left, ∀ arcs, n.IsRoute arcs →
            ¬n.total arcs < c.path.length)
      ∧ (out.columns = 0
          ↔ ∀ n ∈ t.problem.registry.networks, ¬n.Worth s.pricer.tolerance)
      ∧ out.columns = columns.length
      ∧ commits t.problem.master.calls
        = commits s.problem.master.calls + out.columns
      ∧ (columns.map AddedColumn.name).Nodup
      ∧ (∀ c ∈ columns, t.problem.registry.path? c.name = some c.path)
      ∧ ∀ name ∉ columns.map AddedColumn.name,
          t.problem.registry.path? name = s.problem.registry.path? name := by
  obtain ⟨values, m, changes, served, columns, run⟩ := price_spec hr.sound h
  obtain ⟨taken, left, d⟩ :=
    exists_division s.pricer.selection s.pricer.tolerance served
  have hlength : columns.length = taken.length := by
    rw [← List.length_map AddedColumn.path, run.paths d, List.length_map]
  have hmem := run.mem_division d hfin
  refine ⟨columns, taken.map Prod.snd, left.map Prod.snd,
    run.nodup_networks hr.sound d, hmem, run.lightest d hfin, ?_, ?_, ?_, ?_,
    ?_, run.nodup_names, fun _ hc => run.recorded hc, ?_⟩
  · intro hsel
    obtain ⟨hleft, hsub⟩ := d.full hsel
    rw [run.networks, hleft]
    exact ⟨rfl, hsub.map Prod.snd⟩
  · intro k hsel
    constructor
    · rw [hlength, d.count k hsel, ← List.map_append, List.length_map]
    · intro c hc n hn arcs ha
      exact run.not_shorter d hfin hsel hc hn ha
  · have hnone : (∀ n ∈ t.problem.registry.networks,
        ¬n.Worth s.pricer.tolerance)
        ↔ taken ++ left = [] := by
      rw [← List.map_eq_nil_iff (f := Prod.snd), List.map_append,
        List.eq_nil_iff_forall_not_mem]
      exact forall_congr' fun n => by rw [hmem, not_and]
    rw [hnone, run.reported, hlength, List.length_eq_zero_iff]
    exact d.taken_eq_nil_iff hselection
  · rw [run.reported]
  · rw [run.commits, run.reported]
  · intro name hname
    rw [run.registry, AddedColumn.path?_recordAll_of_ne]
    · rfl
    · exact fun c hc heq => hname (heq ▸ List.mem_map_of_mem hc)

/-- Two networks are worth a column. The first has two routes, and gives the
lightest of them. -/
theorem price_optimal_sample :
    ∃ (s t : Solve (Recorded MemoryMaster)) (out : RoundOutcome)
      (n n' : Network) (c c' : AddedColumn),
      price .reducedCost s = .ok out t ∧ out.columns = 2
        ∧ t.problem.registry.networks = [n, n'] ∧ n ≠ n'
        ∧ n.topology.arcs.length = 4
        ∧ n.Lightest c.path ∧ n'.Lightest c'.path ∧ c.name ≠ c'.name
        ∧ t.problem.registry.path? c.name = some c.path
        ∧ t.problem.registry.path? c'.name = some c'.path := by
  have hrun : Session.passes Session.sampleDescriptions []
      { inner := Session.sampleModel }
      (Session.changeInner MemoryMaster.transform) (fun _ t =>
        decide (t.pricer.selection = .full)
          && Action.passes (price .reducedCost) (fun out u =>
            decide (out.columns = 2)
              && decide ((u.problem.registry.networks.map fun n =>
                n.topology.arcs.length) = [4, 1])
              && u.problem.registry.networks.all fun n =>
                n.finiteWithin n.topology.vertices.length 0.0 n.topology.source)
            (Session.withDuals t)) = true := by
    decide +kernel
  obtain ⟨q, t, hsession, hrun⟩ := Session.exists_of_passes hrun
  rw [Bool.and_eq_true, decide_eq_true_iff] at hrun
  obtain ⟨hfull, hrun⟩ := hrun
  obtain ⟨out, u, hprice, hrun⟩ := Action.exists_of_passes hrun
  rw [Bool.and_eq_true, Bool.and_eq_true, decide_eq_true_iff,
    decide_eq_true_iff, List.all_eq_true] at hrun
  obtain ⟨⟨htwo, harcs⟩, hwithin⟩ := hrun
  have hfull' : (Session.withDuals t).pricer.selection = .full := hfull
  have hsound : u.problem.registry.Sound :=
    ((moves_price .reducedCost).of_ok hprice).registry.sound
      hsession.reachable.sound
  have hfinite : ∀ n ∈ u.problem.registry.networks, n.FiniteRoutes :=
    fun n hn =>
    (Network.finiteFrom_of_finiteWithin (hsound.networks n hn).shape
      (hwithin n hn)).routes
  obtain ⟨columns, taken, left, hnodup, -, hlightest, hall, -, -,
    hcolumns, -, hnames, hrecorded, -⟩ :=
    price_optimal (s := Session.withDuals t) hsession.reachable
      (by rw [hfull']; exact nofun) hprice hfinite
  obtain ⟨rfl, hsub⟩ := hall hfull'
  -- both networks are taken
  obtain ⟨c, c', rfl⟩ := List.length_eq_two.1 (hcolumns.symm.trans htwo)
  obtain ⟨n, _, hc, hrest, rfl⟩ := List.forall₂_cons_right_iff.1 hlightest
  obtain ⟨n', _, hc', hnone, rfl⟩ := List.forall₂_cons_right_iff.1 hrest
  obtain rfl := List.forall₂_nil_right_iff.1 hnone
  have hnetworks : u.problem.registry.networks = [n, n'] := by
    have hlength := congrArg List.length harcs
    rw [List.length_map] at hlength
    exact (hsub.eq_of_length hlength.symm).symm
  rw [hnetworks] at harcs
  obtain ⟨hfirst, -⟩ := List.cons.inj harcs
  have hdifferent : n ≠ n' := by simpa using hnodup
  have hnames' : c.name ≠ c'.name := by simpa using hnames
  exact ⟨Session.withDuals t, u, out, n, n', c, c', hprice, htwo, hnetworks,
    hdifferent, hfirst, hc, hc', hnames', hrecorded c (by simp),
    hrecorded c' (by simp)⟩

end Solve

end FlowPricing
