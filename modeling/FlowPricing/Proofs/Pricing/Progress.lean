/-
Why a solve that was set up properly never fails by itself. Every error a
round can end with is excluded by something its setup left behind and no
round takes away (`Able`):

- arcs of constraints belong to a network and are routed to it, so weights
  can be changed (`Round.reweight_total`);
- queries on sound networks always find an end, whatever the weights are
  (`Round.shortestPaths_total`);
- the constraints a column gets coefficients in are open in the master
  (`Round.ensures_addColumns`).

Nothing is asked of the coefficients.
-/
import FlowPricing.Proofs.Setup.Opened
import FlowPricing.Proofs.Setup.Prepared

namespace FlowPricing

variable {μ : Type} {kind : PricingKind} {tolerance : Float}

-- ========================================================== registries

namespace Registry

variable {r r' : Registry}

/-- Every arc of a constraint belongs to a network. -/
def Covered (r : Registry) : Prop :=
  ∀ c ∈ r.constraints, ∀ e ∈ c.arcs, ∃ n ∈ r.networks, e.1 ∈ n.topology.arcs

instance (r : Registry) : Decidable r.Covered :=
  inferInstanceAs (Decidable (∀ c ∈ r.constraints, ∀ e ∈ c.arcs,
    ∃ n ∈ r.networks, e.1 ∈ n.topology.arcs))

/-- Other handles have the same arcs. -/
theorem Covered.renamed (h : r.Covered) (f : ConstraintId → ConstraintId) :
    (r.renamed f).Covered := by
  intro c hc e he
  obtain ⟨c', hc', rfl⟩ := List.mem_map.1 hc
  exact h c' hc' e he

/-- Rounds keep the arcs in their networks. -/
theorem Covered.onward (h : r.Covered) (hr : r.Sound) (honward : Onward r r') :
    r'.Covered := by
  obtain ⟨hconstraints, -, -⟩ := honward.keeps
  intro c hc e he
  rw [hconstraints] at hc
  obtain ⟨n, hn, ha⟩ := h c hc e he
  obtain ⟨n', hn', hlater⟩ := Action.exists_of_mem_left honward.networks hn
  refine ⟨n', hn', ?_⟩
  rw [(hlater.sound (hr.networks n hn)).2]
  exact ha

/-- Entries are made under handles of constraints. -/
theorem Transposed.exists_constraint (h : r.Transposed) {a : Arc}
    {e : IndexEntry} (he : e ∈ Round.entriesIn r a) :
    ∃ c ∈ r.constraints, c.handle = e.handle := by
  have hentries : Round.entriesIn r a = entriesFor r.constraints a := h.getD a
  rw [hentries] at he
  obtain ⟨c, hc, hin⟩ := List.mem_flatMap.1 he
  obtain ⟨t, -, rfl⟩ := List.mem_map.1 hin
  exact ⟨c, hc, rfl⟩

end Registry

-- ============================================================= weights

namespace Round

variable {r : Registry}

/-- A change of the weight of an arc in the network it belongs to. -/
def Fits (r : Registry) (w : WeightChange) : Prop :=
  ∃ n ∈ r.networks, w.group = n.group ∧ w.arc ∈ n.topology.arcs

/-- An arc of a network gets its change there. -/
theorem weightChange_total (hr : r.Prepared) {n : Network} (hn : n ∈ r.networks)
    (price : Float) {e : Arc × Float} (he : e.1 ∈ n.topology.arcs) :
    weightChange r price e = .ok ⟨n.group, e.1, e.2 * price⟩ := by
  unfold weightChange Registry.networkOfArc
  simp only [hr.routed n hn e.1 he]
  unfold Registry.network
  rw [hr.sound.network?_eq_some hn]

/-- A constraint makes its changes, whatever its coefficients. -/
theorem changesFor_total (hr : r.Prepared) {c : Constraint}
    (hc : ∀ e ∈ c.arcs, ∃ n ∈ r.networks, e.1 ∈ n.topology.arcs)
    (value : Float) :
    ∃ ws, changesFor r tolerance c value = .ok ws ∧ ∀ w ∈ ws, Fits r w := by
  unfold changesFor
  by_cases hle : (-value).abs ≤ tolerance
  · rw [if_pos hle]
    exact ⟨[], rfl, fun w hw => absurd hw List.not_mem_nil⟩
  · rw [if_neg hle]
    have hall : ∀ e ∈ c.arcs, ∃ w, weightChange r (-value) e = .ok w
        ∧ Fits r w := by
      intro e he
      obtain ⟨n, hn, ha⟩ := hc e he
      exact ⟨_, weightChange_total hr hn _ ha, n, hn, rfl, ha⟩
    obtain ⟨ws, hws⟩ := Action.exists_forall₂ hall
    refine ⟨ws, Action.except_mapM_eq_ok.2 (hws.imp fun _ _ => And.left), ?_⟩
    intro w hw
    obtain ⟨e, -, -, hfits⟩ := Action.exists_of_mem_right hws hw
    exact hfits

/-- Changes that fit can be made in every network. -/
theorem addWeights_of_fits (hr : r.Sound) {changes : List WeightChange}
    (hall : ∀ w ∈ changes, Fits r w) {n : Network} (hn : n ∈ r.networks) :
    ∃ n', n.addWeights (changesOf changes n.group) = .ok n' := by
  apply Network.addWeights_total (hr.networks n hn)
  intro c hc
  obtain ⟨w, hw, rfl⟩ := List.mem_map.1 hc
  obtain ⟨hin, hgroup⟩ := List.mem_filter.1 hw
  obtain ⟨m, hm, hwm, ha⟩ := hall w hin
  have hsame : m.group = n.group := by
    rw [← hwm]
    exact of_decide_eq_true hgroup
  rw [← hr.eq_of_group hm hn hsame]
  exact ha

/-- The prices of all constraints can be pushed onto the arcs. -/
theorem reweight_total [MasterProblem μ] {p : Problem μ}
    (hr : p.registry.Prepared) (hcovered : p.registry.Covered)
    {values : List Float} {m : μ}
    (hread : (p.registry.constraints.map Constraint.handle).mapM
      (multiplier kind) p.master
      = .ok values m) (hfinite : ∀ x ∈ values, x.isFinite = true)
        (tolerance : Float) :
    ∃ r, reweight kind tolerance p = .ok () ⟨r, m⟩ := by
  have hchanges : ∀ cv ∈ p.registry.constraints.zip values,
      ∃ ws, changesFor p.registry tolerance cv.1 cv.2 = .ok ws
        ∧ ∀ w ∈ ws, Fits p.registry w := by
    intro cv hcv
    obtain ⟨c, value⟩ := cv
    exact changesFor_total hr (hcovered c (List.of_mem_zip hcv).1) value
  obtain ⟨changes, hall⟩ := Action.exists_forall₂ hchanges
  have hfits : ∀ w ∈ changes.flatten, Fits p.registry w := by
    intro w hw
    obtain ⟨ws, hws, hin⟩ := List.mem_flatten.1 hw
    obtain ⟨_, -, -, hfit⟩ := Action.exists_of_mem_right hall hws
    exact hfit w hin
  obtain ⟨ns, hns⟩ := Action.exists_forall₂ fun n hn =>
    addWeights_of_fits hr.sound hfits hn
  exact ⟨_, reweight_eq_ok.2
    ⟨values, m, changes, ns, hread, hfinite, hall.imp fun _ _ => And.left, hns,
      rfl⟩⟩

/-- Sound networks all answer. -/
theorem shortestPaths_total (hr : r.Sound) :
    ∃ paths r', shortestPaths r = .ok paths r' := by
  have hall : ∀ n ∈ r.networks, ∃ x : Path × Network,
      n.findPath = .ok x.1 ∧ x.2 = { n with cached := some x.1 } := by
    intro n hn
    obtain ⟨p, hp, -⟩ := Network.findPath_total (hr.networks n hn)
    exact ⟨(p, { n with cached := some p }), hp, rfl⟩
  obtain ⟨rs, hrs⟩ := Action.exists_forall₂ hall
  exact ⟨_, _, (shortestPaths_eq_ok hr.networks).2 ⟨rs, hrs, rfl, rfl⟩⟩

-- ============================================================= columns

/-- All entries are made under handles of a set, and all of these are open
in the master. -/
structure Stocked (handles : ConstraintId → Prop) (p : Problem MemoryMaster) :
    Prop where
  listed : ∀ a, ∀ e ∈ entriesIn p.registry a, handles e.handle
  opened : ∀ c, handles c → p.master.Open c

variable {handles : ConstraintId → Prop}

/-- Coefficients of registered constraints are accepted, and create no
variable. -/
theorem ensures_addCoefficients (v : VariableId) (path : Path) (count : Nat) :
    Action.Ensures (fun p =>
      Stocked handles p ∧ p.master.columns.length = count)
      (addCoefficients v path) fun _ p =>
        Stocked handles p ∧ p.master.columns.length = count := by
  apply Action.ensures_forM
  intro a _ p hp
  -- the entries are those of the registry, which coefficients leave alone
  have hrun : Action.Ensures (fun q =>
      (Stocked handles q ∧ q.master.columns.length = count)
        ∧ q.registry = p.registry)
      ((entriesIn p.registry a).forM fun e =>
        Problem.onMaster
          (MasterProblem.addCoefficient e.handle v e.coefficient))
      fun _ q => (Stocked handles q ∧ q.master.columns.length = count)
        ∧ q.registry = p.registry := by
    apply Action.ensures_forM
    intro e he q h
    obtain ⟨⟨hq, hcount⟩, hregistry⟩ := h
    have hopen := hq.opened e.handle (hp.1.listed a e he)
    refine ⟨(), _, Problem.onMaster_eq_ok.2
      ⟨_, MemoryMaster.addCoefficient_of_open hopen v e.coefficient, rfl⟩,
      ⟨⟨hq.listed, ?_⟩, hcount⟩, hregistry⟩
    intro c hc
    apply (hq.opened c hc).modifyRow
    intro r
    exact ⟨rfl, id⟩
  obtain ⟨u, q, hq, hkept, -⟩ := hrun p ⟨hp, rfl⟩
  exact ⟨u, q, hq, hkept⟩

/-- A column can be added to a master in which its constraints are open. -/
theorem ensures_addColumn (name : String) (path : Path) :
    Action.Ensures (Stocked handles) (addColumn tolerance name path)
      fun _ => Stocked handles := by
  unfold addColumn
  split
  · intro p hp
    obtain ⟨⟨⟩, q, hq, hkept, hcount⟩ :=
      ensures_addCoefficients (.ofIndex p.master.columns.length) path
        (p.master.columns.length + 1)
        { p with master := { p.master with columns := p.master.columns
            ++ [{ name, lower := 0.0, upper := Weight.infinity,
                  objective := 0.0, committed := false }] } }
        ⟨⟨hp.listed, hp.opened⟩, List.length_append⟩
    have hlt : (VariableId.ofIndex p.master.columns.length).index
        < q.master.columns.length := by
      rw [hcount]
      exact Nat.lt_succ_of_le (VariableId.index_ofIndex_le _)
    obtain ⟨columns, hcommit⟩ := MemoryMaster.commitVariable_of_lt hlt
    refine ⟨true, { registry := q.registry.recordColumn name path
                    master := { q.master with columns } }, ?_, hkept.listed,
                    hkept.opened⟩
    refine Action.bind_eq_ok.2
      ⟨_, _, Problem.onMaster_eq_ok.2 ⟨_, rfl, rfl⟩, ?_⟩
    refine Action.bind_eq_ok.2 ⟨(), q, hq, ?_⟩
    exact Action.bind_eq_ok.2
      ⟨(), _, Problem.onMaster_eq_ok.2 ⟨_, hcommit, rfl⟩, rfl⟩
  · exact Action.ensures_pure fun _ => id

/-- So all columns of a round are added. -/
theorem ensures_addColumns (tolerance : Float) (first : Nat)
    (chosen : List Path) :
    Action.Ensures (Stocked handles) (addColumns tolerance first chosen)
      fun _ => Stocked handles := by
  unfold addColumns
  apply Action.ensures_bind
  · apply Action.ensures_mapM
    intro x _
    exact ensures_addColumn (columnName x.2) x.1
  · intro added
    exact Action.ensures_pure fun _ => id

end Round

-- ========================================================= multipliers

namespace MemoryMaster

variable {m : MemoryMaster} {c : ConstraintId}

/-- The multiplier of a constraint; zero if none is set. -/
def value (kind : PricingKind) (m : MemoryMaster) (c : ConstraintId) : Float :=
  match kind with
  | .reducedCost => (m.duals.get? c).getD 0.0
  | .farkas => (m.farkas.get? c).getD 0.0

/-- A table of finite multipliers. -/
def FiniteTable (t : Table ConstraintId Float) : Prop :=
  ∀ c x, t.get? c = some x → x.isFinite = true

/-- All multipliers that are set are finite. -/
structure FiniteValues (m : MemoryMaster) : Prop where
  duals : FiniteTable m.duals
  farkas : FiniteTable m.farkas

/-- Whether a table is finite can be computed. -/
theorem finiteTable_of_all {t : Table ConstraintId Float}
    (h : (t.entries.all fun e => e.2.isFinite) = true) : FiniteTable t := by
  intro c x hx
  exact List.all_eq_true.1 h (c, x) (Table.mem_of_find hx)

/-- What a finite table does not hold counts as zero. -/
theorem FiniteTable.isFinite_getD {t : Table ConstraintId Float}
    (h : FiniteTable t) (c : ConstraintId) :
    ((t.get? c).getD 0.0).isFinite = true := by
  cases hc : t.get? c with
  | none => decide +kernel
  | some x => exact h c x hc

theorem FiniteValues.isFinite_value (h : m.FiniteValues) (kind : PricingKind)
    (c : ConstraintId) : (m.value kind c).isFinite = true := by
  cases kind with
  | reducedCost => exact h.duals.isFinite_getD c
  | farkas => exact h.farkas.isFinite_getD c

/-- The multiplier of an open constraint can be read. -/
theorem multiplier_of_open (h : m.Open c) :
    Round.multiplier kind c m = .ok (m.value kind c) m := by
  obtain ⟨r, hrow, -⟩ := h
  cases kind with
  | reducedCost =>
      exact Action.bind_eq_ok.2 ⟨r, m, row_eq_ok.2 ⟨hrow, rfl⟩, rfl⟩
  | farkas => exact Action.bind_eq_ok.2 ⟨r, m, row_eq_ok.2 ⟨hrow, rfl⟩, rfl⟩

/-- The multipliers of open constraints can all be read. -/
theorem mapM_multiplier_of_open {hs : List ConstraintId}
    (h : ∀ c ∈ hs, m.Open c) :
    hs.mapM (Round.multiplier kind) m = .ok (hs.map (m.value kind)) m := by
  induction hs with
  | nil => rfl
  | cons c hs ih =>
      refine Action.mapM_cons_eq_ok.2 ⟨m.value kind c, m, hs.map (m.value kind),
        ?_, ?_, rfl⟩
      · exact multiplier_of_open (h c List.mem_cons_self)
      · exact ih fun d hd => h d (List.mem_cons_of_mem c hd)

end MemoryMaster

-- ============================================================== rounds

namespace Solve

/-- A solve of which no round can fail. -/
structure Able (s : Solve MemoryMaster) : Prop where
  prepared : s.problem.registry.Prepared
  covered : s.problem.registry.Covered
  opened : ∀ c ∈ s.problem.registry.constraints, s.problem.master.Open c.handle
  ready : s.pricer.state = .ready

/-- A round whose phases succeed one after another succeeds. -/
theorem price_of_phases [MasterProblem μ] {s : Solve μ} {p p' : Problem μ}
    {r : Registry} {paths : List Path} {k : Nat}
    (hready : s.pricer.state = .ready)
    (hweights : Round.reweight kind s.pricer.tolerance
      ⟨Round.zeroWeights s.problem.registry, s.problem.master⟩ = .ok () p)
    (hpaths : Round.shortestPaths p.registry = .ok paths r)
    (hcolumns : Round.addColumns s.pricer.tolerance s.pricer.nextColumn
      (s.pricer.selection.select s.pricer.tolerance paths) ⟨r, p.master⟩
        = .ok k p') :
    ∃ out t, price kind s = .ok out t ∧ t.problem = p' := by
  have hrequire : require .price (· == .ready) s = .ok () s := by
    refine require_eq_ok.2 ⟨?_, rfl⟩
    rw [hready]
    rfl
  refine ⟨{ columns := k, status := .success },
    { problem := p', pricer := { s.pricer with
    rounds := s.pricer.rounds + 1
    generated := s.pricer.generated + k
    nextColumn := s.pricer.nextColumn
      + (s.pricer.selection.select s.pricer.tolerance paths).length } },
      ?_, rfl⟩
  unfold price
  refine Action.bind_eq_ok.2 ⟨(), s, hrequire, ?_⟩
  rw [Action.get_bind]
  refine Action.bind_eq_ok.2 ⟨(), _, onProblem_eq_ok.2
    ⟨_, Problem.modifyRegistry_eq_ok.2 rfl, rfl⟩, ?_⟩
  refine Action.bind_eq_ok.2 ⟨(), _, onProblem_eq_ok.2 ⟨_, hweights, rfl⟩, ?_⟩
  refine Action.bind_eq_ok.2 ⟨paths, _, onProblem_eq_ok.2
    ⟨_, Problem.onRegistry_eq_ok.2 ⟨r, hpaths, rfl⟩, rfl⟩, ?_⟩
  refine Action.bind_eq_ok.2 ⟨(), _, modifyPricer_eq_ok.2 rfl, ?_⟩
  exact Action.bind_eq_ok.2 ⟨k, _, onProblem_eq_ok.2 ⟨_, hcolumns, rfl⟩, rfl⟩

/-- A round under finite multipliers succeeds, and the solve can go on. -/
theorem Able.price {s : Solve MemoryMaster} (hs : Able s)
    (hfinite : s.problem.master.FiniteValues) (kind : PricingKind) :
    ∃ out t, Solve.price kind s = .ok out t ∧ Able t := by
  have hzero := Round.onward_zeroWeights s.problem.registry
  have hread : (s.problem.registry.constraints.map Constraint.handle).mapM
        (Round.multiplier kind) s.problem.master
      = .ok ((s.problem.registry.constraints.map Constraint.handle).map
          (s.problem.master.value kind)) s.problem.master := by
    apply MemoryMaster.mapM_multiplier_of_open
    intro c hc
    obtain ⟨x, hx, rfl⟩ := List.mem_map.1 hc
    exact hs.opened x hx
  have hvalues :
      ∀ x ∈ (s.problem.registry.constraints.map Constraint.handle).map
      (s.problem.master.value kind), x.isFinite = true := by
    intro x hx
    obtain ⟨c, -, rfl⟩ := List.mem_map.1 hx
    exact hfinite.isFinite_value kind c
  obtain ⟨r₁, hweights⟩ := Round.reweight_total
    (p := ⟨Round.zeroWeights s.problem.registry, s.problem.master⟩)
      (hs.prepared.onward hzero)
    (hs.covered.onward hs.prepared.sound hzero) hread hvalues s.pricer.tolerance
  have hchanged :=
    hzero.trans ((Round.moves_reweight kind s.pricer.tolerance).of_ok hweights)
  obtain ⟨paths, r₂, hpaths⟩ :=
    Round.shortestPaths_total (hs.prepared.onward hchanged).sound
  have hasked : Registry.Onward s.problem.registry r₂ :=
    hchanged.trans (Round.moves_shortestPaths.of_ok hpaths)
  -- columns only use constraints that the registry lists
  have hstocked :
      Round.Stocked (fun c => ∃ x ∈ s.problem.registry.constraints,
        x.handle = c)
      ⟨r₂, s.problem.master⟩ := by
    obtain ⟨-, hindex, -⟩ := hasked.keeps
    refine ⟨?_, ?_⟩
    · intro a e he
      unfold Round.entriesIn Registry.entriesOf at he
      rw [hindex] at he
      exact hs.prepared.transposed.exists_constraint he
    · intro c hc
      obtain ⟨x, hx, rfl⟩ := hc
      exact hs.opened x hx
  obtain ⟨k, p', hcolumns, hkept⟩ := Round.ensures_addColumns s.pricer.tolerance
    s.pricer.nextColumn (s.pricer.selection.select s.pricer.tolerance paths) _
      hstocked
  obtain ⟨out, t, hprice, rfl⟩ :=
    price_of_phases hs.ready hweights hpaths hcolumns
  have hmoved := (moves_price kind).of_ok hprice
  refine ⟨out, t, hprice, ?_⟩
  exact {
    prepared := hs.prepared.onward hmoved.registry
    covered := hs.covered.onward hs.prepared.sound hmoved.registry
    opened := by
      intro c hc
      rw [hmoved.registry.keeps.1] at hc
      exact hkept.opened c.handle ⟨c, hc, rfl⟩
    ready := hmoved.state.trans hs.ready }

end Solve

-- ============================================================ sessions

/-- A round to come: its kind, and the multipliers that the master has by
then. -/
structure RoundInput where
  kind : PricingKind
  duals : Table ConstraintId Float
  farkas : Table ConstraintId Float

namespace RoundInput

/-- All its multipliers are finite. -/
structure Finite (x : RoundInput) : Prop where
  duals : MemoryMaster.FiniteTable x.duals
  farkas : MemoryMaster.FiniteTable x.farkas

/-- The solve in which the master has the multipliers of the round. -/
def solved (x : RoundInput) (s : Solve MemoryMaster) : Solve MemoryMaster :=
  { s with problem := { s.problem with master := { s.problem.master with
      duals := x.duals
      farkas := x.farkas } } }

/-- Sets the multipliers and runs the round. -/
def run (x : RoundInput) :
    Action PricingError (Solve MemoryMaster) RoundOutcome := do
  modify x.solved
  Solve.price x.kind

/-- A round under finite multipliers succeeds in a solve that is able. -/
theorem ensures_run {x : RoundInput} (hx : x.Finite) :
    Action.Ensures Solve.Able x.run fun _ => Solve.Able := by
  intro s hs
  have hsolved : Solve.Able (x.solved s) :=
    ⟨hs.prepared, hs.covered, hs.opened, hs.ready⟩
  obtain ⟨out, t, hprice, ht⟩ := hsolved.price ⟨hx.duals, hx.farkas⟩ x.kind
  exact ⟨out, t, Action.bind_eq_ok.2 ⟨(), x.solved s, rfl, hprice⟩, ht⟩

end RoundInput

namespace Session

variable {ds : List Description} {unneeded : List String} {model : MemoryMaster}
  {indexed : Problem MemoryMaster} {s t : Solve MemoryMaster}

/-- The start of a session leaves a solve that is able: every handle leads
to a constraint that is open, be it the one that was indexed or the copy
that was made of it. Copies from before the indexing have to be such that
it leaves them open, unless a later transformation replaces them. -/
theorem able (h : Session ds unneeded model indexed s t)
    (hcopies : model.CopiesOpen unneeded
      ∨ MemoryMaster.Transformed indexed.master s.problem.master)
    (hcovered : indexed.registry.Covered)
    (hlater : MemoryMaster.Later indexed.master s.problem.master)
    (hcount : s.problem.master.rows.length ≤ UInt32.size) : t.Able := by
  obtain ⟨k, r, j, hds, hindex⟩ := h.indexes
  have hbuilt := Setup.built_of_addDescriptions Registry.built_empty hds
  have hopened := Setup.ready_of_indexConstraints hbuilt.constraints hindex
    (Nat.le_trans hlater.rows.length_le hcount)
  have hready : ∀ x ∈ indexed.registry.constraints,
      s.problem.master.Ready x.handle := by
    intro x hx
    obtain ⟨horiginal, hindexed⟩ := hopened x hx
    rcases hcopies with hcopies | htransformed
    · exact hlater.ready hcount (hindexed hcopies)
    · exact htransformed.ready hcount horiginal
  obtain ⟨-, r', m', hremap, rfl⟩ := Solve.start_eq_ok.1 h.start
  obtain ⟨rfl, rfl⟩ := Registry.remap_spec MemoryMaster.answers_step rfl hremap
  rw [h.begins]
  exact {
    prepared := h.prepared_indexed.renamed _
    covered := hcovered.renamed _
    opened := by
      intro c hc
      obtain ⟨x, hx, rfl⟩ := List.mem_map.1 hc
      obtain ⟨horiginal, hcopy⟩ := hready x hx
      show s.problem.master.Open
        ((s.problem.master.transformed.get? x.handle).getD x.handle)
      cases hd : s.problem.master.transformed.get? x.handle with
      | none => exact horiginal
      | some d => exact hcopy d hd
    ready := rfl }

/-- In a session with a master in memory no round fails by itself. The
network descriptions were registered and the constraints indexed, whatever
their coefficients are, and all arcs belong to networks; from then on the
master was transformed and changed as masters are while they are modelled,
and the solve was started. Copies that had been made before the indexing
were replaced by a transformation after it, or the indexing has left those
of the registered constraints open. Then all rounds under finite
multipliers succeed, in any order. -/
theorem rounds_succeed (h : Session ds unneeded model indexed s t)
    (hcopies : model.CopiesOpen unneeded
      ∨ MemoryMaster.Transformed indexed.master s.problem.master)
    (hcovered : indexed.registry.Covered)
    (hlater : MemoryMaster.Later indexed.master s.problem.master)
    (hcount : s.problem.master.rows.length ≤ UInt32.size)
    (rounds : List RoundInput) (hfinite : ∀ x ∈ rounds, x.Finite) :
    ∃ outs u, rounds.mapM RoundInput.run t = .ok outs u := by
  obtain ⟨outs, u, hrun, -⟩ := Action.ensures_mapM
    (fun x hx => RoundInput.ensures_run (hfinite x hx)) t
      (h.able hcopies hcovered hlater hcount)
  exact ⟨outs, u, hrun⟩

/-- A round of each kind. -/
def sampleRounds : List RoundInput :=
  [⟨.farkas, .empty, ⟨[(⟨3⟩, 0.5)]⟩⟩, ⟨.reducedCost, sampleDuals, .empty⟩]

/-- The model has no copies, and is transformed twice after the indexing.
In the second round both networks get a column. -/
theorem rounds_succeed_sample :
    ∃ t : Solve MemoryMaster, t.problem.registry.constraints.length = 2
      ∧ ∃ outs u, sampleRounds.mapM RoundInput.run t = .ok outs u := by
  have hrun : passes sampleDescriptions [] sampleModel
      (fun m => m.transform.transform) (fun q t =>
        decide q.registry.Covered
          && decide (q.master.transform.transform.rows.length ≤ UInt32.size)
          && decide (t.problem.registry.constraints.length = 2)) = true := by
    decide +kernel
  obtain ⟨q, t, hsession, hrun⟩ := exists_of_passes hrun
  rw [Bool.and_eq_true, Bool.and_eq_true, decide_eq_true_iff,
    decide_eq_true_iff, decide_eq_true_iff] at hrun
  obtain ⟨⟨hcovered, hcount⟩, htwo⟩ := hrun
  have hmodel : MemoryMaster.Later {} sampleModel :=
    MemoryMaster.later_of_untransformed rfl
  have htwice : MemoryMaster.Later q.master q.master.transform.transform :=
    .tail (.single (.transform _)) (.transform _)
  have hfinite : ∀ x ∈ sampleRounds, x.Finite := by
    intro x hx
    rcases List.mem_cons.1 hx with rfl | hx
    · exact ⟨MemoryMaster.finiteTable_of_all rfl,
        MemoryMaster.finiteTable_of_all (by decide +kernel)⟩
    · rw [List.mem_singleton.1 hx]
      exact ⟨MemoryMaster.finiteTable_of_all (by decide +kernel),
        MemoryMaster.finiteTable_of_all rfl⟩
  refine ⟨t, htwo, ?_⟩
  exact rounds_succeed hsession
    (.inl ((hmodel.faithful (by decide)).copiesOpen [])) hcovered htwice
    hcount sampleRounds hfinite

/-- A constraint and the variable of an arc. -/
def sampleEntered : MemoryMaster :=
  (MemoryMaster.addVariable (MemoryMaster.addConstraint {} "cover").2
    "y(0|0|neg2|neg1|0|false|0,0|0|35|neg1|0|false|0)").2

/-- The constraint is transformed before it gets its term, so that its copy
has none. -/
def sampleLate : MemoryMaster := sampleEntered.transform.addTerm ⟨0⟩ ⟨0⟩ 1.0

/-- The master goes on to be modelled: it gets a constraint with a variable
whose name is malformed. -/
def sampleMalformed (m : MemoryMaster) : MemoryMaster :=
  let (v, m) := m.addVariable "y(0|0)"
  let (c, m) := m.addConstraint "bad"
  m.addTerm c v 1.0

/-- A round without any multipliers, and one with a dual value for the
copy. -/
def sampleQuiet : RoundInput := ⟨.reducedCost, .empty, .empty⟩

def sampleLoud : RoundInput := ⟨.reducedCost, ⟨[(⟨1⟩, 1.0)]⟩, .empty⟩

/-- Two sessions whose first round fails. In the first, the copy was made
before its original had a term of an arc: the indexing opens the original
only, and the pricer uses the copy. In the second, the constraints are
indexed once more after the start; this deletes the constraint that is
registered and then fails, before it changes the registry. -/
theorem rounds_succeed_differs :
    (∃ (indexed : Problem MemoryMaster) (s t u : Solve MemoryMaster),
      Session [sampleDescription] [] sampleLate indexed s t
        ∧ indexed.registry.Covered
        ∧ s.problem.master = indexed.master ∧ sampleLoud.Finite
        ∧ sampleLoud.run t
          = .error (.master
            ⟨.addCoefficient, "constraint ConsId(1) is not modifiable"⟩) u)
    ∧ ∃ (indexed q : Problem MemoryMaster) (s t u : Solve MemoryMaster)
      (e : PricingError),
      Session [sampleDescription] []
        (sampleEntered.addTerm ⟨0⟩ ⟨0⟩ 1.0) indexed s t
        ∧ indexed.registry.Covered ∧ s.problem.master = indexed.master
        ∧ Setup.indexConstraints ["cover"]
            { t.problem with master := sampleMalformed t.problem.master }
              = .error e q
        ∧ q.registry = t.problem.registry ∧ sampleQuiet.Finite
        ∧ sampleQuiet.run { t with problem := q }
          = .error (.master ⟨.dualValue, "no constraint ConsId(0)"⟩) u := by
  have hlate : passes [sampleDescription] [] sampleLate id (fun q t =>
      decide q.registry.Covered && sampleLoud.run.fails
        (.master ⟨.addCoefficient, "constraint ConsId(1) is not modifiable"⟩) t)
          = true := by
    decide +kernel
  have hagain : passes [sampleDescription] []
      (sampleEntered.addTerm ⟨0⟩ ⟨0⟩ 1.0) id (fun q t =>
      let p := { t.problem with master := sampleMalformed t.problem.master }
      let again := (Setup.indexConstraints ["cover"]).after p
      decide q.registry.Covered
        && !(Setup.indexConstraints ["cover"]).passes (fun _ _ => true) p
        && decide (again.registry = t.problem.registry)
        && sampleQuiet.run.fails
          (.master ⟨.dualValue, "no constraint ConsId(0)"⟩)
            { t with problem := again }) = true := by
    decide +kernel
  refine ⟨?_, ?_⟩
  · obtain ⟨q, t, hsession, hrun⟩ := exists_of_passes hlate
    rw [Bool.and_eq_true, decide_eq_true_iff] at hrun
    obtain ⟨hcovered, hfails⟩ := hrun
    obtain ⟨u, hround⟩ := Action.exists_of_fails hfails
    exact ⟨q, _, t, u, hsession, hcovered, rfl,
      ⟨MemoryMaster.finiteTable_of_all (by decide +kernel),
        MemoryMaster.finiteTable_of_all rfl⟩, hround⟩
  · obtain ⟨q, t, hsession, hrun⟩ := exists_of_passes hagain
    simp only [Bool.and_eq_true, decide_eq_true_iff, Bool.not_eq_true'] at hrun
    obtain ⟨⟨⟨hcovered, hbreaks⟩, hregistry⟩, hfails⟩ := hrun
    obtain ⟨u, hround⟩ := Action.exists_of_fails hfails
    obtain ⟨e, w, hindex⟩ := Action.exists_of_not_passes hbreaks
    rw [Action.after_of_error hindex] at hregistry hround
    exact ⟨q, w, _, t, u, e, hsession, hcovered, rfl, hindex, hregistry,
      ⟨MemoryMaster.finiteTable_of_all rfl,
        MemoryMaster.finiteTable_of_all rfl⟩, hround⟩

end Session

end FlowPricing
