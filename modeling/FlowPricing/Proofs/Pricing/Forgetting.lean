/-
A round forgets the past. What it computes depends on the topologies of the
networks, the routes, the constraints with their index (`Registry.Alike`)
and the multipliers that the master reports (`Round.Reports`), and on nothing
that earlier rounds leave behind: weights, remembered paths, columns, counts
and multipliers of the other kind.

The reason is that a round starts by making all weights zero. Networks of
the same topologies are the same networks then, so from there two rounds
make the same changes and get the same answers (`Solve.Run.alike`). What is
left to fail on one side only are the calls of its master.
-/
import FlowPricing.Proofs.Pricing.PlainLoop
import FlowPricing.Proofs.Pricing.Progress

namespace FlowPricing

variable {μ μ₁ μ₂ : Type} {kind : PricingKind} {tolerance : Float}

-- ============================================================ networks

namespace Network

/-- What changes of its weights make of a network without weights. -/
def weighed (ws : List WeightChange) (t : Topology) :
    Topology × Table Arc Float :=
  (t, (Round.changesOf ws t.group).foldl (fun w c => w.modify c.1 (· + c.2))
    (Table.fill t.arcs 0.0))

/-- The path that a network of this weighting finds. -/
def pathOf (w : Topology × Table Arc Float) : Except NetworkError Path :=
  findPath ⟨w.1, w.2, none⟩

/-- A network that weighs nothing is as it was built. -/
theorem resetWeights_eq {n : Network} (h : n.Sound) :
    n.resetWeights = ofTopology n.topology := by
  unfold resetWeights ofTopology Table.mapValues Table.fill
  rw [← h.keys]
  simp [Table.keys, Function.comp_def]

end Network

-- ========================================================== registries

namespace Registry

variable {r₁ r₂ : Registry}

/-- Registries that differ in nothing that a round may depend on: their
networks may have any weights and remember any paths, and any columns may be
recorded. -/
structure Alike (r₁ r₂ : Registry) : Prop where
  topologies : r₂.networks.map Network.topology
    = r₁.networks.map Network.topology
  routes : ∀ field, r₂.fields.get? field = r₁.fields.get? field
  constraints : r₂.constraints = r₁.constraints
  entries : ∀ a, r₂.entriesOf a = r₁.entriesOf a

namespace Alike

/-- Without weights the networks are the same. -/
theorem zeroed (h : Alike r₁ r₂) (h₁ : r₁.Sound) (h₂ : r₂.Sound) :
    (Round.zeroWeights r₂).networks = (Round.zeroWeights r₁).networks := by
  have hzero : ∀ r : Registry, r.Sound → (Round.zeroWeights r).networks
      = (r.networks.map Network.topology).map Network.ofTopology := by
    intro r hr
    rw [List.map_map]
    exact List.map_congr_left fun n hn =>
      Network.resetWeights_eq (hr.networks n hn)
  rw [hzero r₁ h₁, hzero r₂ h₂, h.topologies]

/-- So the same multipliers make the same changes. -/
theorem changesFor_eq (h : Alike r₁ r₂) (h₁ : r₁.Sound) (h₂ : r₂.Sound) :
    Round.changesFor (Round.zeroWeights r₂)
      = Round.changesFor (Round.zeroWeights r₁) := by
  have hnetwork : ∀ g, (Round.zeroWeights r₂).network g
      = (Round.zeroWeights r₁).network g := by
    intro g
    unfold network network?
    rw [h.zeroed h₁ h₂]
  have hroute : ∀ a, (Round.zeroWeights r₂).networkOfArc a
      = (Round.zeroWeights r₁).networkOfArc a := by
    intro a
    have hfield : (Round.zeroWeights r₂).fields.get? a.source.network
        = (Round.zeroWeights r₁).fields.get? a.source.network := h.routes _
    unfold networkOfArc
    simp only [hnetwork, hfield]
  funext tolerance c value
  unfold Round.changesFor Round.weightChange
  simp only [hroute]

/-- Registries that are alike have the same entries. -/
theorem entriesIn_eq (h : Alike r₁ r₂) :
    Round.entriesIn r₂ = Round.entriesIn r₁ := by
  funext a
  unfold Round.entriesIn
  rw [h.entries]

end Alike

/-- Networks that went on by their own operations have the topologies they
had. -/
theorem topologies_of_later {ms ns : List Network}
    (h : List.Forall₂ Network.Later ms ns) (hs : ∀ n ∈ ms, n.Sound) :
    ns.map Network.topology = ms.map Network.topology := by
  induction h with
  | nil => rfl
  | @cons m n ms ns hmn _ ih =>
      rw [List.map_cons, List.map_cons, (hmn.sound (hs m List.mem_cons_self)).2,
        ih fun k hk => hs k (List.mem_cons_of_mem m hk)]

/-- However far rounds take a registry, it stays like what it was. -/
theorem Onward.alike {r r' : Registry} (h : Onward r r') (hr : r.Sound) :
    r.Alike r' := by
  obtain ⟨hconstraints, hindex, hfields⟩ := h.keeps
  refine ⟨topologies_of_later h.networks hr.networks,
    fun field => by rw [hfields], hconstraints, fun a => ?_⟩
  unfold entriesOf
  rw [hindex]

end Registry

-- ========================================================= multipliers

namespace Round

/-- Asked for multipliers of these constraints and nothing else, a master
reports `v` whenever it answers. -/
def Reports [MasterProblem μ] (kind : PricingKind) (cs : List Constraint)
    (v : ConstraintId → Float) (m : μ) : Prop :=
  ∃ P : μ → Prop, P m ∧ ∀ c ∈ cs, ∀ m x m', P m →
    multiplier kind c.handle m = .ok x m' →
    x = v c.handle ∧ P m'

section Reading

variable [MasterProblem μ] {v : ConstraintId → Float} {cs : List Constraint}
  {m m' : μ}

/-- Read in order, the multipliers are those reported. -/
theorem Reports.values (h : Reports kind cs v m) {values : List Float}
    (hread : (cs.map Constraint.handle).mapM (multiplier kind) m
      = .ok values m') :
    values = cs.map fun c => v c.handle := by
  obtain ⟨P, hm, hP⟩ := h
  induction cs generalizing m values with
  | nil => exact (Action.mapM_nil_eq_ok.1 hread).1
  | cons c cs ih =>
      obtain ⟨x, m₁, xs, hx, hxs, rfl⟩ := Action.mapM_cons_eq_ok.1 hread
      obtain ⟨rfl, hm₁⟩ := hP c List.mem_cons_self m x m₁ hm hx
      rw [ih hxs hm₁ fun d hd => hP d (List.mem_cons_of_mem c hd),
        List.map_cons]

variable {r : Registry} {changes : List (List WeightChange)}

/-- The changes that multipliers make, constraint by constraint. -/
theorem forall₂_of_zip
    (hfinite : ∀ x ∈ cs.map (fun c => v c.handle), x.isFinite = true)
    (hchanges : List.Forall₂ (fun cv ws =>
      changesFor r tolerance cv.1 cv.2 = .ok ws)
      (cs.zip (cs.map fun c => v c.handle)) changes) :
    List.Forall₂ (fun c ws => (v c.handle).isFinite = true
      ∧ changesFor r tolerance c (v c.handle) = .ok ws) cs changes := by
  rw [← List.map_prod_left_eq_zip, List.forall₂_map_left_iff] at hchanges
  refine (Action.forall₂_congr_left fun c hc ws => ?_).1 hchanges
  have hc := hfinite _ (List.mem_map_of_mem hc)
  simp [hc]

/-- Where the reported multipliers are finite and make these changes, a
round finds the changes, or the master fails. -/
theorem Reports.mapM_constraintChanges (h : Reports kind cs v m)
    (hchanges : List.Forall₂ (fun c ws => (v c.handle).isFinite = true
      ∧ changesFor r tolerance c (v c.handle) = .ok ws) cs changes) :
    (∃ m', cs.mapM (constraintChanges kind tolerance) ⟨r, m⟩
      = .ok changes ⟨r, m'⟩)
      ∨ ∃ e q, cs.mapM (constraintChanges kind tolerance) ⟨r, m⟩
        = .error (.master e) q := by
  obtain ⟨P, hm, hP⟩ := h
  induction hchanges generalizing m with
  | nil => exact .inl ⟨m, rfl⟩
  | @cons c ws cs changes hc _ ih =>
      rw [List.mapM_cons]
      cases hread : multiplier kind c.handle m with
      | error e m' =>
          have hprice : price kind c.handle ⟨r, m⟩
              = .error (.master e) ⟨r, m'⟩ :=
            Action.bind_eq_error.2 (.inl (Action.focus_eq_error.2
              ⟨m', Action.mapError_eq_error.2 ⟨e, hread, rfl⟩, rfl⟩))
          exact .inr ⟨e, _,
            Action.bind_eq_error.2
              (.inl (Action.bind_eq_error.2 (.inl hprice)))⟩
      | ok x m' =>
          obtain ⟨rfl, hm'⟩ := hP c List.mem_cons_self m x m' hm hread
          have hfirst : constraintChanges kind tolerance c ⟨r, m⟩
              = .ok ws ⟨r, m'⟩ :=
            constraintChanges_eq_ok.2 ⟨_, m', hread, hc.1, hc.2, rfl⟩
          rcases ih hm' fun d hd => hP d (List.mem_cons_of_mem c hd) with
            ⟨m'', hrest⟩ | ⟨e, q, hrest⟩
          · exact .inl ⟨m'', Action.bind_eq_ok.2 ⟨ws, _, hfirst,
              Action.bind_eq_ok.2 ⟨changes, _, hrest, rfl⟩⟩⟩
          · exact .inr ⟨e, q, Action.bind_eq_error.2 (.inr ⟨ws, _, hfirst,
              Action.bind_eq_error.2 (.inl hrest)⟩)⟩

/-- What multipliers `v` change in a registry: every constraint makes
changes, and every network takes those meant for it. -/
structure Priced (r : Registry) (tolerance : Float) (v : ConstraintId → Float)
    (changes : List (List WeightChange)) (ns : List Network) : Prop where
  changed : List.Forall₂ (fun c ws => (v c.handle).isFinite = true
    ∧ changesFor r tolerance c (v c.handle) = .ok ws) r.constraints changes
  taken : List.Forall₂ (fun n n' =>
    n.addWeights (changesOf changes.flatten n.group) = .ok n') r.networks ns

variable {p q : Problem μ} {ns : List Network}

/-- What a round reads and changes is what the reported multipliers change. -/
theorem Reports.priced (h : Reports kind p.registry.constraints v p.master)
    {u : Unit} (hweights : reweight kind tolerance p = .ok u q) :
    ∃ changes ns, Priced p.registry tolerance v changes ns := by
  obtain ⟨values, m, changes, ns, hread, hfinite, hchanges, hns, -⟩ :=
    reweight_eq_ok.1 hweights
  obtain rfl := h.values hread
  exact ⟨changes, ns, forall₂_of_zip hfinite hchanges, hns⟩

/-- Where the reported multipliers can be made weights, a round makes them,
or the master fails. -/
theorem Reports.reweight (h : Reports kind p.registry.constraints v p.master)
    (hpriced : Priced p.registry tolerance v changes ns) :
    (∃ q, Round.reweight kind tolerance p = .ok () q)
      ∨ ∃ e q, Round.reweight kind tolerance p = .error (.master e) q := by
  unfold Round.reweight
  simp only [Action.get_bind]
  rcases h.mapM_constraintChanges hpriced.changed with ⟨m', hread⟩
    | ⟨e, q, hread⟩
  · exact .inl ⟨_,
      Action.bind_eq_ok.2 ⟨changes, _, hread, Problem.onRegistry_eq_ok.2
      ⟨_, applyChanges_eq_ok.2 ⟨ns, hpriced.taken, rfl⟩, rfl⟩⟩⟩
  · exact .inr ⟨e, q, Action.bind_eq_error.2 (.inl hread)⟩

end Reading

end Round

/-- A master in memory reports the multipliers that are set. -/
theorem MemoryMaster.reports (kind : PricingKind) (cs : List Constraint)
    (m : MemoryMaster) :
    Round.Reports kind cs (m.value kind) m := by
  refine ⟨(· = m), rfl, ?_⟩
  rintro c - _ x m' rfl h
  cases kind with
  | reducedCost =>
      obtain ⟨r, t, hr, h⟩ := Action.bind_eq_ok.1 h
      obtain ⟨-, rfl⟩ := MemoryMaster.row_eq_ok.1 hr
      rw [Action.get_bind] at h
      obtain ⟨rfl, rfl⟩ := Action.pure_eq_ok.1 h
      exact ⟨rfl, rfl⟩
  | farkas =>
      obtain ⟨r, t, hr, h⟩ := Action.bind_eq_ok.1 h
      obtain ⟨-, rfl⟩ := MemoryMaster.row_eq_ok.1 hr
      rw [Action.get_bind] at h
      obtain ⟨rfl, rfl⟩ := Action.pure_eq_ok.1 h
      exact ⟨rfl, rfl⟩

/-- A record does not change what is reported. -/
theorem Recorded.reports [MasterProblem μ] {cs : List Constraint}
    {v : ConstraintId → Float} {m : Recorded μ}
    (h : Round.Reports kind cs v m.inner) : Round.Reports kind cs v m := by
  obtain ⟨P, hm, hP⟩ := h
  refine ⟨fun m => P m.inner, hm, ?_⟩
  intro c hc m x m' hm h
  cases kind with
  | reducedCost => exact hP c hc m.inner x m'.inner hm (Recorded.log_inner h)
  | farkas => exact hP c hc m.inner x m'.inner hm (Recorded.log_inner h)

/-- The same prices give them the same weights. -/
theorem Registry.Alike.priced {r₁ r₂ : Registry} (h : r₁.Alike r₂)
    (h₁ : r₁.Sound) (h₂ : r₂.Sound) {v : ConstraintId → Float}
    {changes : List (List WeightChange)} {ns : List Network}
    (hpriced : Round.Priced (Round.zeroWeights r₁) tolerance v changes ns) :
    Round.Priced (Round.zeroWeights r₂) tolerance v changes ns := by
  obtain ⟨hchanged, htaken⟩ := hpriced
  refine ⟨?_, ?_⟩
  · show List.Forall₂ _ r₂.constraints changes
    rw [h.constraints, h.changesFor_eq h₁ h₂]
    exact hchanged
  · rw [h.zeroed h₁ h₂]
    exact htaken

-- ============================================================== failures

namespace Round

/-- An error of the master. -/
def OfMaster (e : PricingError) : Prop := ∃ e', e = .master e'

/-- A call fails with a failure of the master. -/
theorem fails_onMaster {α : Type} (act : Action MasterError μ α) :
    Action.Fails OfMaster (Problem.onMaster act) :=
  Action.fails_focus (Action.fails_mapError fun e => ⟨e, rfl⟩)

/-- Columns are only ever refused by the master. -/
theorem fails_addColumns [MasterProblem μ] (first : Nat) (chosen : List Path) :
    Action.Fails OfMaster (addColumns (μ := μ) tolerance first chosen) := by
  have hcoefficients : ∀ v path, Action.Fails OfMaster
      (addCoefficients (μ := μ) v path) := by
    intro v path
    refine Action.fails_forM (fun a => Action.fails_get_bind fun p => ?_) _
    exact Action.fails_forM (fun e => fails_onMaster _) _
  unfold addColumns
  refine Action.fails_bind (Action.fails_mapM (fun x => ?_) _) fun _ =>
    Action.fails_pure _
  unfold addColumn
  split
  · refine Action.fails_bind (fails_onMaster _) fun v => ?_
    refine Action.fails_bind (hcoefficients v x.1) fun _ => ?_
    refine Action.fails_bind (fails_onMaster _) fun _ => ?_
    exact Action.fails_bind (Action.fails_modify _) fun _ => Action.fails_pure _
  · exact Action.fails_pure _

end Round

namespace Solve

variable [MasterProblem μ] {s t u : Solve μ} {v : ConstraintId → Float}
  {changes : List (List WeightChange)} {ns : List Network}

/-- So does a round once it has chosen. -/
theorem fails_generate (pricer : Pricer) (chosen : List Path) :
    Action.Fails Round.OfMaster (generate (μ := μ) pricer chosen) := by
  refine Action.fails_bind (Action.fails_modify _) fun _ => ?_
  refine Action.fails_bind (Action.fails_focus (Round.fails_addColumns _ _))
    fun columns => ?_
  exact Action.fails_bind (Action.fails_modify _) fun _ => Action.fails_pure _

omit [MasterProblem μ] in
/-- Among sound networks paths are always found. -/
theorem choose_ne_error (hs : s.problem.registry.Sound) (pricer : Pricer)
    (e : PricingError) :
    choose pricer s ≠ .error e t := by
  intro h
  obtain ⟨paths, r, hpaths⟩ := Round.shortestPaths_total hs
  rcases Action.bind_eq_error.1 h with h | ⟨_, _, -, h⟩
  · obtain ⟨p, h, -⟩ := Action.focus_eq_error.1 h
    obtain ⟨r', h, -⟩ := Action.focus_eq_error.1 h
    rw [hpaths] at h
    exact nomatch h
  · exact absurd h Action.pure_ne_error

/-- Where multipliers `v` can be made weights, and the master reports these,
only the master can fail a round. -/
theorem ofMaster_of_priced (hs : s.problem.registry.Sound)
    (hready : s.pricer.state = .ready)
    (hreports : Round.Reports kind s.problem.registry.constraints v
      s.problem.master)
    (hpriced : Round.Priced (Round.zeroWeights s.problem.registry)
      s.pricer.tolerance v changes ns)
    {e : PricingError} (h : price kind s = .error e u) : Round.OfMaster e := by
  have hweights := Round.Reports.reweight
    (p := { s.problem with registry := Round.zeroWeights s.problem.registry })
      hreports hpriced
  rw [price_of_ready hready] at h
  rcases Action.bind_eq_error.1 h with h | ⟨chosen, t, -, h⟩
  · rcases Action.bind_eq_error.1 h with h | ⟨⟨⟩, t, hweigh, h⟩
    · rw [weigh_eq_reweight] at h
      obtain ⟨q, h, -⟩ := Action.focus_eq_error.1 h
      rcases hweights with ⟨q', hweights⟩ | ⟨e', q', hweights⟩
      · rw [hweights] at h
        exact nomatch h
      · rw [hweights] at h
        obtain ⟨rfl, -⟩ := EStateM.Result.error.inj h
        exact ⟨e', rfl⟩
    · rw [weigh_eq_reweight] at hweigh
      obtain ⟨q, hq, rfl⟩ := onProblem_eq_ok.1 hweigh
      have honward : Registry.Onward s.problem.registry q.registry :=
        (Round.onward_zeroWeights _).trans ((Round.moves_reweight _ _).of_ok hq)
      exact absurd h (choose_ne_error (honward.sound hs) _ e)
  · exact fails_generate _ _ t e u h

-- ============================================================== answers

omit [MasterProblem μ] in
/-- What a network is served depends on its topology. -/
theorem Served.determined {ws : List WeightChange} {n : Network}
    {x : Path × Network} (h : Served ws n x) (hn : n.Sound) :
    x.2.weighting = Network.weighed ws n.topology
      ∧ Network.pathOf (Network.weighed ws n.topology) = .ok x.1 := by
  have hzero := Network.resetWeights_eq hn
  have hweighting : x.2.weighting = Network.weighed ws n.topology := by
    unfold Network.weighting Network.weighed
    rw [h.weights, h.topology]
    have hweights : (n.weights.mapValues fun _ => 0.0)
        = Table.fill n.topology.arcs 0.0 :=
      congrArg Network.weights hzero
    rw [hweights]
    rfl
  exact ⟨hweighting, hweighting ▸ h.answer⟩

omit [MasterProblem μ] in
/-- Weights and answers are determined by topologies and changes. -/
theorem served_determined {ws : List WeightChange} {ns : List Network}
    {served : List (Path × Network)} (h : List.Forall₂ (Served ws) ns served)
    (hs : ∀ n ∈ ns, n.Sound) :
    served.map (fun x => x.2.weighting)
        = (ns.map Network.topology).map (Network.weighed ws)
      ∧ served.map (fun x => Except.ok x.1)
        = (ns.map Network.topology).map fun t =>
          Network.pathOf (Network.weighed ws t) := by
  induction h with
  | nil => exact ⟨rfl, rfl⟩
  | @cons n x ns served hx _ ih =>
      obtain ⟨hweighting, hpath⟩ := hx.determined (hs n List.mem_cons_self)
      obtain ⟨hweightings, hpaths⟩ :=
        ih fun m hm => hs m (List.mem_cons_of_mem n hm)
      simp only [List.map_cons]
      rw [hweighting, hweightings, hpath, hpaths]
      exact ⟨rfl, rfl⟩

-- =========================================================== two rounds

/-- What a round has added to a solve: the columns under the next numbers,
recorded with their paths. The master was asked for the multipliers of all
constraints and told the columns, with the coefficients of the entries, and
nothing else. -/
structure Added (kind : PricingKind) (entries : Arc → List IndexEntry)
    (s t : Solve (Recorded μ)) (columns : List AddedColumn) : Prop where
  named : columns.map AddedColumn.name
    = (List.range' s.pricer.nextColumn columns.length).map columnName
  recorded : ∀ c ∈ columns, t.problem.registry.path? c.name = some c.path
  calls : t.problem.master.calls = s.problem.master.calls ++ Round.succeeded
    ((s.problem.registry.constraints.map Constraint.handle).map
      (Round.readCall kind)
      ++ columns.flatMap (AddedColumn.calls entries))

section Run

variable {s t : Solve (Recorded μ)} {out : RoundOutcome} {values : List Float}
  {m : Recorded μ} {changes : List (List WeightChange)}
  {served : List (Path × Network)} {columns : List AddedColumn}

/-- A round adds what its run says. -/
theorem Run.added (run : Run kind s t out values m changes served columns) :
    Added kind (Round.entriesIn s.problem.registry) s t columns where
  named := run.named
  recorded := fun _ => run.recorded
  calls := by
    rw [run.calls, Round.mapM_multiplier_calls run.reads,
      Round.succeeded_append, List.append_assoc]

/-- The changes a round made are those of the reported multipliers. -/
theorem Run.changes_reported
    (run : Run kind s t out values m changes served columns)
    (h : Round.Reports kind s.problem.registry.constraints v s.problem.master) :
    s.problem.registry.constraints.mapM (fun c => Round.changesFor
      (Round.zeroWeights s.problem.registry) s.pricer.tolerance c (v c.handle))
        = .ok changes := by
  obtain rfl := h.values run.reads
  exact Action.except_mapM_eq_ok.2
    ((Round.forall₂_of_zip run.finite run.changed).imp fun _ _ => And.right)

end Run

section Two

variable [MasterProblem μ₁] [MasterProblem μ₂] {s₁ t₁ : Solve (Recorded μ₁)}
  {s₂ t₂ : Solve (Recorded μ₂)} {out₁ out₂ : RoundOutcome}
  {values₁ values₂ : List Float} {m₁ : Recorded μ₁} {m₂ : Recorded μ₂}
  {changes₁ changes₂ : List (List WeightChange)}
  {served₁ served₂ : List (Path × Network)}
  {columns₁ columns₂ : List AddedColumn}

/-- Two rounds of the same multipliers on like registries find the same
paths and leave the same weights. -/
theorem Run.alike
    (run₁ : Run kind s₁ t₁ out₁ values₁ m₁ changes₁ served₁ columns₁)
    (run₂ : Run kind s₂ t₂ out₂ values₂ m₂ changes₂ served₂ columns₂)
    (h₁ : s₁.problem.registry.Sound) (h₂ : s₂.problem.registry.Sound)
    (halike : s₁.problem.registry.Alike s₂.problem.registry)
    (hselection : s₂.pricer.selection = s₁.pricer.selection)
    (htolerance : s₂.pricer.tolerance = s₁.pricer.tolerance)
    (hv₁ : Round.Reports kind s₁.problem.registry.constraints v
      s₁.problem.master)
    (hv₂ : Round.Reports kind s₂.problem.registry.constraints v
      s₂.problem.master) :
    columns₂.map AddedColumn.path = columns₁.map AddedColumn.path
      ∧ t₂.problem.registry.weightings = t₁.problem.registry.weightings := by
  have hchanges : changes₂ = changes₁ := by
    have hmap := run₂.changes_reported hv₂
    rw [halike.constraints, halike.changesFor_eq h₁ h₂, htolerance,
      run₁.changes_reported hv₁]
      at hmap
    exact (Except.ok.inj hmap).symm
  obtain ⟨hweightings₁, hpaths₁⟩ := served_determined run₁.serves h₁.networks
  obtain ⟨hweightings₂, hpaths₂⟩ := served_determined run₂.serves h₂.networks
  rw [halike.topologies, hchanges] at hweightings₂ hpaths₂
  have hpaths : served₂.map Prod.fst = served₁.map Prod.fst := by
    have hok := hpaths₂.trans hpaths₁.symm
    rw [← Function.comp_def, ← List.map_map, ← List.map_map] at hok
    exact List.map_injective_iff.2 (fun _ _ => Except.ok.inj) hok
  refine ⟨?_, ?_⟩
  · rw [run₁.chosen, run₂.chosen, hselection, htolerance, hpaths]
  · unfold Registry.weightings
    rw [run₁.networks, run₂.networks, List.map_map, List.map_map]
    exact hweightings₂.trans hweightings₁.symm

/-- A round forgets the past. Let two pricers with the same selection and
tolerance be ready, on registries alike, with masters that report the same
multipliers of the kind, and whatever weights, remembered paths, columns,
counts and other multipliers earlier rounds have left. If a round succeeds
on one side and no master fails, it succeeds on the other: with as many
columns, of the same paths and lengths and in the same order, with the same
coefficients, and with the same weights afterwards. -/
theorem price_forgets (h₁ : s₁.problem.registry.Reachable)
    (h₂ : s₂.problem.registry.Reachable)
    (halike : s₁.problem.registry.Alike s₂.problem.registry)
    (hready : s₂.pricer.state = .ready)
    (hselection : s₂.pricer.selection = s₁.pricer.selection)
    (htolerance : s₂.pricer.tolerance = s₁.pricer.tolerance)
    (hv₁ : Round.Reports kind s₁.problem.registry.constraints v
      s₁.problem.master)
    (hv₂ : Round.Reports kind s₂.problem.registry.constraints v
      s₂.problem.master)
    (hround : price kind s₁ = .ok out₁ t₁)
    (hmaster : ∀ e u, price kind s₂ ≠ .error (.master e) u) :
    ∃ t₂ columns₁ columns₂, price kind s₂ = .ok out₁ t₂
      ∧ out₁.columns = columns₁.length
      ∧ Added kind (Round.entriesIn s₁.problem.registry) s₁ t₁ columns₁
      ∧ Added kind (Round.entriesIn s₁.problem.registry) s₂ t₂ columns₂
      ∧ columns₂.map AddedColumn.path = columns₁.map AddedColumn.path
      ∧ t₂.problem.registry.weightings = t₁.problem.registry.weightings := by
  obtain ⟨values₁, m₁, changes₁, served₁, columns₁, run₁⟩ :=
    price_spec h₁.sound hround
  -- the weights of the one round can be made in the other
  obtain ⟨changes, ns, hpriced⟩ : ∃ changes ns, Round.Priced
      (Round.zeroWeights s₁.problem.registry) s₁.pricer.tolerance
        v changes ns := by
    rw [price_of_ready run₁.ready] at hround
    obtain ⟨chosen, _, hsurvey, -⟩ := Action.bind_eq_ok.1 hround
    obtain ⟨_, _, hweigh, -⟩ := Action.bind_eq_ok.1 hsurvey
    rw [weigh_eq_reweight] at hweigh
    obtain ⟨q, hweights, -⟩ := onProblem_eq_ok.1 hweigh
    exact Round.Reports.priced (p := ⟨Round.zeroWeights s₁.problem.registry, _⟩)
      hv₁ hweights
  have hpriced₂ := halike.priced h₁.sound h₂.sound hpriced
  rw [← htolerance] at hpriced₂
  cases hround₂ : price kind s₂ with
  | error e u =>
      obtain ⟨e', rfl⟩ :=
        ofMaster_of_priced h₂.sound hready hv₂ hpriced₂ hround₂
      exact absurd hround₂ (hmaster e' u)
  | ok out₂ t₂ =>
      obtain ⟨values₂, m₂, changes₂, served₂, columns₂, run₂⟩ :=
        price_spec h₂.sound hround₂
      obtain ⟨hpaths, hweightings⟩ :=
        run₁.alike run₂ h₁.sound h₂.sound halike hselection htolerance hv₁ hv₂
      have hlength : columns₂.length = columns₁.length := by
        have hlengths := congrArg List.length hpaths
        rwa [List.length_map, List.length_map] at hlengths
      refine ⟨t₂, columns₁, columns₂, ?_, ?_, run₁.added, ?_, hpaths,
        hweightings⟩
      · rw [run₁.reported, run₂.reported, hlength]
      · rw [run₁.reported]
      · rw [← halike.entriesIn_eq]
        exact run₂.added

end Two

/-- A solve whose master has a Farkas multiplier. -/
def withFarkas (s : Solve (Recorded MemoryMaster)) :
    Solve (Recorded MemoryMaster) :=
  { s with problem := { s.problem with
      master :=
        Session.changeInner (fun m => { m with farkas := ⟨[(⟨3⟩, 0.5)]⟩ })
        s.problem.master } }

/-- The solve after a round under that multiplier. -/
def afterFarkas (s : Solve (Recorded MemoryMaster)) :
    Solve (Recorded MemoryMaster) :=
  (price .farkas).after (withFarkas s)

/-- After a round that has left other weights and a column, the same dual
values give the same column, under the next name. -/
theorem price_forgets_sample :
    ∃ (s t₁ t₂ : Solve (Recorded MemoryMaster)) (p : Path),
      (afterFarkas s).problem.registry.weightings
        ≠ s.problem.registry.weightings
        ∧ price .reducedCost (Session.withDuals s) = .ok ⟨1, .success⟩ t₁
        ∧ price .reducedCost (Session.withDuals (afterFarkas s))
          = .ok ⟨1, .success⟩ t₂
        ∧ t₁.problem.registry.path? (columnName 0) = some p
        ∧ t₂.problem.registry.path? (columnName 1) = some p
        ∧ t₂.problem.registry.weightings = t₁.problem.registry.weightings := by
  have hrun : Session.passes [Session.sampleDescription] []
      { inner := Setup.sampleMaster }
      (Session.changeInner MemoryMaster.transform) (fun _ s =>
        decide (s.pricer.state = .ready ∧ s.pricer.nextColumn = 0
          ∧ (afterFarkas s).pricer.nextColumn = 1
          ∧ (afterFarkas s).pricer.selection = s.pricer.selection
          ∧ (afterFarkas s).pricer.tolerance = s.pricer.tolerance
          ∧ (afterFarkas s).problem.registry.weightings
            ≠ s.problem.registry.weightings)
        && (price .reducedCost).passes (fun out _ =>
          decide (out = ⟨1, .success⟩))
            (Session.withDuals s)
        && (price .reducedCost).passes (fun _ _ => true)
            (Session.withDuals (afterFarkas s))) = true := by
    decide +kernel
  obtain ⟨q, s, hsession, hrun⟩ := Session.exists_of_passes hrun
  simp only [Bool.and_eq_true, decide_eq_true_iff] at hrun
  obtain ⟨⟨⟨hready, hzero, hone, hselection, htolerance, hweights⟩, hfirst⟩,
    hsecond⟩ := hrun
  obtain ⟨out, t₁, hprice, hout⟩ := Action.exists_of_passes hfirst
  obtain rfl := of_decide_eq_true hout
  obtain ⟨_, _, hsucceeds, -⟩ := Action.exists_of_passes hsecond
  have hmove := moves_price .farkas (withFarkas s)
  have hfresh : (Session.withDuals s).problem.registry.Reachable :=
    hsession.reachable
  have hused : (Session.withDuals (afterFarkas s)).problem.registry.Reachable :=
    hmove.registry.reachable hfresh
  obtain ⟨t₂, columns₁, columns₂, hround, hcount, hadded₁, hadded₂,
      hpaths, hsame⟩ :=
    price_forgets hfresh hused (hmove.registry.alike hfresh.sound)
      (hmove.state.trans hready) hselection htolerance
        (Recorded.reports (MemoryMaster.reports .reducedCost _ _))
      (Recorded.reports (MemoryMaster.reports .reducedCost _ _)) hprice
      (fun e u h => nomatch hsucceeds.symm.trans h)
  obtain ⟨c₁, rfl⟩ := List.length_eq_one_iff.1 hcount.symm
  obtain ⟨c₂, rfl⟩ := List.length_eq_one_iff.1 ((List.length_map _).symm.trans
    ((congrArg List.length hpaths).trans (List.length_map _)))
  have hname₁ : c₁.name = columnName s.pricer.nextColumn :=
    (List.cons.inj hadded₁.named).1
  have hname₂ : c₂.name = columnName (afterFarkas s).pricer.nextColumn :=
    (List.cons.inj hadded₂.named).1
  have hrecorded₁ := hadded₁.recorded c₁ List.mem_cons_self
  have hrecorded₂ := hadded₂.recorded c₂ List.mem_cons_self
  rw [hname₁, hzero] at hrecorded₁
  rw [hname₂, hone, (List.cons.inj hpaths).1] at hrecorded₂
  exact ⟨s, t₁, t₂, c₁.path, hweights, hprice, hround, hrecorded₁,
    hrecorded₂, hsame⟩

end Solve

end FlowPricing
