/-
What is new after a round, and what is not. A round creates variables under
the next numbers (`Solve.Left.created`), and only rounds do: all other
events are `Solve.Quiet`, they create no variable and record no column. A
chosen path is worth a column (`Solve.worth_of_survey`), and it is worth one
as long as its network is registered.
-/
import FlowPricing.Proofs.Pricing.History
import FlowPricing.Proofs.Registry.Permanence

namespace FlowPricing

variable {μ : Type} {kind : PricingKind}

-- =============================================================== columns

namespace AddedColumn

variable {entries : Arc → List IndexEntry} {columns : List AddedColumn}

/-- The calls for a column create one variable, under its name. -/
theorem creates_calls (c : AddedColumn) :
    (c.calls entries).filterMap MasterCall.creates? = [c.name] := by
  have hrest : ∀ call ∈ c.coefficients entries ++ [.commitVariable c.handle],
      call.creates? = none := by
    intro call hcall
    rcases List.mem_append.1 hcall with hcall | hcall
    · obtain ⟨a, -, e, -, rfl⟩ := mem_coefficients hcall
      rfl
    · rw [List.mem_singleton.1 hcall]
      rfl
  show c.name :: (c.coefficients entries
    ++ [MasterCall.commitVariable c.handle]).filterMap _ = _
  rw [List.filterMap_eq_nil_iff.2 hrest]

/-- Columns create one variable each, in their order. -/
theorem creates_flatMap (columns : List AddedColumn) :
    (columns.flatMap (calls entries)).filterMap MasterCall.creates?
      = columns.map name := by
  induction columns with
  | nil => rfl
  | cons c columns ih =>
      rw [List.flatMap_cons, List.filterMap_append, creates_calls, ih]
      rfl

/-- Columns under new names are recorded behind the others. -/
theorem keys_foldl_insert {t : Table String Path}
    (h : (t.keys ++ columns.map name).Nodup) :
    (columns.foldl (fun t c => t.insert c.name c.path) t).keys
      = t.keys ++ columns.map name := by
  induction columns generalizing t with
  | nil => exact (List.append_nil _).symm
  | cons c columns ih =>
      have hnew : c.name ∉ t.keys := fun hin =>
        (List.nodup_append.1 h).2.2 _ hin _ List.mem_cons_self rfl
      have hkeys : (t.insert c.name c.path).keys = t.keys ++ [c.name] := by
        rw [Table.keys_insert, if_neg hnew]
      rw [List.foldl_cons, ih, hkeys, List.append_assoc]
      · rfl
      · rw [hkeys, List.append_assoc]
        exact h

end AddedColumn

/-- Reading the master creates nothing. -/
theorem Solve.creates_reads (kind : PricingKind) (s : Solve (Recorded μ)) :
    (reads kind s).filterMap MasterCall.creates? = [] := by
  apply List.filterMap_eq_nil_iff.2
  intro call hcall
  obtain ⟨c, -, rfl⟩ := List.mem_map.1 hcall
  cases kind <;> rfl

-- ================================================================= paths

/-- What is a route depends on the topology only. -/
theorem Network.IsRoute.of_topology {n n' : Network} {arcs : List Arc}
    (h : n.IsRoute arcs) (ht : n'.topology = n.topology) : n'.IsRoute arcs := by
  refine ⟨?_, ?_⟩
  · rw [ht]
    exact h.inside
  · rw [ht]
    exact h.leads

namespace Registry

variable {r r' : Registry} {tolerance : Float} {p : Path} {g : Int32}
  {n : Network}

/-- Under a group there was a network of the same topology before. -/
theorem Onward.network_earlier (h : Onward r r') (hr : r.Sound) {n' : Network}
    (hn' : r'.network g = .ok n') :
    ∃ n, r.network g = .ok n ∧ n'.topology = n.topology := by
  obtain ⟨n, hn, hlater⟩ :=
    Action.exists_of_mem_right h.networks (mem_of_network hn')
  have htopology := (hlater.sound (hr.networks n hn)).2
  refine ⟨n, ?_, htopology⟩
  have hgroup : n.group = g :=
    (congrArg Topology.group htopology).symm.trans (group_of_network hn')
  rw [← hgroup]
  exact hr.network_eq_ok hn

/-- A path worth a column: a route of the network of its group, shorter than
zero by more than the tolerance. -/
structure Worth (r : Registry) (tolerance : Float) (p : Path) : Prop where
  route : ∃ n, r.network p.group = .ok n ∧ n.IsRoute p.arcs.reverse
  short : p.length < -tolerance

/-- What is worth a column depends on the networks only. -/
theorem Worth.of_networks (h : r.Worth tolerance p)
    (hn : r'.networks = r.networks) :
    r'.Worth tolerance p := by
  obtain ⟨n, hfound, hroute⟩ := h.route
  refine ⟨⟨n, ?_, hroute⟩, h.short⟩
  unfold network network? at hfound ⊢
  rw [hn]
  exact hfound

/-- A route stays a route, whatever becomes of the weights. -/
theorem Worth.onward (h : r.Worth tolerance p) (hr : r.Sound)
    (honward : Onward r r') :
    r'.Worth tolerance p := by
  obtain ⟨n, hfound, hroute⟩ := h.route
  obtain ⟨n', hfound', htopology, -⟩ := honward.upholds.network hr hfound
  exact ⟨⟨n', hfound', hroute.of_topology htopology⟩, h.short⟩

end Registry

namespace Solve

variable [MasterProblem μ] {s t u : Solve (Recorded μ)}

/-- Only paths worth a column are chosen. -/
theorem worth_of_survey {pricer : Pricer} {chosen : List Path}
    (hs : s.problem.registry.Sound) (h : survey kind pricer s = .ok chosen u)
    {p : Path} (hp : p ∈ chosen) :
    s.problem.registry.Worth pricer.tolerance p := by
  obtain ⟨_, t, hweigh, hchoose⟩ := Action.bind_eq_ok.1 h
  rw [weigh_eq_reweight] at hweigh
  obtain ⟨q, hq, rfl⟩ := onProblem_eq_ok.1 hweigh
  have honward : Registry.Onward s.problem.registry q.registry :=
    (Round.onward_zeroWeights _).trans ((Round.moves_reweight _ _).of_ok hq)
  obtain ⟨candidates, _, hpaths, hselect⟩ := Action.bind_eq_ok.1 hchoose
  obtain ⟨q', hq', rfl⟩ := onProblem_eq_ok.1 hpaths
  obtain ⟨r, hr, rfl⟩ := Problem.onRegistry_eq_ok.1 hq'
  obtain ⟨rfl, -⟩ := Action.pure_eq_ok.1 hselect
  obtain ⟨served, hserved, rfl, rfl⟩ :=
    (Round.shortestPaths_eq_ok (honward.sound hs).networks).1 hr
  obtain ⟨hcandidate, himproving⟩ := Selection.of_mem_select hp
  obtain ⟨x, hx, rfl⟩ := List.mem_map.1 hcandidate
  -- the network that has answered, and what it was at the start
  obtain ⟨n, hn, hanswer, -⟩ := Action.exists_of_mem_right hserved hx
  have hsound := honward.sound hs
  have hshort := of_decide_eq_true himproving
  obtain ⟨hroute, -, hgroup⟩ :=
    (Network.answer_of_findPath (hsound.networks n hn) hanswer).route_of_lt
      hshort
  obtain ⟨n₀, hfound, htopology⟩ :=
    honward.network_earlier hs (hsound.network_eq_ok hn)
  rw [← hgroup] at hfound
  exact ⟨⟨n₀, hfound, hroute.of_topology htopology.symm⟩, hshort⟩

end Solve

-- ========================================================== other events

namespace Recorded

/-- From `m` to `m'` no variable was created. -/
def CreatesNone (m m' : Recorded μ) : Prop :=
  ∃ later, m'.calls = m.calls ++ later ∧ createdNames later = []

instance : IsPreorder (Recorded μ) CreatesNone where
  refl _ := ⟨[], (List.append_nil _).symm, rfl⟩
  trans m m' m'' h₁ h₂ := by
    obtain ⟨later₁, hcalls₁, hnone₁⟩ := h₁
    obtain ⟨later₂, hcalls₂, hnone₂⟩ := h₂
    refine ⟨later₁ ++ later₂, ?_, ?_⟩
    · rw [hcalls₂, hcalls₁, List.append_assoc]
    · rw [createdNames_append, hnone₁, hnone₂, List.append_nil]

/-- A recorded call creates nothing unless it is meant to. -/
theorem createsNone_log {α : Type} {c : MasterCall} (hc : c.creates? = none)
    (act : Action MasterError μ α) : Action.Moves CreatesNone (log c act) := by
  intro m
  obtain ⟨b, hcalls, -⟩ := after_log c act m
  exact ⟨_, hcalls, List.filterMap_cons_none hc⟩

end Recorded

namespace Solve

variable {s t u : Solve (Recorded μ)}

/-- What no event but a round does anything to. -/
structure Quiet (s t : Solve (Recorded μ)) : Prop where
  networks : t.problem.registry.networks = s.problem.registry.networks
  columns : t.problem.registry.columns = s.problem.registry.columns
  nextColumn : t.pricer.nextColumn = s.pricer.nextColumn
  generated : t.pricer.generated = s.pricer.generated
  tolerance : t.pricer.tolerance = s.pricer.tolerance
  calls : Recorded.CreatesNone s.problem.master t.problem.master

instance : IsPreorder (Solve (Recorded μ)) Quiet where
  refl _ := ⟨rfl, rfl, rfl, rfl, rfl, refl_of Recorded.CreatesNone _⟩
  trans _ _ _ h₁ h₂ :=
    ⟨h₂.networks.trans h₁.networks, h₂.columns.trans h₁.columns,
      h₂.nextColumn.trans h₁.nextColumn, h₂.generated.trans h₁.generated,
      h₂.tolerance.trans h₁.tolerance,
      trans_of Recorded.CreatesNone h₁.calls h₂.calls⟩

/-- A change of the pricer that keeps its numbers is quiet. -/
theorem quiet_modifyPricer {f : Pricer → Pricer}
    (hf : ∀ p, (f p).nextColumn = p.nextColumn ∧ (f p).generated = p.generated
      ∧ (f p).tolerance = p.tolerance) :
        Action.Moves (Quiet (μ := μ)) (modifyPricer f) := by
  apply Action.moves_modify
  intro s
  obtain ⟨hnext, hgenerated, htolerance⟩ := hf s.pricer
  exact ⟨rfl, rfl, hnext, hgenerated, htolerance,
    refl_of Recorded.CreatesNone _⟩

/-- A start only asks for replacements, and puts them in. -/
theorem quiet_start [MasterProblem μ] :
    Action.Moves (Quiet (μ := μ)) start := by
  refine Action.moves_bind (moves_require _ _) fun _ =>
    Action.moves_bind ?_ fun _ =>
    quiet_modifyPricer fun _ => ⟨rfl, rfl, rfl⟩
  apply Action.moves_focus
  intro s
  have hrest : ((Registry.remap MasterProblem.transformedConstraint).after
      (s.problem.registry, s.problem.master)).1.withoutHandles
      = s.problem.registry.withoutHandles := Registry.leaves_remap _ _
  have hnetworks := congrArg Registry.networks hrest
  have hcolumns := congrArg Registry.columns hrest
  have hcalls := Registry.moves_remap (Q := Recorded.CreatesNone)
    (fun c => Recorded.createsNone_log (c := .transformedConstraint c) rfl
      (MasterProblem.transformedConstraint (μ := μ) c))
    (s.problem.registry, s.problem.master)
  unfold Problem.onBoth
  rw [Action.after_focus, Action.after_mapError]
  exact ⟨hnetworks, hcolumns, rfl, rfl, rfl, hcalls⟩

/-- To terminate is quiet. -/
theorem quiet_terminate : Action.Moves (Quiet (μ := μ)) terminate :=
  Action.moves_bind (moves_require _ _) fun _ => quiet_modifyPricer fun _ =>
    ⟨rfl, rfl, rfl⟩

/-- So is a change of the master from outside. -/
theorem quiet_withInner (s : Solve (Recorded μ)) (m : μ) :
    Quiet s (s.withInner m) :=
  ⟨rfl, rfl, rfl, rfl, rfl, refl_of Recorded.CreatesNone _⟩

-- ================================================================= rounds

/-- Beginnings of names of ascending numbers. -/
theorem eq_names_of_prefix {names : List String} {k count : Nat}
    (h : names <+: (List.range' k count).map columnName) :
    names.length ≤ count
      ∧ names = (List.range' k names.length).map columnName := by
  have hle : names.length ≤ count := by simpa using h.length_le
  refine ⟨hle, ?_⟩
  conv_lhs => rw [List.prefix_iff_eq_take.1 h]
  rw [← List.map_take, List.take_range'_of_length_ge hle]

variable [MasterProblem μ] {tried done : List AddedColumn}

/-- A round creates variables under the next numbers, at most one for each
column it tried. -/
theorem Left.created (h : Left kind s t tried done) :
    ∃ later n, t.problem.master.calls = s.problem.master.calls ++ later
      ∧ createdNames later = (List.range' s.pricer.nextColumn n).map columnName
      ∧ n ≤ tried.length := by
  obtain ⟨made, hcalls, hmade⟩ := h.calls
  have hnames := hmade.filterMap MasterCall.creates?
  rw [List.filterMap_append, creates_reads, AddedColumn.creates_flatMap,
    List.nil_append, h.named] at hnames
  obtain ⟨hle, heq⟩ := eq_names_of_prefix hnames
  exact ⟨made, _, hcalls, heq, hle⟩

end Solve

end FlowPricing
