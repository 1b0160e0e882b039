/-
What a round does, phase by phase. Each lemma takes a successful phase
apart into what it read, what it computed and what it left behind: the
changes that the multipliers make to the weights (`reweight_eq_ok`) and the
networks that were asked for their paths (`shortestPaths_eq_ok`). For the
columns, what they are once added is said here: the calls by which one
reaches the master (`AddedColumn.calls`), and what is recorded of it.
-/
import FlowPricing.Pricing.Solve
import FlowPricing.Master.Wrapped
import FlowPricing.Proofs.Registry.Reachable

namespace FlowPricing

variable {μ α : Type} {tolerance : Float} {kind : PricingKind}

-- ================================================== actions on one part

namespace Problem

/-- A call of the master changes the master only. -/
theorem onMaster_eq_ok {act : Action MasterError μ α}
    {p q : Problem μ} {a : α} :
    onMaster act p = .ok a q ↔ ∃ m, act p.master = .ok a m ∧ q = { p with
      master := m } := by
  unfold onMaster
  rw [Action.focus_eq_ok]
  constructor
  · intro h
    obtain ⟨m, h, rfl⟩ := h
    exact ⟨m, Action.mapError_eq_ok.1 h, rfl⟩
  · intro h
    obtain ⟨m, h, rfl⟩ := h
    exact ⟨m, Action.mapError_eq_ok.2 h, rfl⟩

theorem onRegistry_eq_ok {act : Action PricingError Registry α}
    {p q : Problem μ} {a : α} :
    onRegistry act p = .ok a q
      ↔ ∃ r, act p.registry = .ok a r ∧ q = { p with registry := r } := by
  unfold onRegistry
  rw [Action.focus_eq_ok]
  constructor
  · intro h
    obtain ⟨r, h, rfl⟩ := h
    exact ⟨r, h, rfl⟩
  · intro h
    obtain ⟨r, h, rfl⟩ := h
    exact ⟨r, h, rfl⟩

theorem modifyRegistry_eq_ok {f : Registry → Registry} {p q : Problem μ}
    {u : Unit} :
    modifyRegistry f p = .ok u q ↔ q = { p with registry := f p.registry } := by
  unfold modifyRegistry
  rw [Action.modify_eq_ok, eq_comm]

end Problem

namespace Registry

/-- Acting on every network succeeds exactly if the action does on each. -/
theorem eachNetwork_eq_ok {ε β : Type} {f : Network → Except ε (β × Network)}
    {r r' : Registry} {bs : List β} :
    eachNetwork f r = .ok bs r'
      ↔ ∃ rs, List.Forall₂ (fun n x => f n = .ok x) r.networks rs
        ∧ bs = rs.map Prod.fst
          ∧ r' = { r with networks := rs.map Prod.snd } := by
  unfold eachNetwork
  rw [Action.focus_eq_ok]
  constructor
  · intro h
    obtain ⟨⟨ns, u⟩, h, rfl⟩ := h
    obtain ⟨-, rs, hrs, rfl, rfl⟩ := Action.each_step_eq_ok.1 h
    exact ⟨rs, Action.except_mapM_eq_ok.1 hrs, rfl, rfl⟩
  · intro h
    obtain ⟨rs, hrs, rfl, rfl⟩ := h
    exact ⟨(rs.map Prod.snd, ()), Action.each_step_eq_ok.2
      ⟨rfl, rs, Action.except_mapM_eq_ok.2 hrs, rfl, rfl⟩, rfl⟩

end Registry

namespace Round

-- ============================================================== prices

section Prices

variable [MasterProblem μ] {c : Constraint} {p q : Problem μ}

/-- A price is a multiplier that was read and is finite, negated. -/
theorem price_eq_ok {h : ConstraintId} {x : Float} :
    price kind h p = .ok x q
      ↔ ∃ value m, multiplier kind h p.master = .ok value m
        ∧ value.isFinite = true
          ∧ x = -value ∧ q = { p with master := m } := by
  unfold price
  rw [Action.bind_eq_ok]
  constructor
  · intro h
    obtain ⟨value, t, hread, h⟩ := h
    obtain ⟨m, hm, rfl⟩ := Problem.onMaster_eq_ok.1 hread
    split at h
    · next hfin =>
        obtain ⟨rfl, rfl⟩ := Action.pure_eq_ok.1 h
        exact ⟨value, m, hm, hfin, rfl, rfl⟩
    · exact absurd h Action.throw_ne_ok
  · intro h
    obtain ⟨value, m, hm, hfin, rfl, rfl⟩ := h
    refine ⟨value, _, Problem.onMaster_eq_ok.2 ⟨m, hm, rfl⟩, ?_⟩
    rw [if_pos hfin]
    rfl

/-- The changes that a multiplier makes through one constraint. -/
def changesFor (r : Registry) (tolerance : Float) (c : Constraint)
    (value : Float) :
    Except RegistryError (List WeightChange) :=
  if (-value).abs ≤ tolerance then .ok []
    else c.arcs.mapM (weightChange r (-value))

/-- A constraint reads its multiplier and computes its changes from it. -/
theorem constraintChanges_eq_ok {changes : List WeightChange} :
    constraintChanges kind tolerance c p = .ok changes q
      ↔ ∃ value m, multiplier kind c.handle p.master = .ok value m
        ∧ value.isFinite = true
          ∧ changesFor p.registry tolerance c value = .ok changes
          ∧ q = { p with master := m } := by
  unfold constraintChanges
  rw [Action.bind_eq_ok]
  constructor
  · intro h
    obtain ⟨x, t, hx, h⟩ := h
    obtain ⟨value, m, hm, hfin, rfl, rfl⟩ := price_eq_ok.1 hx
    refine ⟨value, m, hm, hfin, ?_⟩
    unfold changesFor
    split at h
    · next hle =>
        obtain ⟨rfl, rfl⟩ := Action.pure_eq_ok.1 h
        rw [if_pos hle]
        exact ⟨rfl, rfl⟩
    · next hle =>
        rw [Action.get_bind] at h
        obtain ⟨hmap, rfl⟩ := Action.ofExcept_eq_ok.1 h
        rw [if_neg hle]
        refine ⟨?_, rfl⟩
        cases hc : c.arcs.mapM (weightChange p.registry (-value)) with
        | ok ws =>
            simp only [hc] at hmap
            exact congrArg Except.ok (Except.ok.inj hmap)
        | error e =>
            simp only [hc] at hmap
            exact nomatch hmap
  · intro h
    obtain ⟨value, m, hm, hfin, hch, rfl⟩ := h
    refine ⟨-value, _, price_eq_ok.2 ⟨value, m, hm, hfin, rfl, rfl⟩, ?_⟩
    unfold changesFor at hch
    split at hch
    · next hle =>
        obtain rfl := Except.ok.inj hch
        rw [if_pos hle]
        rfl
    · next hle =>
        rw [if_neg hle, Action.get_bind]
        refine Action.ofExcept_eq_ok.2 ⟨?_, rfl⟩
        simp only [hch]
        rfl

/-- All constraints, one after another: the multipliers are read in their
order, and the registry stays as it is. -/
theorem mapM_constraintChanges_eq_ok {cs : List Constraint}
    {changes : List (List WeightChange)} :
    cs.mapM (constraintChanges kind tolerance) p = .ok changes q
      ↔ ∃ values m, (cs.map Constraint.handle).mapM (multiplier kind) p.master
        = .ok values m
          ∧ (∀ x ∈ values, x.isFinite = true)
          ∧ List.Forall₂ (fun cv ws =>
            changesFor p.registry tolerance cv.1 cv.2 = .ok ws)
            (cs.zip values) changes
          ∧ q = { p with master := m } := by
  induction cs generalizing p changes with
  | nil =>
      rw [Action.mapM_nil_eq_ok]
      constructor
      · intro h
        obtain ⟨rfl, rfl⟩ := h
        exact ⟨[], p.master, rfl, fun x hx => absurd hx List.not_mem_nil,
          .nil, rfl⟩
      · intro h
        obtain ⟨values, m, hread, -, hall, rfl⟩ := h
        obtain ⟨rfl, rfl⟩ := Action.mapM_nil_eq_ok.1 hread
        cases hall
        exact ⟨rfl, rfl⟩
  | cons c cs ih =>
      rw [Action.mapM_cons_eq_ok, List.map_cons]
      constructor
      · intro h
        obtain ⟨ws, t, rest, hc, hcs, rfl⟩ := h
        obtain ⟨value, m, hm, hfin, hws, rfl⟩ := constraintChanges_eq_ok.1 hc
        obtain ⟨values, m', hread, hall, hrest, rfl⟩ := ih.1 hcs
        refine ⟨value :: values, m',
          Action.mapM_cons_eq_ok.2 ⟨value, m, values, hm, hread, rfl⟩, ?_,
          .cons hws hrest, rfl⟩
        intro x hx
        rcases List.mem_cons.1 hx with rfl | hx
        · exact hfin
        · exact hall x hx
      · intro h
        obtain ⟨values, m', hread, hall, hchanges, rfl⟩ := h
        obtain ⟨value, m, values', hm, hread', rfl⟩ :=
          Action.mapM_cons_eq_ok.1 hread
        rw [List.zip_cons_cons] at hchanges
        obtain ⟨ws, rest, hws, hrest, rfl⟩ :=
          List.forall₂_cons_left_iff.1 hchanges
        refine ⟨ws, { p with master := m }, rest, constraintChanges_eq_ok.2
          ⟨value, m, hm, hall value List.mem_cons_self, hws, rfl⟩, ih.2
          ⟨values', m', hread',
            fun x hx => hall x (List.mem_cons_of_mem value hx),
            hrest, rfl⟩, rfl⟩

end Prices

-- ============================================================= weights

theorem changesOf_append (ws ws' : List WeightChange) (g : Int32) :
    changesOf (ws ++ ws') g = changesOf ws g ++ changesOf ws' g := by
  unfold changesOf
  rw [List.filter_append, List.map_append]

/-- The changes of all constraints reach every network. -/
theorem applyChanges_eq_ok {changes : List WeightChange} {r r' : Registry}
    {u : Unit} :
    applyChanges changes r = .ok u r'
      ↔ ∃ ns, List.Forall₂ (fun n n' =>
        n.addWeights (changesOf changes n.group) = .ok n')
            r.networks ns
          ∧ r' = { r with networks := ns } := by
  unfold applyChanges
  rw [Action.bind_eq_ok]
  constructor
  · intro h
    obtain ⟨bs, t, h, ht⟩ := h
    obtain ⟨rs, hrs, -, rfl⟩ := Registry.eachNetwork_eq_ok.1 h
    obtain ⟨-, rfl⟩ := Action.pure_eq_ok.1 ht
    refine ⟨rs.map Prod.snd, ?_, rfl⟩
    refine List.forall₂_map_right_iff.2 (hrs.imp ?_)
    intro n x hx
    cases hn : n.addWeights (changesOf changes n.group) with
    | ok n' =>
        rw [hn] at hx
        obtain rfl := Except.ok.inj hx
        rfl
    | error e =>
        rw [hn] at hx
        exact nomatch hx
  · intro h
    obtain ⟨ns, hns, rfl⟩ := h
    refine ⟨(ns.map fun n => ((), n)).map Prod.fst, { r with networks := ns },
      Registry.eachNetwork_eq_ok.2 ⟨ns.map fun n => ((), n), ?_, rfl, ?_⟩, rfl⟩
    · refine List.forall₂_map_right_iff.2 (hns.imp ?_)
      intro n n' hn
      rw [hn]
    · rw [List.map_map]
      simp [Function.comp_def]

/-- What pushing the prices onto the arcs reads and changes. -/
theorem reweight_eq_ok [MasterProblem μ] {p q : Problem μ} {u : Unit} :
    reweight kind tolerance p = .ok u q
      ↔ ∃ values m changes ns,
          (p.registry.constraints.map Constraint.handle).mapM
            (multiplier kind) p.master
            = .ok values m
          ∧ (∀ x ∈ values, x.isFinite = true)
          ∧ List.Forall₂ (fun cv ws =>
            changesFor p.registry tolerance cv.1 cv.2 = .ok ws)
            (p.registry.constraints.zip values) changes
          ∧ List.Forall₂ (fun n n' =>
            n.addWeights (changesOf changes.flatten n.group) = .ok n')
            p.registry.networks ns
          ∧ q = { registry := { p.registry with networks := ns },
                  master := m } := by
  unfold reweight
  rw [Action.get_bind, Action.bind_eq_ok]
  constructor
  · intro h
    obtain ⟨changes, t, hread, h⟩ := h
    obtain ⟨values, m, hvalues, hfin, hchanges, rfl⟩ :=
      mapM_constraintChanges_eq_ok.1 hread
    obtain ⟨r, hr, rfl⟩ := Problem.onRegistry_eq_ok.1 h
    obtain ⟨ns, hns, rfl⟩ := applyChanges_eq_ok.1 hr
    exact ⟨values, m, changes, ns, hvalues, hfin, hchanges, hns, rfl⟩
  · intro h
    obtain ⟨values, m, changes, ns, hvalues, hfin, hchanges, hns, rfl⟩ := h
    exact ⟨changes, _, mapM_constraintChanges_eq_ok.2
      ⟨values, m, hvalues, hfin, hchanges, rfl⟩, Problem.onRegistry_eq_ok.2
      ⟨_, applyChanges_eq_ok.2 ⟨ns, hns, rfl⟩, rfl⟩⟩

-- =============================================================== paths

/-- Every network answers with the path it finds and remembers it. -/
theorem shortestPaths_eq_ok {r r' : Registry} {paths : List Path}
    (hr : ∀ n ∈ r.networks, n.Sound) :
    shortestPaths r = .ok paths r'
      ↔ ∃ rs, List.Forall₂ (fun (n : Network) (x : Path × Network) =>
              n.findPath = .ok x.1 ∧ x.2 = { n with cached := some x.1 })
                r.networks rs
          ∧ paths = rs.map Prod.fst
          ∧ r' = { r with networks := rs.map Prod.snd } := by
  unfold shortestPaths
  rw [Registry.eachNetwork_eq_ok]
  refine exists_congr fun rs => and_congr_left' (Action.forall₂_congr_left ?_)
  intro n hn x
  rw [← Network.shortestPath_eq_ok (hr n hn)]
  cases n.shortestPath with
  | ok y => simp
  | error e => simp

end Round

-- ============================================================= columns

/-- Columns of different numbers have different names. -/
theorem columnName_injective {i j : Nat} (h : columnName i = columnName j) :
    i = j := by
  unfold columnName at h
  have hchars := String.ofList_injective h
  simp only [List.cons.injEq, true_and] at hchars
  exact Numeral.ofNat_injective hchars

namespace Recorded

/-- A call that succeeds is recorded as such. -/
theorem log_eq_ok {c : MasterCall} {act : Action MasterError μ α}
    {m m' : Recorded μ} {a : α} (h : log c act m = .ok a m') :
    m'.calls = m.calls ++ [⟨c, true⟩] := by
  unfold log at h
  cases hact : act m.inner with
  | ok b inner =>
      rw [hact] at h
      cases h
      exact List.reverse_cons
  | error e inner =>
      rw [hact] at h
      cases h

/-- A call that succeeds does so in the master that is recorded. -/
theorem log_inner {c : MasterCall} {act : Action MasterError μ α}
    {m m' : Recorded μ} {a : α} (h : log c act m = .ok a m') :
    act m.inner = .ok a m'.inner := by
  unfold log at h
  cases hact : act m.inner with
  | ok b inner =>
      rw [hact] at h
      cases h
      rfl
  | error e inner =>
      rw [hact] at h
      cases h

end Recorded

/-- A column as a round adds it. -/
structure AddedColumn where
  name : String
  handle : VariableId
  path : Path
deriving DecidableEq, Repr

namespace AddedColumn

/-- The coefficients a column gets: those of the entries of its arcs. -/
def coefficients (entries : Arc → List IndexEntry) (c : AddedColumn) :
    List MasterCall :=
  c.path.arcs.flatMap fun a =>
    (entries a).map fun e => .addCoefficient e.handle c.handle e.coefficient

/-- The calls by which a column reaches the master. -/
def calls (entries : Arc → List IndexEntry) (c : AddedColumn) :
    List MasterCall :=
  .addPricedVariable c.name 0.0 Weight.infinity 0.0 ::
    (c.coefficients entries ++ [.commitVariable c.handle])

/-- Records columns, one after another. -/
def recordAll (columns : List AddedColumn) (r : Registry) : Registry :=
  columns.foldl (fun r c => r.recordColumn c.name c.path) r

/-- Recording columns only changes which are recorded. -/
theorem recordAll_eq (columns : List AddedColumn) (r : Registry) :
    recordAll columns r = { r with
      columns := columns.foldl (fun t c => t.insert c.name c.path)
        r.columns } := by
  unfold recordAll
  induction columns generalizing r with
  | nil => rfl
  | cons c columns ih =>
      rw [List.foldl_cons, ih]
      rfl

/-- Under other names nothing changes. -/
theorem path?_recordAll_of_ne {columns : List AddedColumn} {r : Registry}
    {name : String} (h : ∀ c ∈ columns, c.name ≠ name) :
    (recordAll columns r).path? name = r.path? name := by
  unfold recordAll
  induction columns generalizing r with
  | nil => rfl
  | cons c columns ih =>
      rw [List.foldl_cons, ih fun d hd => h d (List.mem_cons_of_mem c hd)]
      show (r.columns.insert c.name c.path).get? name = r.columns.get? name
      rw [Table.get?_insert, if_neg (h c List.mem_cons_self)]

/-- Columns of different names are all recorded. -/
theorem path?_recordAll {columns : List AddedColumn}
    (h : (columns.map name).Nodup) {c : AddedColumn} (hc : c ∈ columns)
    (r : Registry) :
    (recordAll columns r).path? c.name = some c.path := by
  induction columns generalizing r with
  | nil => exact absurd hc List.not_mem_nil
  | cons d columns ih =>
      rw [List.map_cons, List.nodup_cons] at h
      rcases List.mem_cons.1 hc with rfl | hc
      · show (recordAll columns (r.recordColumn c.name c.path)).path? c.name = _
        rw [path?_recordAll_of_ne]
        · show (r.columns.insert c.name c.path).get? c.name = _
          rw [Table.get?_insert, if_pos rfl]
        · intro d hd heq
          exact h.1 (heq ▸ List.mem_map_of_mem hd)
      · exact ih h.2 hc (r.recordColumn d.name d.path)

end AddedColumn

namespace Round

variable [MasterProblem μ]

/-- The entries of an arc, none if it has none. -/
def entriesIn (r : Registry) (a : Arc) : List IndexEntry :=
  (r.entriesOf a).getD []

/-- Calls that all succeeded. -/
def succeeded (calls : List MasterCall) : List RecordedCall :=
  calls.map fun c => ⟨c, true⟩

/-- The call that reads a multiplier of a kind. -/
def readCall : PricingKind → ConstraintId → MasterCall
  | .reducedCost => .dualValue
  | .farkas => .farkasValue

/-- Reading multipliers records one call for each. -/
theorem mapM_multiplier_calls {hs : List ConstraintId} {values : List Float}
    {m m' : Recorded μ} (h : hs.mapM (multiplier kind) m = .ok values m') :
    m'.calls = m.calls ++ succeeded (hs.map (readCall kind)) := by
  induction hs generalizing m values with
  | nil =>
      obtain ⟨-, rfl⟩ := Action.mapM_nil_eq_ok.1 h
      exact (List.append_nil _).symm
  | cons c hs ih =>
      obtain ⟨x, m₁, xs, hx, hxs, rfl⟩ := Action.mapM_cons_eq_ok.1 h
      have hread : m₁.calls = m.calls ++ [⟨readCall kind c, true⟩] := by
        cases kind with
        | reducedCost => exact Recorded.log_eq_ok hx
        | farkas => exact Recorded.log_eq_ok hx
      rw [ih hxs, hread, List.append_assoc]
      rfl

/-- Recording a column changes no entries. -/
theorem entriesIn_recordColumn (r : Registry) (name : String) (path : Path) :
    entriesIn (r.recordColumn name path) = entriesIn r := rfl

end Round

end FlowPricing
