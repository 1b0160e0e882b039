/-
An attempt at a column, whether it succeeds or fails. It is a list of calls
of the master, made in turn until one fails (`Round.Makes`); the column is
recorded once the last of them, the commit, has succeeded. So there are two
ways for an attempt to end, and no third (`Round.addColumn_cases`): all of
its calls succeeded and the column is recorded, or they broke off at one
that failed (`Round.Broken`) and the registry is as it was.
-/
import FlowPricing.Proofs.Pricing.Round

namespace FlowPricing

variable {μ α β : Type}

/-- A call that fails is recorded as such. -/
theorem Recorded.log_eq_error {c : MasterCall} {act : Action MasterError μ α}
    {m m' : Recorded μ} {e : MasterError} (h : log c act m = .error e m') :
    m'.calls = m.calls ++ [⟨c, false⟩] := by
  unfold log at h
  cases hact : act m.inner with
  | ok b inner =>
      rw [hact] at h
      cases h
  | error e' inner =>
      rw [hact] at h
      cases h
      exact List.reverse_cons

namespace Round

variable {cs cs' : List MasterCall} {record : List RecordedCall} {r : Registry}

-- ======================================================== broken off

/-- What is left of calls of which one failed: those before it, and itself. -/
def Broken (cs : List MasterCall) (record : List RecordedCall) : Prop :=
  ∃ done c rest, cs = done ++ c :: rest
    ∧ record = succeeded done ++ [⟨c, false⟩]

theorem succeeded_append (cs cs' : List MasterCall) :
    succeeded (cs ++ cs') = succeeded cs ++ succeeded cs' := List.map_append

/-- A single call breaks off by failing. -/
theorem broken_singleton (c : MasterCall) : Broken [c] [⟨c, false⟩] :=
  ⟨[], c, [], rfl, rfl⟩

/-- A script that broke off is the beginning of any longer one that did. -/
theorem Broken.append_right (h : Broken cs record) (cs' : List MasterCall) :
    Broken (cs ++ cs') record := by
  obtain ⟨done, c, rest, rfl, rfl⟩ := h
  exact ⟨done, c, rest ++ cs', by simp, rfl⟩

/-- It may have broken off after another was through. -/
theorem Broken.append_left (cs : List MasterCall) (h : Broken cs' record) :
    Broken (cs ++ cs') (succeeded cs ++ record) := by
  obtain ⟨done, c, rest, rfl, rfl⟩ := h
  refine ⟨cs ++ done, c, rest, ?_, ?_⟩
  · rw [List.append_assoc]
  · rw [succeeded_append, List.append_assoc]

-- ==================================================== making of calls

/-- With the registry `r`, the action makes the calls `cs` one after
another until one fails, and does nothing else. -/
def Makes (r : Registry) (cs : List MasterCall)
    (act : Action PricingError (Problem (Recorded μ)) α) : Prop :=
  ∀ p, p.registry = r →
    (∃ a q, act p = .ok a q ∧ q.registry = r
      ∧ q.master.calls = p.master.calls ++ succeeded cs)
    ∨ ∃ e q record, act p = .error e q ∧ q.registry = r
      ∧ q.master.calls = p.master.calls ++ record ∧ Broken cs record

theorem makes_pure (a : α) :
    Makes r [] (pure a : Action PricingError (Problem (Recorded μ)) α) := by
  intro p hp
  exact .inl ⟨a, p, rfl, hp, (List.append_nil _).symm⟩

/-- A call of the master is a script of one call. -/
theorem makes_call (c : MasterCall) (act : Action MasterError μ α) :
    Makes r [c] (Problem.onMaster (Recorded.log c act)) := by
  intro p hp
  cases hlog : Recorded.log c act p.master with
  | ok a m =>
      exact .inl ⟨a, { p with master := m },
        Problem.onMaster_eq_ok.2 ⟨m, hlog, rfl⟩, hp, Recorded.log_eq_ok hlog⟩
  | error e m =>
      refine .inr ⟨.master e, { p with master := m }, _, ?_, hp,
        Recorded.log_eq_error hlog, broken_singleton c⟩
      exact Action.focus_eq_error.2
        ⟨m, Action.mapError_eq_error.2 ⟨e, hlog, rfl⟩, rfl⟩

/-- Actions in sequence make their scripts in sequence. -/
theorem makes_bind {act : Action PricingError (Problem (Recorded μ)) α}
    {f : α → Action PricingError (Problem (Recorded μ)) β}
    (hact : Makes r cs act) (hf : ∀ a, Makes r cs' (f a)) :
    Makes r (cs ++ cs') (act >>= f) := by
  intro p hp
  rcases hact p hp with ⟨a, q, ha, hq, hcalls⟩
    | ⟨e, q, record, he, hq, hcalls, hbroken⟩
  · rcases hf a q hq with ⟨b, u, hb, hu, hcalls'⟩
      | ⟨e, u, record, he, hu, hcalls', hbroken⟩
    · refine .inl ⟨b, u, Action.bind_eq_ok.2 ⟨a, q, ha, hb⟩, hu, ?_⟩
      rw [hcalls', hcalls, succeeded_append, List.append_assoc]
    · refine .inr ⟨e, u, succeeded cs ++ record,
        Action.bind_eq_error.2 (.inr ⟨a, q, ha, he⟩), hu, ?_,
        hbroken.append_left cs⟩
      rw [hcalls', hcalls, List.append_assoc]
  · exact .inr ⟨e, q, record, Action.bind_eq_error.2 (.inl he), hq, hcalls,
      hbroken.append_right cs'⟩

/-- A loop makes the scripts of its rounds in turn. -/
theorem makes_forM {f : β → Action PricingError (Problem (Recorded μ)) Unit}
    {g : β → List MasterCall} {l : List β} (h : ∀ b ∈ l, Makes r (g b) (f b)) :
    Makes r (l.flatMap g) (l.forM f) := by
  induction l with
  | nil => exact makes_pure ()
  | cons b l ih =>
      rw [List.flatMap_cons]
      refine makes_bind (h b List.mem_cons_self) fun _ => ?_
      exact ih fun b' hb' => h b' (List.mem_cons_of_mem b hb')

variable [MasterProblem μ]

/-- A variable gets a coefficient for every entry of every arc, in their
order. -/
theorem makes_addCoefficients (c : AddedColumn) :
    Makes (μ := μ) r (c.coefficients (entriesIn r))
      (addCoefficients c.handle c.path) := by
  unfold addCoefficients AddedColumn.coefficients
  apply makes_forM
  intro a _
  have harc : Makes (μ := μ) r
      ((entriesIn r a).flatMap fun e =>
        [.addCoefficient e.handle c.handle e.coefficient])
      ((entriesIn r a).forM fun e =>
        Problem.onMaster
          (MasterProblem.addCoefficient e.handle c.handle e.coefficient)) :=
    makes_forM fun e _ => makes_call _ _
  rw [← List.map_eq_flatMap] at harc
  intro p hp
  rw [Action.get_bind, hp]
  exact harc p hp

-- ======================================================== the attempt

variable {tolerance : Float} {path : Path}

/-- An attempt at a column for a path worth it: either the variable that
the master has issued gets its coefficients, is committed and recorded, or
the attempt breaks off at a call that failed, and nothing is recorded. -/
theorem addColumn_cases (hpath : path.isImproving tolerance = true)
    (name : String) (p : Problem (Recorded μ)) :
    (∃ v m q, MasterProblem.addPricedVariable name 0.0 Weight.infinity 0.0
      p.master = .ok v m
        ∧ addColumn tolerance name path p = .ok true q
        ∧ q.registry = p.registry.recordColumn name path
        ∧ q.master.calls = p.master.calls
          ++ succeeded (AddedColumn.calls (entriesIn p.registry)
            ⟨name, v, path⟩))
    ∨ ∃ v e q record, addColumn tolerance name path p = .error e q
      ∧ q.registry = p.registry
        ∧ q.master.calls = p.master.calls ++ record
        ∧ Broken (AddedColumn.calls (entriesIn p.registry) ⟨name, v, path⟩)
          record := by
  unfold addColumn
  rw [if_pos hpath]
  cases hcreate : MasterProblem.addPricedVariable name 0.0 Weight.infinity 0.0
    p.master with
  | error e m =>
      refine .inr ⟨default, .master e, { p with master := m }, _, ?_, rfl,
        Recorded.log_eq_error hcreate, ?_⟩
      · exact Action.bind_eq_error.2 (.inl (Action.focus_eq_error.2
          ⟨m, Action.mapError_eq_error.2 ⟨e, hcreate, rfl⟩, rfl⟩))
      · exact ⟨[], _, _, rfl, rfl⟩
  | ok v m =>
      have hissued := Problem.onMaster_eq_ok.2 ⟨m, hcreate, rfl⟩
      have hcalls : m.calls = p.master.calls
          ++ [⟨.addPricedVariable name 0.0 Weight.infinity 0.0, true⟩] :=
        Recorded.log_eq_ok hcreate
      have hrest :=
        makes_bind (makes_addCoefficients (r := p.registry) ⟨name, v, path⟩)
        fun _ =>
          makes_call (.commitVariable v)
            (MasterProblem.commitVariable (μ := μ) v)
      rcases hrest { p with master := m } rfl with
        ⟨⟨⟩, q, hq, hr, hmade⟩ | ⟨e, q, record, hq, hr, hmade, hbroken⟩
      · obtain ⟨⟨⟩, q', hcoefficients, hcommit⟩ := Action.bind_eq_ok.1 hq
        refine .inl ⟨v, m,
          { q with registry := q.registry.recordColumn name path },
          rfl, ?_, ?_, ?_⟩
        · exact Action.bind_eq_ok.2 ⟨v, _, hissued, Action.bind_eq_ok.2
            ⟨(), q', hcoefficients, Action.bind_eq_ok.2 ⟨(), q, hcommit, rfl⟩⟩⟩
        · rw [hr]
        · show q.master.calls = _
          rw [hmade, hcalls, List.append_assoc]
          rfl
      · refine .inr ⟨v, e, q,
          ⟨.addPricedVariable name 0.0 Weight.infinity 0.0, true⟩ :: record,
          ?_, hr, ?_, ?_⟩
        · refine Action.bind_eq_error.2 (.inr ⟨v, _, hissued, ?_⟩)
          rcases Action.bind_eq_error.1 hq with
            h | ⟨⟨⟩, q', hcoefficients, hcommit⟩
          · exact Action.bind_eq_error.2 (.inl h)
          · exact Action.bind_eq_error.2 (.inr ⟨(), q', hcoefficients,
              Action.bind_eq_error.2 (.inl hcommit)⟩)
        · rw [hmade, hcalls, List.append_assoc]
          rfl
        · exact hbroken.append_left
            [.addPricedVariable name 0.0 Weight.infinity 0.0]

-- ===================================================== all successful

variable {p q : Problem (Recorded μ)}

/-- A path worth a column becomes one. -/
theorem addColumn_spec {b : Bool} (hpath : path.isImproving tolerance = true)
    {name : String} (h : addColumn tolerance name path p = .ok b q) :
    b = true ∧ ∃ c : AddedColumn, c.name = name ∧ c.path = path
      ∧ q.registry = p.registry.recordColumn name path
      ∧ q.master.calls
        = p.master.calls ++ succeeded (c.calls (entriesIn p.registry)) := by
  rcases addColumn_cases hpath name p with
    ⟨v, m, u, -, hadd, hregistry, hcalls⟩ | ⟨v, e, u, record, hadd, -⟩
  · obtain ⟨rfl, rfl⟩ := EStateM.Result.ok.inj (hadd.symm.trans h)
    exact ⟨rfl, ⟨name, v, path⟩, rfl, rfl, hregistry, hcalls⟩
  · rw [hadd] at h
    exact nomatch h

/-- The chosen paths, all worth a column, become the columns with the next
numbers, in their order. -/
theorem addColumns_spec {first k : Nat} {chosen : List Path}
    (hall : ∀ path ∈ chosen, path.isImproving tolerance = true)
    (h : addColumns tolerance first chosen p = .ok k q) :
    ∃ columns : List AddedColumn, columns.map AddedColumn.path = chosen
      ∧ columns.map AddedColumn.name
        = (List.range' first chosen.length).map columnName
      ∧ k = columns.length
      ∧ q.registry = AddedColumn.recordAll columns p.registry
      ∧ q.master.calls = p.master.calls
        ++ succeeded (columns.flatMap
          (AddedColumn.calls (entriesIn p.registry))) := by
  unfold addColumns at h
  obtain ⟨added, t, hmap, hcount⟩ := Action.bind_eq_ok.1 h
  obtain ⟨rfl, rfl⟩ := Action.pure_eq_ok.1 hcount
  clear h hcount
  induction chosen generalizing first p added with
  | nil =>
      obtain ⟨rfl, rfl⟩ := Action.mapM_nil_eq_ok.1 hmap
      exact ⟨[], rfl, rfl, rfl, rfl, (List.append_nil _).symm⟩
  | cons path chosen ih =>
      rw [List.zipIdx_cons] at hmap
      obtain ⟨b, s, added', hfirst, hrest, rfl⟩ := Action.mapM_cons_eq_ok.1 hmap
      obtain ⟨rfl, c, hname, hpath, hreg, hcalls⟩ :=
        addColumn_spec (hall path List.mem_cons_self) hfirst
      obtain ⟨columns, hpaths, hnames, hlength, hreg', hcalls'⟩ :=
        ih (fun x hx => hall x (List.mem_cons_of_mem path hx)) added' hrest
      refine ⟨c :: columns, ?_, ?_, ?_, ?_, ?_⟩
      · rw [List.map_cons, hpath, hpaths]
      · rw [List.map_cons, hname, hnames, List.length_cons, List.range'_succ,
          List.map_cons]
      · rw [List.countP_cons_of_pos rfl, hlength, List.length_cons]
      · rw [hreg', hreg]
        unfold AddedColumn.recordAll
        rw [List.foldl_cons, hname, hpath]
      · rw [hcalls', hcalls, hreg, entriesIn_recordColumn, List.flatMap_cons]
        unfold succeeded
        rw [List.map_append, List.append_assoc]

end Round

end FlowPricing
