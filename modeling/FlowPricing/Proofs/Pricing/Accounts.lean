/-
The calls of a master, read by the names of the variables they are made
for (`callsFor`), and what a registry has to show for them. A name is
settled (`Settled`) if nothing was tried under it, if the attempt broke off
and nothing is recorded, or if the column is committed and recorded with its
path. `Accounts` says so of all names, and that the numbers not yet handed
out are untouched; every attempt keeps it, successful or not.
-/
import FlowPricing.Proofs.Pricing.Attempt

namespace FlowPricing

variable {μ : Type}

-- ====================================================== calls by name

/-- The name under which a call creates a variable. -/
def MasterCall.creates? : MasterCall → Option String
  | addPricedVariable name .. => some name
  | _ => none

/-- The names under which variables were created, in the order of the
calls. -/
def createdNames (calls : List RecordedCall) : List String :=
  (calls.map RecordedCall.call).filterMap MasterCall.creates?

theorem createdNames_append (calls more : List RecordedCall) :
    createdNames (calls ++ more) = createdNames calls ++ createdNames more := by
  unfold createdNames
  rw [List.map_append, List.filterMap_append]

/-- The calls made while the variable created last had a name; `on` says
whether it has at the start. -/
def during (name : String) : Bool → List RecordedCall → List RecordedCall
  | _, [] => []
  | on, c :: calls =>
      let on :=
        (c.call.creates?.map fun created => decide (created = name)).getD on
      if on then c :: during name on calls else during name on calls

/-- The mutating calls made for the variable of a name: its creation, and
all that follow until another variable is created. -/
def callsFor (name : String) (calls : List RecordedCall) : List RecordedCall :=
  during name false (calls.filter (·.call.isMutating))

/-- Mutating calls for a single variable, which the first of them creates. -/
structure Block (name : String) (record : List RecordedCall) : Prop where
  mutating : ∀ c ∈ record, c.call.isMutating = true
  created : ∃ c rest, record = c :: rest ∧ c.call.creates? = some name
    ∧ ∀ d ∈ rest, d.call.creates? = none

section Calls

variable {name name' : String} {calls record reads : List RecordedCall}

/-- Without a creation, all calls belong to the variable there is, or none. -/
theorem during_of_no_creation (h : ∀ c ∈ calls, c.call.creates? = none)
    (on : Bool) :
    during name on calls = if on then calls else [] := by
  induction calls with
  | nil => cases on <;> rfl
  | cons c calls ih =>
      have hrest := ih fun d hd => h d (List.mem_cons_of_mem c hd)
      unfold during
      simp only [h c List.mem_cons_self, Option.map_none,
        Option.getD_none, hrest]
      cases on <;> rfl

/-- Calls for one variable are added to its own. -/
theorem during_append_block (h : Block name record) (name' : String)
    (on : Bool) :
    during name' on (calls ++ record)
      = during name' on calls ++ if name = name' then record else [] := by
  induction calls generalizing on with
  | nil =>
      obtain ⟨c, rest, rfl, hname, hrest⟩ := h.created
      show during name' on (c :: rest) = if name = name' then c :: rest else []
      unfold during
      simp only [hname, during_of_no_creation hrest]
      by_cases heq : name = name' <;> simp [heq]
  | cons c calls ih =>
      rw [List.cons_append, during, during]
      simp only [ih]
      generalize (c.call.creates?.map fun created =>
        decide (created = name')).getD on = on'
      cases on' <;> rfl

/-- Reading the master is no call for any variable. -/
theorem callsFor_append_reads (h : ∀ c ∈ reads, c.call.isMutating = false) :
    callsFor name (calls ++ reads) = callsFor name calls := by
  have hnone : reads.filter (·.call.isMutating) = [] := by
    apply List.filter_eq_nil_iff.2
    intro c hc
    rw [h c hc]
    exact Bool.false_ne_true
  unfold callsFor
  rw [List.filter_append, hnone, List.append_nil]

/-- Calls for one variable are none for any other. -/
theorem callsFor_append_block (h : Block name record) :
    callsFor name' (calls ++ record)
      = callsFor name' calls ++ if name = name' then record else [] := by
  unfold callsFor
  rw [List.filter_append, List.filter_eq_self.2 h.mutating,
    during_append_block h]

end Calls

namespace AddedColumn

variable {entries : Arc → List IndexEntry} {c : AddedColumn}
  {record : List RecordedCall}

/-- Coefficients are those of entries of arcs of the path. -/
theorem mem_coefficients {call : MasterCall}
    (h : call ∈ c.coefficients entries) :
    ∃ a ∈ c.path.arcs, ∃ e ∈ entries a,
      call = .addCoefficient e.handle c.handle e.coefficient := by
  obtain ⟨a, ha, hcall⟩ := List.mem_flatMap.1 h
  obtain ⟨e, he, rfl⟩ := List.mem_map.1 hcall
  exact ⟨a, ha, e, he, rfl⟩

/-- However far an attempt got, its calls are for its own variable. -/
theorem block_of_prefix (entries : Arc → List IndexEntry) (hne : record ≠ [])
    (h : record.map (·.call) <+: c.calls entries) : Block c.name record := by
  have hrest : ∀ call ∈ c.coefficients entries ++ [.commitVariable c.handle],
      call.isMutating = true ∧ call.creates? = none := by
    intro call hcall
    rcases List.mem_append.1 hcall with hcall | hcall
    · obtain ⟨a, -, e, -, rfl⟩ := mem_coefficients hcall
      exact ⟨rfl, rfl⟩
    · obtain rfl := List.mem_singleton.1 hcall
      exact ⟨rfl, rfl⟩
  obtain ⟨d, rest, rfl⟩ := List.exists_cons_of_ne_nil hne
  rw [List.map_cons, calls, List.cons_prefix_cons] at h
  obtain ⟨hd, hbefore⟩ := h
  have hmem : ∀ x ∈ rest, x.call.isMutating = true ∧ x.call.creates? = none :=
    fun x hx => hrest _ (hbefore.subset (List.mem_map_of_mem hx))
  refine ⟨?_, d, rest, rfl, ?_, fun x hx => (hmem x hx).2⟩
  · intro x hx
    rcases List.mem_cons.1 hx with rfl | hx
    · rw [hd]
      rfl
    · exact (hmem x hx).1
  · rw [hd]
    rfl

/-- A whole attempt is calls for its variable. -/
theorem block_succeeded (entries : Arc → List IndexEntry) (c : AddedColumn) :
    Block c.name (Round.succeeded (c.calls entries)) := by
  apply block_of_prefix entries
  · exact List.cons_ne_nil _ _
  · unfold Round.succeeded
    rw [List.map_map]
    exact (List.map_id _).symm ▸ List.prefix_rfl

/-- So is one that broke off. -/
theorem block_broken (h : Round.Broken (c.calls entries) record) :
    Block c.name record := by
  obtain ⟨done, call, rest, hcalls, rfl⟩ := h
  apply block_of_prefix entries
  · exact List.append_ne_nil_of_right_ne_nil _ (List.cons_ne_nil _ _)
  · refine ⟨rest, ?_⟩
    rw [hcalls]
    simp [Round.succeeded, Function.comp_def]

/-- The commit is the last call of an attempt, so one that broke off did
not commit. -/
theorem not_committed_of_broken (h : Round.Broken (c.calls entries) record)
    (v : VariableId) : ⟨.commitVariable v, true⟩ ∉ record := by
  obtain ⟨done, call, rest, hcalls, rfl⟩ := h
  have hdone : ∀ d ∈ done, d ∈ (c.calls entries).dropLast := by
    intro d hd
    rw [hcalls, List.dropLast_append_cons]
    exact List.mem_append_left _ hd
  have hlast : (c.calls entries).dropLast
      = .addPricedVariable c.name 0.0 Weight.infinity 0.0
        :: c.coefficients entries := by
    unfold calls
    rw [← List.cons_append, List.dropLast_concat]
  intro hmem
  rcases List.mem_append.1 hmem with hmem | hmem
  · obtain ⟨d, hd, heq⟩ := List.mem_map.1 hmem
    obtain rfl := (RecordedCall.mk.inj heq).1
    have hin := hdone _ hd
    rw [hlast] at hin
    rcases List.mem_cons.1 hin with h | h
    · exact nomatch h
    · obtain ⟨a, -, e, -, h⟩ := mem_coefficients h
      exact nomatch h
  · exact nomatch List.mem_singleton.1 hmem

end AddedColumn

-- =========================================================== accounts

section Accounts

variable {entries : Arc → List IndexEntry} {issued : AddedColumn → Prop}
  {base record calls : List RecordedCall} {name : String} {k : Nat}

/-- How the path recorded under a name goes with the calls made for it.
Whose variable it is that a recorded column has, `issued` says. -/
inductive Settled (entries : Arc → List IndexEntry)
    (issued : AddedColumn → Prop) (name : String) :
    Option Path → List RecordedCall → Prop
  | untried : Settled entries issued name none []
  | broken (v : VariableId) (path : Path) {made : List RecordedCall}
      (h : Round.Broken (AddedColumn.calls entries ⟨name, v, path⟩) made) :
      Settled entries issued name none made
  | committed (v : VariableId) (path : Path) (h : issued ⟨name, v, path⟩) :
      Settled entries issued name (some path)
        (Round.succeeded (AddedColumn.calls entries ⟨name, v, path⟩))

/-- What is known of the recorded columns may be said less exactly. -/
theorem Settled.mono {issued' : AddedColumn → Prop} {made : List RecordedCall}
    {path? : Option Path} (h : Settled entries issued name path? made)
    (hi : ∀ c, issued c → issued' c) :
    Settled entries issued' name path? made := by
  cases h with
  | untried => exact .untried
  | broken v path h => exact .broken v path h
  | committed v path h => exact .committed v path (hi _ h)

/-- A path is recorded exactly if a commit succeeded. -/
theorem Settled.isSome_iff {made : List RecordedCall} {path? : Option Path}
    (h : Settled entries issued name path? made) :
    path?.isSome = true ↔ ∃ v, ⟨.commitVariable v, true⟩ ∈ made := by
  cases h with
  | untried => simp
  | broken v path h => simpa using AddedColumn.not_committed_of_broken h
  | committed v path h =>
      refine ⟨fun _ => ⟨v, ?_⟩, fun _ => rfl⟩
      exact List.mem_map_of_mem
        (List.mem_cons_of_mem _ (List.mem_append_right _ (by simp)))

variable {p q : Problem (Recorded μ)}

/-- The calls made beyond `base`, name by name. The column numbers from `k`
are untouched. -/
structure Accounts (entries : Arc → List IndexEntry)
    (issued : AddedColumn → Prop) (base : List RecordedCall) (k : Nat)
    (p : Problem (Recorded μ)) (calls : List RecordedCall) :
    Prop where
  since : p.master.calls = base ++ calls
  index : Round.entriesIn p.registry = entries
  settled : ∀ name, Settled entries issued name (p.registry.path? name)
    (callsFor name calls)
  fresh : ∀ i, k ≤ i →
    p.registry.path? (columnName i) = none ∧ callsFor (columnName i) calls = []
  /-- No mutating call is made outside of an attempt. -/
  attributed : ∀ c ∈ calls, c.call.isMutating = true →
    ∃ name, c ∈ callsFor name calls

namespace Accounts

theorem mono (h : Accounts entries issued base k p calls) {k' : Nat}
    (hk : k ≤ k') :
    Accounts entries issued base k' p calls :=
  { h with fresh := fun i hi => h.fresh i (hk.trans hi) }

theorem mono_issued (h : Accounts entries issued base k p calls)
    {issued' : AddedColumn → Prop} (hi : ∀ c, issued c → issued' c) :
    Accounts entries issued' base k p calls :=
  { h with settled := fun name => (h.settled name).mono hi }

/-- An attempt settles the next name. -/
theorem append_block (h : Accounts entries issued base k p calls)
    (path? : Option Path) (hblock : Block (columnName k) record)
    (hcalls : q.master.calls = p.master.calls ++ record)
    (hindex : Round.entriesIn q.registry = Round.entriesIn p.registry)
    (hpath : ∀ name, q.registry.path? name
      = if columnName k = name then path? else p.registry.path? name)
    (hsettled : Settled entries issued (columnName k) path? record) :
    Accounts entries issued base (k + 1) q (calls ++ record) := by
  have hfor : ∀ name, callsFor name (calls ++ record)
      = if columnName k = name then record else callsFor name calls := by
    intro name
    rw [callsFor_append_block hblock]
    by_cases heq : columnName k = name
    · rw [if_pos heq, if_pos heq, ← heq, (h.fresh k (Nat.le_refl k)).2,
        List.nil_append]
    · rw [if_neg heq, if_neg heq, List.append_nil]
  exact {
    since := by rw [hcalls, h.since, List.append_assoc]
    index := hindex.trans h.index
    settled := by
      intro name
      rw [hpath, hfor]
      by_cases heq : columnName k = name
      · subst heq
        rw [if_pos rfl, if_pos rfl]
        exact hsettled
      · rw [if_neg heq, if_neg heq]
        exact h.settled name
    fresh := by
      intro i hi
      have hne : columnName k ≠ columnName i := fun heq => by
        have := columnName_injective heq
        omega
      rw [hpath, hfor, if_neg hne, if_neg hne]
      exact h.fresh i (by omega)
    attributed := by
      intro c hc hmutating
      rcases List.mem_append.1 hc with hc | hc
      · obtain ⟨name, hname⟩ := h.attributed c hc hmutating
        refine ⟨name, ?_⟩
        rw [callsFor_append_block hblock]
        exact List.mem_append_left _ hname
      · refine ⟨columnName k, ?_⟩
        rw [hfor, if_pos rfl]
        exact hc }

/-- A column that is recorded under the next name. -/
theorem commit (h : Accounts entries issued base k p calls) {v : VariableId}
    {path : Path} (hissued : issued ⟨columnName k, v, path⟩)
    (hregistry : q.registry = p.registry.recordColumn (columnName k) path)
    (hcalls : q.master.calls = p.master.calls ++ Round.succeeded
      (AddedColumn.calls (Round.entriesIn p.registry)
        ⟨columnName k, v, path⟩)) :
    Accounts entries issued base (k + 1) q (calls ++ Round.succeeded
      (AddedColumn.calls (Round.entriesIn p.registry)
        ⟨columnName k, v, path⟩)) := by
  refine h.append_block (some path)
    (AddedColumn.block_succeeded _ ⟨columnName k, v, path⟩) hcalls ?_ ?_ ?_
  · rw [hregistry]
    rfl
  · intro name
    rw [hregistry]
    exact Table.get?_insert _ _ _ _
  · rw [h.index]
    exact .committed v path hissued

/-- An attempt at the next name that breaks off. -/
theorem breakOff (h : Accounts entries issued base k p calls) {v : VariableId}
    {path : Path} (hregistry : q.registry = p.registry)
    (hcalls : q.master.calls = p.master.calls ++ record)
    (hbroken : Round.Broken (AddedColumn.calls (Round.entriesIn p.registry)
      ⟨columnName k, v, path⟩) record) :
    Accounts entries issued base (k + 1) q (calls ++ record) := by
  refine h.append_block none (AddedColumn.block_broken hbroken) hcalls ?_ ?_ ?_
  · rw [hregistry]
  · intro name
    rw [hregistry]
    split
    · next heq => rw [← heq, (h.fresh k (Nat.le_refl k)).1]
    · rfl
  · rw [← h.index]
    exact .broken v path hbroken

-- ============================================================= columns

/-- Where the columns for the chosen paths, numbered from `k`, broke off:
those before are recorded, the one that failed is not, and no call was made
for those after it. -/
def Stopped (entries : Arc → List IndexEntry) (k : Nat) (chosen : List Path)
    (r : Registry) (calls : List RecordedCall) : Prop :=
  ∃ done path rest, chosen = done ++ path :: rest
    ∧ (∀ i p, done[i]? = some p → r.path? (columnName (k + i)) = some p)
    ∧ r.path? (columnName (k + done.length)) = none
    ∧ (∃ v, Round.Broken
      (AddedColumn.calls entries ⟨columnName (k + done.length), v, path⟩)
        (callsFor (columnName (k + done.length)) calls))
    ∧ ∀ i, k + done.length < i → callsFor (columnName i) calls = []

/-- The first attempt breaks off. -/
theorem stopped_at (h : Accounts entries issued base (k + 1) q calls)
    {v : VariableId} {path : Path} (rest : List Path)
    (hpath : q.registry.path? (columnName k) = none)
    (hbroken : Round.Broken (AddedColumn.calls entries ⟨columnName k, v, path⟩)
      (callsFor (columnName k) calls)) :
    Stopped entries k (path :: rest) q.registry calls :=
  ⟨[], path, rest, rfl, nofun, hpath, ⟨v, hbroken⟩, fun i hi =>
    (h.fresh i hi).2⟩

/-- A column before the one that failed is recorded. -/
theorem Stopped.cons {chosen : List Path} {r : Registry} {path : Path}
    (h : Stopped entries (k + 1) chosen r calls)
    (hpath : r.path? (columnName k) = some path) :
    Stopped entries k (path :: chosen) r calls := by
  obtain ⟨done, broken, rest, rfl, hdone, hnone, hbroken, hlater⟩ := h
  have hlength : k + 1 + done.length = k + (path :: done).length := by
    rw [List.length_cons]
    omega
  rw [hlength] at hnone hbroken hlater
  refine ⟨path :: done, broken, rest, rfl, ?_, hnone, hbroken, hlater⟩
  intro i p hp
  cases i with
  | zero =>
      obtain rfl := Option.some.inj hp
      exact hpath
  | succ i =>
      rw [← Nat.add_assoc, Nat.add_right_comm]
      exact hdone i p hp

variable [MasterProblem μ] {tolerance : Float} {chosen : List Path}

/-- Among the columns for the chosen paths, numbered from `first`, it is the
turn of `c`: those before it were added, and its variable is the one that
the master then issued. -/
def Turn (tolerance : Float) (first : Nat) (chosen : List Path)
    (p : Problem (Recorded μ)) (c : AddedColumn) : Prop :=
  ∃ done rest k q m, chosen = done ++ c.path :: rest
    ∧ Round.addColumns tolerance first done p = .ok k q
    ∧ c.name = columnName (first + done.length)
    ∧ MasterProblem.addPricedVariable c.name 0.0 Weight.infinity 0.0 q.master
      = .ok c.handle m

/-- What comes after the first column comes after it all the same. -/
theorem Turn.cons {path : Path} {c : AddedColumn} {b : Bool}
    (hadd : Round.addColumn tolerance (columnName k) path p = .ok b q)
    (h : Turn tolerance (k + 1) chosen q c) :
    Turn tolerance k (path :: chosen) p c := by
  obtain ⟨done, rest, n, u, m, rfl, hdone, hname, hissued⟩ := h
  obtain ⟨bs, _, hmap, hcount⟩ := Action.bind_eq_ok.1 hdone
  obtain ⟨-, rfl⟩ := Action.pure_eq_ok.1 hcount
  refine ⟨path :: done, rest, (b :: bs).countP id, _, m, rfl, ?_, ?_, hissued⟩
  · refine Action.bind_eq_ok.2 ⟨b :: bs, _, ?_, rfl⟩
    exact Action.mapM_cons_eq_ok.2 ⟨b, q, bs, hadd, hmap, rfl⟩
  · rw [hname, List.length_cons, Nat.add_right_comm, Nat.add_assoc]

/-- The chosen paths, one attempt after another, from the next number on.
Names handed out before keep what is recorded under them. -/
theorem mapM_addColumn
    (hall : ∀ path ∈ chosen, path.isImproving tolerance = true)
    (hissued : ∀ c, Turn tolerance k chosen p c → issued c)
    (h : Accounts entries issued base k p calls) :
    ∃ later q,
      ((∃ bs, (chosen.zipIdx k).mapM (fun x =>
        Round.addColumn tolerance (columnName x.2) x.1) p
            = .ok bs q)
        ∨ ∃ e, (chosen.zipIdx k).mapM (fun x =>
          Round.addColumn tolerance (columnName x.2) x.1) p
            = .error e q
          ∧ Stopped entries k chosen q.registry (calls ++ later))
      ∧ Accounts entries issued base (k + chosen.length) q (calls ++ later)
      ∧ ∀ i < k, q.registry.path? (columnName i)
        = p.registry.path? (columnName i) := by
  induction chosen generalizing k p calls with
  | nil =>
      refine ⟨[], p, .inl ⟨[], rfl⟩, ?_, fun _ _ => rfl⟩
      rw [List.append_nil]
      exact h
  | cons path chosen ih =>
      have hlength : k + 1 + chosen.length = k + (path :: chosen).length := by
        rw [List.length_cons]
        omega
      rw [List.zipIdx_cons, List.mapM_cons]
      rcases Round.addColumn_cases (hall path List.mem_cons_self)
        (columnName k) p with
        ⟨v, m, q, hcreated, hadd, hregistry, hcalls⟩
          | ⟨v, e, q, record, hadd, hregistry, hcalls, hbroken⟩
      · have hturn : Turn tolerance k (path :: chosen) p
            ⟨columnName k, v, path⟩ :=
          ⟨[], chosen, 0, p, m, rfl, rfl, rfl, hcreated⟩
        have hq := h.commit (hissued _ hturn) hregistry hcalls
        have hkept : ∀ name, q.registry.path? name
            = if columnName k = name then some path
              else p.registry.path? name := by
          intro name
          rw [hregistry]
          exact Table.get?_insert _ _ _ _
        obtain ⟨later, u, hrun, hu, hframe⟩ :=
          ih (fun x hx => hall x (List.mem_cons_of_mem path hx))
            (fun c hc => hissued c (hc.cons hadd)) hq
        rw [hlength, List.append_assoc] at hu
        refine ⟨_, u, ?_, hu, ?_⟩
        · rcases hrun with ⟨bs, hbs⟩ | ⟨e, he, hstopped⟩
          · exact .inl ⟨_,
              Action.bind_eq_ok.2
                ⟨true, q, hadd, Action.bind_eq_ok.2 ⟨bs, u, hbs, rfl⟩⟩⟩
          · rw [List.append_assoc] at hstopped
            refine .inr ⟨e, Action.bind_eq_error.2 (.inr ⟨true, q, hadd,
              Action.bind_eq_error.2 (.inl he)⟩), hstopped.cons ?_⟩
            rw [hframe k (Nat.lt_succ_self k), hkept, if_pos rfl]
        · intro i hi
          have hne : columnName k ≠ columnName i := fun heq => by
            have := columnName_injective heq
            omega
          rw [hframe i (by omega), hkept, if_neg hne]
      · have hq := h.breakOff hregistry hcalls hbroken
        have hmade : callsFor (columnName k) (calls ++ record) = record := by
          rw [callsFor_append_block (AddedColumn.block_broken hbroken),
            if_pos rfl, (h.fresh k (Nat.le_refl k)).2, List.nil_append]
        refine ⟨record, q, .inr ⟨e, Action.bind_eq_error.2 (.inl hadd), ?_⟩,
          hlength ▸ hq.mono (Nat.le_add_right _ _),
          fun i _ => by rw [hregistry]⟩
        apply stopped_at hq (v := v)
        · rw [hregistry]
          exact (h.fresh k (Nat.le_refl k)).1
        · rw [hmade, ← h.index]
          exact hbroken

/-- The columns of a round, whether they are all added or not. -/
theorem addColumns (hall : ∀ path ∈ chosen, path.isImproving tolerance = true)
    (hissued : ∀ c, Turn tolerance k chosen p c → issued c)
    (h : Accounts entries issued base k p calls) :
    ∃ later, Accounts entries issued base (k + chosen.length)
        ((Round.addColumns tolerance k chosen).after p) (calls ++ later)
      ∧ ∀ e q, Round.addColumns tolerance k chosen p = .error e q →
        Stopped entries k chosen q.registry (calls ++ later) := by
  obtain ⟨later, q, hrun, hq, -⟩ := mapM_addColumn hall hissued h
  refine ⟨later, ?_⟩
  unfold Round.addColumns
  rw [Action.after_bind]
  rcases hrun with ⟨bs, hbs⟩ | ⟨e, he, hstopped⟩
  · rw [hbs]
    refine ⟨hq, fun e u hu => ?_⟩
    rcases Action.bind_eq_error.1 hu with hu | ⟨_, _, -, hu⟩
    · rw [hbs] at hu
      exact nomatch hu
    · exact absurd hu Action.pure_ne_error
  · rw [he]
    refine ⟨hq, fun e' u hu => ?_⟩
    rcases Action.bind_eq_error.1 hu with hu | ⟨_, _, hu, -⟩
    · rw [he] at hu
      obtain ⟨-, rfl⟩ := EStateM.Result.error.inj hu
      exact hstopped
    · rw [he] at hu
      exact nomatch hu

end Accounts

end Accounts

end FlowPricing
