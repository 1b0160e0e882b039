/-
Once a solve has started, the handles it knows are those that the master gave
for the stored ones, and no others. A start puts the master's answer in the
place of each, in the list of constraints and in the arc index, and changes
nothing else (`Solve.Started`). From then on every call that is about a
constraint is about one of the answers (`Solve.Confined`), whatever fails and
whatever happens to the rest of the registry.

A master whose constraint changes by calls about it alone (`Guards`) keeps it
as it is when no call is about it. The master in memory is one: so a
constraint that has a copy, and is no copy itself, has its last terms when the
solve starts.
-/
import FlowPricing.Proofs.Pricing.History

namespace FlowPricing

variable {μ κ : Type}

-- ============================================================= handles

namespace Registry

/-- The handles stored, first those of the constraints and then those of the
arc index, as they are replaced. -/
def handles (r : Registry) : List ConstraintId :=
  r.constraints.map Constraint.handle ++ r.index.entries.flatMap fun e =>
    e.2.map IndexEntry.handle

/-- All of a registry but its handles: it has the same one everywhere. -/
def shape (r : Registry) : Registry := r.renamed fun _ => default

variable {r r' : Registry}

theorem handles_eq (hconstraints : r'.constraints = r.constraints)
    (hindex : r'.index = r.index) :
    r'.handles = r.handles := by
  unfold handles
  rw [hconstraints, hindex]

theorem mem_handles_of_constraint {c : Constraint} (hc : c ∈ r.constraints) :
    c.handle ∈ r.handles := List.mem_append_left _ (List.mem_map_of_mem hc)

/-- The handle of an entry is among them. -/
theorem mem_handles_of_entry {a : Arc} {e : IndexEntry}
    (he : e ∈ Round.entriesIn r a) :
    e.handle ∈ r.handles := by
  unfold Round.entriesIn entriesOf at he
  cases hget : r.index.get? a with
  | none =>
      rw [hget] at he
      exact absurd he List.not_mem_nil
  | some es =>
      rw [hget] at he
      refine List.mem_append_right _
        (List.mem_flatMap.2 ⟨(a, es), Table.mem_of_find hget, ?_⟩)
      exact List.mem_map_of_mem he

section Replacing

variable {ε σ : Type} {g : ConstraintId → Action ε σ ConstraintId} {s t : σ}
  {u : Unit}

/-- Replacing one handle asks for one. -/
theorem mapM_singleton_of_ok {c d : ConstraintId} (h : g c s = .ok d t) :
    [c].mapM g s = .ok [d] t :=
  Action.mapM_cons_eq_ok.2
    ⟨d, t, [], h, Action.mapM_nil_eq_ok.2 ⟨rfl, rfl⟩, rfl⟩

/-- Things with handles get the answers for them, and keep the rest. -/
theorem each_rehandle_handles {τ δ : Type} {handle : τ → ConstraintId}
    {put : τ → ConstraintId → τ} {xs ys : List τ} {us : List Unit}
    (h : (rehandle handle put g).each (xs, s) = .ok us (ys, t))
    (hhandle : ∀ x d, handle (put x d) = d) (rest : τ → δ)
    (hrest : ∀ x d, rest (put x d) = rest x) :
    (xs.map handle).mapM g s = .ok (ys.map handle) t
      ∧ ys.map rest = xs.map rest := by
  rw [List.map_eq_flatMap, List.map_eq_flatMap]
  refine Action.each_collects ?_ h
  intro x s _ y t hone
  obtain ⟨d, hd, rfl⟩ := exists_of_rehandle hone
  rw [hhandle]
  exact ⟨mapM_singleton_of_ok hd, hrest x d⟩

/-- Replacing the entries of an arc asks for their handles in turn. -/
theorem replaceEntries_handles {x y : Arc × List IndexEntry} {us : List Unit}
    (h : replaceEntries g (x, s) = .ok us (y, t)) :
    (x.2.map IndexEntry.handle).mapM g s = .ok (y.2.map IndexEntry.handle) t
      ∧ (y.1, y.2.map (·.rename fun _ => default))
        = (x.1, x.2.map (·.rename fun _ => default)) := by
  obtain ⟨⟨es, t'⟩, hentries, hput⟩ := Action.focus_eq_ok.1 h
  cases hput
  obtain ⟨hhandles, hrest⟩ := each_rehandle_handles hentries (fun _ _ => rfl)
    (·.rename fun _ => default) fun _ _ => rfl
  exact ⟨hhandles, congrArg (Prod.mk x.1) hrest⟩

/-- The constraint list is replaced by asking for its handles in turn. -/
theorem remapConstraints_handles
    (h : remapConstraints g (r, s) = .ok u (r', t)) :
    (r.constraints.map Constraint.handle).mapM g s
      = .ok (r'.constraints.map Constraint.handle) t
      ∧ r'.index = r.index ∧ r'.shape = r.shape := by
  obtain ⟨us, cs, heach, rfl⟩ := each_of_remapConstraints h
  obtain ⟨hhandles, hrest⟩ := each_rehandle_handles heach (fun _ _ => rfl)
    (·.rename fun _ => default) fun _ _ => rfl
  refine ⟨hhandles, rfl, ?_⟩
  unfold shape renamed
  rw [hrest]

/-- So is the index, arc by arc. -/
theorem remapIndex_handles (h : remapIndex g (r, s) = .ok u (r', t)) :
    (r.index.entries.flatMap fun e => e.2.map IndexEntry.handle).mapM g s
        = .ok (r'.index.entries.flatMap fun e => e.2.map IndexEntry.handle) t
      ∧ r'.constraints = r.constraints ∧ r'.shape = r.shape := by
  obtain ⟨us, es, heach, rfl⟩ := each_of_remapIndex h
  obtain ⟨hhandles, hrest⟩ := Action.each_collects
    (fun _ _ _ _ _ => replaceEntries_handles) heach
  refine ⟨hhandles, rfl, ?_⟩
  unfold shape renamed
  rw [hrest]

/-- In the place of the stored handles stand the answers for them, asked for
one after another; nothing else changes. -/
theorem remap_handles (h : remap g (r, s) = .ok u (r', t)) :
    r.handles.mapM g s = .ok r'.handles t ∧ r'.shape = r.shape := by
  unfold remap at h
  obtain ⟨_, ⟨r₁, s₁⟩, hconstraints, hindex⟩ := Action.bind_eq_ok.1 h
  obtain ⟨hfirst, hsame₁, hshape₁⟩ := remapConstraints_handles hconstraints
  obtain ⟨hsecond, hsame₂, hshape₂⟩ := remapIndex_handles hindex
  refine ⟨?_, hshape₂.trans hshape₁⟩
  unfold handles
  rw [hsame₂, ← hsame₁]
  exact Action.mapM_append_of_ok hfirst hsecond

end Replacing

end Registry

-- =============================================================== starts

namespace Solve

/-- The start that made `t` of `s` put `d` in the place of the handle `h`. -/
def Replaces (s t : Solve μ) (h d : ConstraintId) : Prop :=
  (h, d) ∈ s.problem.registry.handles.zip t.problem.registry.handles

/-- What a start has done. It asked the master for every stored handle, and
put the answer in its place; apart from the handles the registry is the same,
with all arcs and coefficients. If the master answers `f`, all handles were
replaced by `f`. -/
structure Started [MasterProblem μ] (s t : Solve μ) : Prop where
  answered : s.problem.registry.handles.mapM MasterProblem.transformedConstraint
    s.problem.master
    = .ok t.problem.registry.handles t.problem.master
  shape : t.problem.registry.shape = s.problem.registry.shape
  renamed : ∀ f,
    Registry.Answers MasterProblem.transformedConstraint f s.problem.master →
    t.problem.registry = s.problem.registry.renamed f
  ready : t.pricer = { s.pricer with state := .ready }

/-- A start that succeeds has asked for every stored handle and put the
answers in. -/
theorem started [MasterProblem μ] {s t : Solve μ} {u : Unit}
    (h : start s = .ok u t) :
    Started s t := by
  have hrenamed := fun f hf => (start_renames (f := f) hf h).1
  obtain ⟨-, r, m, hremap, rfl⟩ := start_eq_ok.1 h
  obtain ⟨hanswered, hshape⟩ := Registry.remap_handles hremap
  exact ⟨hanswered, hshape, hrenamed, rfl⟩

/-- Every stored handle has been put in the place of one. -/
theorem Started.replaces [MasterProblem μ] {s t : Solve μ} (h : Started s t)
    {d : ConstraintId} (hd : d ∈ t.problem.registry.handles) :
    ∃ c, Replaces s t c d := by
  have hlength : t.problem.registry.handles.length
      ≤ s.problem.registry.handles.length := by
    obtain ⟨hall, -⟩ :=
      Action.forall₂_of_mapM (P := fun _ => True) (R := fun _ _ => True)
      (fun _ _ _ _ _ _ => ⟨trivial, trivial⟩) trivial h.answered
    exact hall.length_eq.ge
  rw [← List.map_snd_zip hlength] at hd
  obtain ⟨⟨c, d⟩, hcd, rfl⟩ := List.mem_map.1 hd
  exact ⟨c, hcd⟩

end Solve

-- ================================================================ calls

/-- The constraint that a call is about, if it is about one. -/
def MasterCall.constraint? : MasterCall → Option ConstraintId
  | dualValue c | farkasValue c | transformedConstraint c => some c
  | addCoefficient c _ _ | removeCoefficient c _ => some c
  | constraintName c | constraintTerms c | deleteConstraint c
    | setModifiable c => some c
  | addPricedVariable .. | commitVariable _ | variableName _ => none

theorem Round.constraint?_readCall (kind : PricingKind) (c : ConstraintId) :
    (readCall kind c).constraint? = some c := by
  cases kind <;> rfl

/-- The calls for a column are about the constraints in whose entries its
arcs are. -/
theorem AddedColumn.constraint?_calls {entries : Arc → List IndexEntry}
    {c : AddedColumn} {call : MasterCall} {d : ConstraintId}
    (hcall : call ∈ c.calls entries) (hd : call.constraint? = some d) :
    ∃ a, ∃ e ∈ entries a, e.handle = d := by
  rcases List.mem_cons.1 hcall with rfl | hcall
  · exact nomatch hd
  rcases List.mem_append.1 hcall with hcall | hcall
  · obtain ⟨a, -, e, he, rfl⟩ := mem_coefficients hcall
    exact ⟨a, e, he, Option.some.inj hd⟩
  · rw [List.mem_singleton.1 hcall] at hd
    exact nomatch hd

namespace Solve

variable {s t u : Solve (Recorded μ)}

/-- From `s` to `t` the constraints and the arc index stayed as they are, and
no call was made about a constraint that is not among them. -/
structure Confined (s t : Solve (Recorded μ)) : Prop where
  constraints : t.problem.registry.constraints = s.problem.registry.constraints
  index : t.problem.registry.index = s.problem.registry.index
  calls : ∃ later, t.problem.master.calls = s.problem.master.calls ++ later
    ∧ ∀ x ∈ later, ∀ d, x.call.constraint? = some d →
      d ∈ s.problem.registry.handles

/-- Without a call nothing concerns any constraint. -/
theorem Confined.of_calls (hconstraints : t.problem.registry.constraints
      = s.problem.registry.constraints) (hindex : t.problem.registry.index
      = s.problem.registry.index)
        (hcalls : t.problem.master.calls = s.problem.master.calls) :
    Confined s t :=
  ⟨hconstraints, hindex, [], hcalls.trans (List.append_nil _).symm,
    fun _ hx => absurd hx List.not_mem_nil⟩

/-- The handles in store stay the same. -/
theorem Confined.handles (h : Confined s t) :
    t.problem.registry.handles = s.problem.registry.handles :=
  Registry.handles_eq h.constraints h.index

theorem Confined.trans (h₁ : Confined s t) (h₂ : Confined t u) :
    Confined s u := by
  obtain ⟨later₁, hcalls₁, habout₁⟩ := h₁.calls
  obtain ⟨later₂, hcalls₂, habout₂⟩ := h₂.calls
  refine ⟨h₂.constraints.trans h₁.constraints, h₂.index.trans h₁.index,
    later₁ ++ later₂, ?_, ?_⟩
  · rw [hcalls₂, hcalls₁, List.append_assoc]
  · intro x hx d hd
    rcases List.mem_append.1 hx with hx | hx
    · exact habout₁ x hx d hd
    · exact h₁.handles ▸ habout₂ x hx d hd

variable [MasterProblem μ]

/-- A round asks about the constraints that are stored, and gives columns
their coefficients in those of the index, however it ends. -/
theorem confined_price (kind : PricingKind) (s : Solve (Recorded μ)) :
    Confined s ((price kind).after s) := by
  obtain ⟨hconstraints, hindex, -⟩ := (moves_price kind s).registry.keeps
  obtain ⟨tried, done, hleft⟩ := price_left kind s
  obtain ⟨made, hcalls, hmade⟩ := hleft.calls
  refine ⟨hconstraints, hindex, made, hcalls, ?_⟩
  intro x hx d hd
  rcases List.mem_append.1 (hmade.subset (List.mem_map_of_mem hx)) with
    hread | hcolumn
  · obtain ⟨c, hc, hcall⟩ := List.mem_map.1 hread
    rw [← hcall, Round.constraint?_readCall] at hd
    obtain ⟨k, hk, rfl⟩ := List.mem_map.1 hc
    exact Option.some.inj hd ▸ Registry.mem_handles_of_constraint hk
  · obtain ⟨c, -, hcall⟩ := List.mem_flatMap.1 hcolumn
    obtain ⟨a, e, he, rfl⟩ := AddedColumn.constraint?_calls hcall hd
    exact Registry.mem_handles_of_entry he

/-- What becomes of a solve while nothing is added to its constraints or its
arc index. Its pricer may be told anything, the master may change as
`allowed` says, and the rest of the registry in any way. -/
inductive Undisturbed (allowed : μ → μ → Prop) (s : Solve (Recorded μ)) :
    Solve (Recorded μ) → Prop
  | refl : Undisturbed allowed s s
  | round {t : Solve (Recorded μ)} (kind : PricingKind)
      (h : Undisturbed allowed s t) :
      Undisturbed allowed s ((price kind).after t)
  | start {t : Solve (Recorded μ)} (h : Undisturbed allowed s t) :
      Undisturbed allowed s (Action.after start t)
  | terminate {t : Solve (Recorded μ)} (h : Undisturbed allowed s t) :
      Undisturbed allowed s (Action.after terminate t)
  | master {t : Solve (Recorded μ)} (m : μ)
      (hm : allowed t.problem.master.inner m)
      (h : Undisturbed allowed s t) : Undisturbed allowed s (t.withInner m)
  | registry {t : Solve (Recorded μ)} (r : Registry)
      (hconstraints : r.constraints = t.problem.registry.constraints)
      (hindex : r.index = t.problem.registry.index)
      (h : Undisturbed allowed s t) :
      Undisturbed allowed s { t with
        problem := { t.problem with registry := r } }

/-- Along a whole run after a start, no call is about a constraint that is
not stored. -/
theorem Undisturbed.confined {allowed : μ → μ → Prop}
    (hs : s.pricer.state ≠ .uninitialized) (h : Undisturbed allowed s t) :
    t.pricer.state ≠ .uninitialized ∧ Confined s t := by
  induction h with
  | refl => exact ⟨hs, .of_calls rfl rfl rfl⟩
  | @round t kind _ ih =>
      exact ⟨(moves_price kind t).state ▸ ih.1,
        ih.2.trans (confined_price kind t)⟩
  | start _ ih =>
      rw [after_start ih.1]
      exact ih
  | @terminate t _ ih =>
      obtain ⟨hproblem, hstate⟩ := after_terminate t
      refine ⟨hstate ih.1, ih.2.trans (.of_calls ?_ ?_ ?_)⟩ <;> rw [hproblem]
  | master m _ _ ih => exact ⟨ih.1, ih.2.trans (.of_calls rfl rfl rfl)⟩
  | registry r hconstraints hindex _ ih =>
      exact ⟨ih.1, ih.2.trans (.of_calls hconstraints hindex rfl)⟩

end Solve

-- =============================================================== guards

/-- What a round can do to a master does not show in `view`, but for
coefficients in the constraint `c`. -/
structure Guards [MasterProblem μ] (view : μ → κ) (c : ConstraintId) :
    Prop where
  reads : ∀ kind d, Action.Leaves view (Round.multiplier (μ := μ) kind d)
  creates : ∀ name lower upper objective, Action.Leaves view
    (MasterProblem.addPricedVariable (μ := μ) name lower upper objective)
  coefficients : ∀ d v x, d ≠ c →
    Action.Leaves view (MasterProblem.addCoefficient (μ := μ) d v x)
  commits : ∀ v, Action.Leaves view (MasterProblem.commitVariable (μ := μ) v)

namespace Recorded

variable {α : Type} {view : μ → κ} {c : ConstraintId}

/-- From `m` to `m'` the view changed only if a call was about `c`. -/
def Spares (view : μ → κ) (c : ConstraintId) (m m' : Recorded μ) : Prop :=
  ∃ later, m'.calls = m.calls ++ later
    ∧ ((∀ x ∈ later, x.call.constraint? ≠ some c) →
      view m'.inner = view m.inner)

instance (view : μ → κ) (c : ConstraintId) :
    IsPreorder (Recorded μ) (Spares view c) where
  refl m := ⟨[], (List.append_nil _).symm, fun _ => rfl⟩
  trans m m' m'' h₁ h₂ := by
    obtain ⟨later₁, hcalls₁, hview₁⟩ := h₁
    obtain ⟨later₂, hcalls₂, hview₂⟩ := h₂
    refine ⟨later₁ ++ later₂, ?_, fun hnone => ?_⟩
    · rw [hcalls₂, hcalls₁, List.append_assoc]
    · exact (hview₂ fun x hx => hnone x (List.mem_append_right _ hx)).trans
        (hview₁ fun x hx => hnone x (List.mem_append_left _ hx))

/-- A recorded call spares a constraint if it is for another one. -/
theorem spares_log {call : MasterCall} {act : Action MasterError μ α}
    (h : call.constraint? ≠ some c → Action.Leaves view act) :
    Action.Moves (Spares view c) (log call act) := by
  intro m
  obtain ⟨b, hcalls, hinner⟩ := after_log call act m
  refine ⟨_, hcalls, fun hnone => ?_⟩
  rw [hinner]
  exact h (hnone _ List.mem_cons_self) m.inner

/-- A round of a guarding master changes the view only by calls about `c`. -/
theorem spares_price [MasterProblem μ] (h : Guards view c)
    (kind : PricingKind) :
    Action.Moves (Action.Along (Spares view c)
      fun s : Solve (Recorded μ) => s.problem.master) (Solve.price kind) := by
  apply Solve.along_price
  · intro d
    cases kind with
    | reducedCost => exact spares_log fun _ => h.reads .reducedCost d
    | farkas => exact spares_log fun _ => h.reads .farkas d
  · exact fun name => spares_log fun _ => h.creates name _ _ _
  · exact fun d v x => spares_log fun hd => h.coefficients d v x fun heq =>
      hd (congrArg some heq)
  · exact fun v => spares_log fun _ => h.commits v

end Recorded

/-- What is guarded stays as it is if the constraint is not stored. -/
theorem Solve.Undisturbed.view_eq [MasterProblem μ] {s t : Solve (Recorded μ)}
    {view : μ → κ} {c : ConstraintId} (hguards : Guards view c)
    (hs : s.pricer.state ≠ .uninitialized) (hc : c ∉ s.problem.registry.handles)
    (h : Undisturbed (fun m m' => view m' = view m) s t) :
    view t.problem.master.inner = view s.problem.master.inner := by
  induction h with
  | refl => rfl
  | @round t kind h ih =>
      obtain ⟨-, hconfined⟩ := h.confined hs
      obtain ⟨later, hcalls, hview⟩ := Recorded.spares_price hguards kind t
      obtain ⟨later', hcalls', habout⟩ := (confined_price kind t).calls
      obtain rfl := List.append_cancel_left (hcalls.symm.trans hcalls')
      refine (hview fun x hx hd => hc ?_).trans ih
      exact hconfined.handles ▸ habout x hx c hd
  | start h ih =>
      rw [after_start (h.confined hs).1]
      exact ih
  | @terminate t _ ih =>
      rw [(after_terminate t).1]
      exact ih
  | master m hm _ ih => exact hm.trans ih
  | registry r _ _ _ ih => exact ih

-- ============================================================ in memory

namespace MemoryMaster

/-- The terms of a constraint that is there. -/
def terms? (m : MemoryMaster) (c : ConstraintId) :
    Option (List (VariableId × Float)) :=
  (m.row? c).map Row.terms

/-- Looking up a row changes nothing. -/
theorem leaves_row (view : MemoryMaster → κ) (op : MasterOperation)
    (c : ConstraintId) :
    Action.Leaves view (row op c) := by
  apply Action.moves_get_bind
  intro m
  split
  · exact Action.moves_pure (R := Action.Same view) _ m
  · exact Action.moves_throw (R := Action.Same view) _ m

theorem leaves_column (view : MemoryMaster → κ) (op : MasterOperation)
    (v : VariableId) :
    Action.Leaves view (column op v) := by
  apply Action.moves_get_bind
  intro m
  split
  · exact Action.moves_pure (R := Action.Same view) _ m
  · exact Action.moves_throw (R := Action.Same view) _ m

/-- Only coefficients in it change the terms of a constraint. -/
theorem guards_terms (c : ConstraintId) :
    Guards (fun m : MemoryMaster => m.terms? c) c where
  reads kind d := by
    cases kind with
    | reducedCost =>
        exact Action.moves_bind (leaves_row _ _ d) fun _ =>
          Action.moves_get_bind fun _ => rfl
    | farkas =>
        exact Action.moves_bind (leaves_row _ _ d) fun _ =>
          Action.moves_get_bind fun _ => rfl
  creates name lower upper objective := Action.moves_get_bind fun _ => rfl
  coefficients d v x hd := by
    refine Action.moves_bind (leaves_row _ _ d) fun r => ?_
    split
    · apply Action.moves_modify
      intro m
      exact congrArg (Option.map Row.terms) (row?_modifyRow_of_ne hd _)
    · exact Action.moves_throw _
  commits v := Action.moves_bind (leaves_column _ _ v) fun _ =>
    Action.moves_modify fun _ => rfl

end MemoryMaster

namespace Failing

variable {α : Type} {view : μ → κ} {op : MasterOperation}

/-- Counting a call does not reach the master behind. -/
theorem leaves_check (op : MasterOperation) :
    Action.Leaves (Failing.inner (μ := μ)) (check op) := by
  unfold check
  apply Action.moves_get_bind
  intro m
  split
  · split
    · split <;> rfl
    · rfl
  · rfl

/-- A call that may fail leaves alone what the call itself does. -/
theorem leaves_call {act : Action MasterError μ α}
    (h : Action.Leaves view act) :
    Action.Leaves (fun m : Failing μ => view m.inner) (call op act) := by
  refine Action.moves_bind (fun m => ?_) fun _ =>
    Action.moves_focus fun m => h m.inner
  exact congrArg view (leaves_check op m)

/-- A call that succeeds does so in the master behind. -/
theorem call_inner {act : Action MasterError μ α} {m m' : Failing μ} {a : α}
    (h : call op act m = .ok a m') : act m.inner = .ok a m'.inner := by
  obtain ⟨_, m₁, hcheck, h⟩ := Action.bind_eq_ok.1 h
  obtain ⟨inner, hact, rfl⟩ := Action.focus_eq_ok.1 h
  have hsame : m₁.inner = m.inner := (leaves_check op).of_ok hcheck
  rwa [hsame] at hact

/-- A master made to fail guards what the master behind does. -/
theorem guards [MasterProblem μ] {c : ConstraintId} (h : Guards view c) :
    Guards (fun m : Failing μ => view m.inner) c where
  reads kind d := by
    cases kind with
    | reducedCost => exact leaves_call (h.reads .reducedCost d)
    | farkas => exact leaves_call (h.reads .farkas d)
  creates name lower upper objective :=
    leaves_call (h.creates name lower upper objective)
  coefficients d v x hd := leaves_call (h.coefficients d v x hd)
  commits v := leaves_call (h.commits v)

end Failing

namespace Solve

/-- What a master in memory holds. -/
def memory (s : Solve (Recorded (Failing MemoryMaster))) : MemoryMaster :=
  s.problem.master.inner.inner

/-- A master in memory gives the copies it has, and stays as it is. -/
theorem Started.memory {s t : Solve (Recorded (Failing MemoryMaster))}
    (h : Started s t) :
    t.memory = s.memory
      ∧ ∀ c d, Replaces s t c d → d = (s.memory.transformed.get? c).getD c := by
  have hstep : ∀ (m : Recorded (Failing MemoryMaster)) c d m',
      m.inner.inner = s.memory →
        MasterProblem.transformedConstraint c m = .ok d m' →
      d = (s.memory.transformed.get? c).getD c ∧ m'.inner.inner = s.memory := by
    intro m c d m' hm hok
    exact MemoryMaster.answers_step _ c d _ hm
      (Failing.call_inner (Recorded.log_inner hok))
  obtain ⟨hall, hmemory⟩ := Action.forall₂_of_mapM hstep rfl h.answered
  exact ⟨hmemory, fun c d hcd => List.forall₂_zip hall hcd⟩

/-- A constraint that has a copy, and is no copy, is not stored any more. -/
theorem Started.not_mem_handles {s t : Solve (Recorded (Failing MemoryMaster))}
    (h : Started s t) {c d : ConstraintId}
    (hcopy : s.memory.transformed.get? c = some d)
    (horiginal : ∀ k, s.memory.transformed.get? k ≠ some c) :
    c ∉ t.problem.registry.handles := by
  intro hc
  obtain ⟨k, hk⟩ := h.replaces hc
  have hanswer := h.memory.2 k c hk
  cases hget : s.memory.transformed.get? k with
  | none =>
      rw [hget] at hanswer
      obtain rfl : c = k := hanswer
      exact nomatch hget.symm.trans hcopy
  | some e =>
      rw [hget] at hanswer
      obtain rfl : c = e := hanswer
      exact horiginal k hget

/-- After a start no original handle is ever used again. The start puts the
master's answer in the place of every stored handle, and changes nothing else.
As long as nothing is added to the constraints or the arc index, each later
call about a constraint is about such an answer, whatever fails; so if the
master had copies of its constraints by then, the terms of those that have a
copy, and are none themselves, never change again. -/
theorem originals_retired :
    (∀ {μ : Type} [MasterProblem μ] {s t : Solve (Recorded μ)},
      start s = .ok () t →
        Started s t ∧ ∀ u, Undisturbed (fun _ _ => True) t u →
          u.problem.registry.handles = t.problem.registry.handles
            ∧ ∃ later, u.problem.master.calls = t.problem.master.calls ++ later
              ∧ ∀ x ∈ later, ∀ d, x.call.constraint? = some d →
                ∃ c, Replaces s t c d)
      ∧ ∀ {s t : Solve (Recorded (Failing MemoryMaster))} {c d : ConstraintId},
          start s = .ok () t → s.memory.transformed.get? c = some d →
          (∀ k, s.memory.transformed.get? k ≠ some c) →
          ∀ u, Undisturbed
              (fun m m' => m'.inner.terms? c = m.inner.terms? c) t u →
            u.memory.terms? c = s.memory.terms? c := by
  have hready : ∀ {μ : Type} [MasterProblem μ] {s t : Solve (Recorded μ)},
      Started s t →
      t.pricer.state ≠ .uninitialized := by
    intro μ _ s t hstarted
    rw [hstarted.ready]
    exact nofun
  refine ⟨?_, ?_⟩
  · intro μ _ s t hstart
    have hstarted := started hstart
    refine ⟨hstarted, fun u hu => ?_⟩
    obtain ⟨-, hconfined⟩ := hu.confined (hready hstarted)
    obtain ⟨later, hcalls, habout⟩ := hconfined.calls
    exact ⟨hconfined.handles, later, hcalls,
      fun x hx d hd => hstarted.replaces (habout x hx d hd)⟩
  · intro s t c d hstart hcopy horiginal u hu
    have hstarted := started hstart
    have hkept :=
      hu.view_eq (Failing.guards (MemoryMaster.guards_terms c))
        (hready hstarted)
      (hstarted.not_mem_handles hcopy horiginal)
    exact hkept.trans (congrArg (·.terms? c) hstarted.memory.1)

/-- Two constraints and their copies: a round reads the copies, and its column
is entered in them alone. -/
theorem originals_retired_sample :
    ∃ (s t u : Solve (Recorded (Failing MemoryMaster)))
      (later : List RecordedCall),
      start s = .ok () t ∧ Started s t
        ∧ s.problem.registry.handles = [⟨0⟩, ⟨1⟩, ⟨0⟩, ⟨1⟩]
        ∧ u.problem.registry.handles = [⟨2⟩, ⟨3⟩, ⟨2⟩, ⟨3⟩]
        ∧ u.problem.master.calls = t.problem.master.calls ++ later
        ∧ later.filterMap (·.call.constraint?) = [⟨2⟩, ⟨3⟩, ⟨2⟩, ⟨3⟩]
        ∧ (∀ x ∈ later, ∀ d, x.call.constraint? = some d →
          ∃ c, Replaces s t c d)
        ∧ u.memory.terms? ⟨0⟩ = s.memory.terms? ⟨0⟩
        ∧ s.memory.terms? ⟨2⟩ = some []
        ∧ (u.memory.terms? ⟨2⟩).map List.length = some 1 := by
  have hrun : Session.passes [Session.sampleDescription] []
      ({ inner := { inner := Setup.sampleMaster } } : Recorded
        (Failing MemoryMaster))
      (fun m =>
        { m with inner := { m.inner with inner := m.inner.inner.transform } })
      (fun q t =>
        let memory := q.master.inner.inner.transform
        let u := (price .reducedCost).after
          (t.withInner (sampleInner none t.problem.master.inner))
        decide (q.registry.handles = [⟨0⟩, ⟨1⟩, ⟨0⟩, ⟨1⟩])
          && decide (t.problem.registry.handles = [⟨2⟩, ⟨3⟩, ⟨2⟩, ⟨3⟩])
          && decide (memory.transformed.entries = [(⟨0⟩, ⟨2⟩), (⟨1⟩, ⟨3⟩)])
          && decide ((u.problem.master.calls.drop
            t.problem.master.calls.length).filterMap
            (·.call.constraint?) = [⟨2⟩, ⟨3⟩, ⟨2⟩, ⟨3⟩])
          && decide (memory.terms? ⟨2⟩ = some [])
          && decide ((u.memory.terms? ⟨2⟩).map List.length = some 1))
            = true := by
    decide +kernel
  obtain ⟨q, t, hsession, hrun⟩ := Session.exists_of_passes hrun
  simp only [Bool.and_eq_true, decide_eq_true_iff] at hrun
  obtain ⟨⟨⟨⟨⟨hbefore, hafter⟩, hcopies⟩, habout⟩, hempty⟩, hone⟩ := hrun
  obtain ⟨hstarted, hlater⟩ := originals_retired.1 hsession.start
  obtain ⟨hsame, later, hcalls, hreplaces⟩ := hlater _
    ((Undisturbed.refl.master (sampleInner none t.problem.master.inner)
      trivial).round .reducedCost)
  have hkept := originals_retired.2 (c := ⟨0⟩) (d := ⟨2⟩) hsession.start
    (by
      show Table.find _ q.master.inner.inner.transform.transformed.entries = _
      rw [hcopies]
      rfl)
    (by
      intro k hk
      have hentry : (k, _)
          ∈ q.master.inner.inner.transform.transformed.entries :=
        Table.mem_of_find hk
      rw [hcopies] at hentry
      simp at hentry) _
    ((Undisturbed.refl.master (sampleInner none t.problem.master.inner)
      rfl).round .reducedCost)
  rw [hcalls, List.drop_left] at habout
  exact ⟨_, t, _, later, hsession.start, hstarted, hbefore, hsame.trans hafter,
    hcalls, habout, hreplaces, hkept, hempty, hone⟩

end Solve

end FlowPricing
