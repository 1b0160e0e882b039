/-
Starts that fail, and starts that are tried again. A start asks the master for
the handles one after another and puts each answer in its place at once. If it
gets none it ends there and takes nothing back: the answers before stand where
they were put, the rest is as it was, and the pricer has not begun
(`Solve.Stalled`). The next start asks about the answers of the one before it,
so a handle is replaced as often as it was reached (`Registry.Replaced`).

A start after others that failed leaves what a first one would have left if
and only if replacing a handle that often comes to the same as replacing it
once: for instance, if the master answers for each of its answers with that
answer itself (`Solve.start_retried`).
-/
import FlowPricing.Proofs.Pricing.Replacement

namespace FlowPricing

/-- A list is known by two views of its elements that together tell them
apart, the first shown in parts of the length that the second fixes. -/
theorem eq_of_keys {α γ δ : Type} {key : α → List γ} {rest : α → δ}
    (hlength : ∀ a b, rest a = rest b → (key a).length = (key b).length)
    (hone : ∀ a b, rest a = rest b → key a = key b → a = b) {as bs : List α}
    (hrest : as.map rest = bs.map rest)
    (hkeys : as.flatMap key = bs.flatMap key) : as = bs := by
  induction as generalizing bs with
  | nil => exact (List.map_eq_nil_iff.1 hrest.symm).symm
  | cons a as ih =>
      obtain ⟨b, bs, rfl, hab, hothers⟩ := List.map_eq_cons_iff.1 hrest.symm
      rw [List.flatMap_cons, List.flatMap_cons] at hkeys
      obtain ⟨hkey, hkeys⟩ := List.append_inj hkeys (hlength a b hab.symm)
      rw [hone a b hab.symm hkey, ih hothers.symm hkeys]

namespace Registry

-- =================================================== handles and the rest

section Handles

variable {r r' : Registry} {f : ConstraintId → ConstraintId}

/-- Renaming renames every handle in store. -/
theorem handles_renamed : (r.renamed f).handles = r.handles.map f := by
  unfold handles renamed
  rw [List.map_append, List.map_map, List.map_map, List.flatMap_map,
    List.map_flatMap]
  simp only [List.map_map]
  rfl

theorem shape_renamed : (r.renamed f).shape = r.shape := by
  unfold shape renamed
  simp only [List.map_map, Function.comp_def]
  rfl

/-- Things that have the same handles and agree in the rest are the same. -/
theorem eq_of_map_handle {τ : Type} {handle : τ → ConstraintId}
    (put : τ → ConstraintId → τ) {xs ys : List τ}
    (hrest : xs.map (put · default) = ys.map (put · default))
    (hhandles : xs.map handle = ys.map handle)
    (hput : ∀ x, put x (handle x) = x)
    (htwice : ∀ x d d', put (put x d) d' = put x d') : xs = ys := by
  rw [List.map_eq_flatMap, List.map_eq_flatMap] at hhandles
  refine eq_of_keys (fun _ _ _ => rfl) ?_ hrest hhandles
  intro x y hrest hhandle
  calc
    x = put (put x default) (handle x) := by rw [htwice, hput]
    _ = put (put y default) (handle y) := by
      rw [hrest, (List.cons.inj hhandle).1]
    _ = y := by rw [htwice, hput]

/-- A registry is known by its handles and all the rest of it. -/
theorem eq_of_handles (hshape : r.shape = r'.shape)
    (hhandles : r.handles = r'.handles) :
    r = r' := by
  obtain ⟨cs, networks, ⟨es⟩, fields, columns⟩ := r
  obtain ⟨cs', networks', ⟨es'⟩, fields', columns'⟩ := r'
  obtain ⟨hconstraints, rfl, hindex, rfl, rfl⟩ := Registry.mk.inj hshape
  have hlength : (cs.map Constraint.handle).length
      = (cs'.map Constraint.handle).length := by
    simpa using congrArg List.length hconstraints
  -- both lists of handles split where the constraints end
  obtain ⟨hlist, hentries⟩ := List.append_inj hhandles hlength
  obtain rfl : cs = cs' :=
    eq_of_map_handle (fun c d => { c with handle := d }) hconstraints hlist
      (fun _ => rfl) fun _ _ _ => rfl
  obtain rfl : es = es' := by
    refine eq_of_keys ?_ ?_ (Table.mk.inj hindex) hentries
    · intro x y hrest
      simpa using congrArg List.length (Prod.mk.inj hrest).2
    · intro x y hrest hhandles
      exact Prod.ext (Prod.mk.inj hrest).1
        (eq_of_map_handle (fun e d => { e with handle := d })
          (Prod.mk.inj hrest).2 hhandles (fun _ => rfl) fun _ _ _ => rfl)
  rfl

end Handles

-- ================================================ replacing that breaks

section Replacing

variable {ε σ : Type} {g : ConstraintId → Action ε σ ConstraintId}
  {r r' : Registry} {s t : σ} {e : ε}

/-- A handle that fails to be replaced stays. -/
theorem remapHandle_eq_error {c d : ConstraintId} :
    remapHandle g (c, s) = .error e (d, t) ↔ g c s = .error e t ∧ d = c := by
  unfold remapHandle
  rw [Action.get_bind, Action.bind_eq_error, Action.focus_eq_error]
  constructor
  · intro h
    rcases h with ⟨w, hw, hput⟩ | ⟨x, y, -, hmodify⟩
    · cases hput
      exact ⟨hw, rfl⟩
    · exact absurd hmodify Action.modify_ne_error
  · intro h
    obtain ⟨hg, rfl⟩ := h
    exact .inl ⟨t, hg, rfl⟩

/-- Of things with handles the first that gets no answer stays as it is, and
so do those after it. -/
theorem each_rehandle_breaks {τ δ : Type} {handle : τ → ConstraintId}
    {put : τ → ConstraintId → τ} {xs ys : List τ}
    (h : (rehandle handle put g).each (xs, s) = .error e (ys, t))
    (hhandle : ∀ x d, handle (put x d) = d) (hput : ∀ x, put x (handle x) = x)
    (rest : τ → δ) (hrest : ∀ x d, rest (put x d) = rest x) :
    Action.Breaks g (xs.map handle) s e (ys.map handle) t
      ∧ ys.map rest = xs.map rest := by
  rw [List.map_eq_flatMap, List.map_eq_flatMap]
  refine Action.each_breaks ?_ ?_ h
  · intro x s _ y t hone
    obtain ⟨d, hd, rfl⟩ := exists_of_rehandle hone
    rw [hhandle]
    exact ⟨mapM_singleton_of_ok hd, hrest x d⟩
  · intro x s e y t hone
    obtain ⟨⟨d, t'⟩, hd, hxy⟩ := Action.focus_eq_error.1 hone
    obtain ⟨hg, rfl⟩ := remapHandle_eq_error.1 hd
    obtain ⟨rfl, rfl⟩ := Prod.mk.inj hxy
    rw [hput x]
    exact ⟨⟨[], handle x, [], [], s, rfl, Action.mapM_nil_eq_ok.2 ⟨rfl, rfl⟩,
      hg, rfl⟩, rfl⟩

/-- The entries of an arc break off at the first handle that fails. -/
theorem replaceEntries_breaks {x y : Arc × List IndexEntry}
    (h : replaceEntries g (x, s) = .error e (y, t)) :
    Action.Breaks g (x.2.map IndexEntry.handle) s e
      (y.2.map IndexEntry.handle) t
      ∧ (y.1, y.2.map (·.rename fun _ => default))
        = (x.1, x.2.map (·.rename fun _ => default)) := by
  obtain ⟨⟨es, t'⟩, hentries, hput⟩ := Action.focus_eq_error.1 h
  cases hput
  obtain ⟨hhandles, hrest⟩ :=
    each_rehandle_breaks hentries (fun _ _ => rfl) (fun _ => rfl)
    (·.rename fun _ => default) fun _ _ => rfl
  exact ⟨hhandles, congrArg (Prod.mk x.1) hrest⟩

/-- If the constraints fail to be replaced, nothing but their list has
changed. -/
theorem each_of_failed_remapConstraints
    (h : remapConstraints g (r, s) = .error e (r', t)) :
    ∃ cs, (replaceConstraint g).each (r.constraints, s) = .error e (cs, t)
      ∧ r' = { r with constraints := cs } := by
  rcases Action.bind_eq_error.1 h with hfocus | ⟨_, _, -, hpure⟩
  · obtain ⟨⟨cs, t'⟩, heach, hput⟩ := Action.focus_eq_error.1 hfocus
    cases hput
    exact ⟨cs, heach, rfl⟩
  · exact absurd hpure Action.pure_ne_error

/-- If the index fails to be replaced, nothing but the index has changed. -/
theorem each_of_failed_remapIndex (h : remapIndex g (r, s) = .error e (r', t)) :
    ∃ es, (replaceEntries g).each (r.index.entries, s) = .error e (es, t)
      ∧ r' = { r with index := ⟨es⟩ } := by
  rcases Action.bind_eq_error.1 h with hfocus | ⟨_, _, -, hpure⟩
  · obtain ⟨⟨es, t'⟩, heach, hput⟩ := Action.focus_eq_error.1 hfocus
    cases hput
    exact ⟨es, heach, rfl⟩
  · exact absurd hpure Action.pure_ne_error

/-- The constraint list breaks off at the first handle that fails. -/
theorem remapConstraints_breaks
    (h : remapConstraints g (r, s) = .error e (r', t)) :
    Action.Breaks g (r.constraints.map Constraint.handle) s e
        (r'.constraints.map Constraint.handle) t
      ∧ r'.index = r.index ∧ r'.shape = r.shape := by
  obtain ⟨cs, heach, rfl⟩ := each_of_failed_remapConstraints h
  obtain ⟨hhandles, hrest⟩ :=
    each_rehandle_breaks heach (fun _ _ => rfl) (fun _ => rfl)
    (·.rename fun _ => default) fun _ _ => rfl
  refine ⟨hhandles, rfl, ?_⟩
  unfold shape renamed
  rw [hrest]

/-- So does the index. -/
theorem remapIndex_breaks (h : remapIndex g (r, s) = .error e (r', t)) :
    Action.Breaks g (r.index.entries.flatMap fun e =>
      e.2.map IndexEntry.handle) s e
        (r'.index.entries.flatMap fun e => e.2.map IndexEntry.handle) t
      ∧ r'.constraints = r.constraints ∧ r'.shape = r.shape := by
  obtain ⟨es, heach, rfl⟩ := each_of_failed_remapIndex h
  obtain ⟨hhandles, hrest⟩ :=
    Action.each_breaks (fun _ _ _ _ _ => replaceEntries_handles)
    (fun _ _ _ _ _ => replaceEntries_breaks) heach
  refine ⟨hhandles, rfl, ?_⟩
  unfold shape renamed
  rw [hrest]

/-- The handles are asked for in their order until one gets no answer. Those
before it are replaced, and nothing else is changed. -/
theorem remap_breaks (h : remap g (r, s) = .error e (r', t)) :
    Action.Breaks g r.handles s e r'.handles t ∧ r'.shape = r.shape := by
  unfold handles
  rcases Action.bind_eq_error.1 h with h | ⟨_, ⟨r₁, s₁⟩, hok, h⟩
  · obtain ⟨hbreaks, hindex, hshape⟩ := remapConstraints_breaks h
    rw [hindex]
    exact ⟨hbreaks.before _, hshape⟩
  · obtain ⟨hfirst, hindex, hshape₁⟩ := remapConstraints_handles hok
    obtain ⟨hbreaks, hconstraints, hshape₂⟩ := remapIndex_breaks h
    rw [hconstraints, ← hindex]
    exact ⟨hbreaks.behind hfirst, hshape₂.trans hshape₁⟩

/-- All answers that a master gives are its answers to what it is asked. -/
theorem Answers.mapM_eq {f : ConstraintId → ConstraintId} (hf : Answers g f s)
    {ks answers : List ConstraintId} (h : ks.mapM g s = .ok answers t) :
    answers = ks.map f := by
  obtain ⟨P, hs, hP⟩ := hf
  have hone : ∀ s c d t, P s → g c s = .ok d t → f c = d ∧ P t := by
    intro s c d t hs hok
    obtain ⟨hd, ht⟩ := hP s c d t hs hok
    exact ⟨hd.symm, ht⟩
  obtain ⟨hall, -⟩ := Action.forall₂_of_mapM hone hs h
  exact (List.forall₂_eq_eq_eq ▸ List.forall₂_map_left_iff.2 hall : ks.map f
    = answers).symm

end Replacing

-- ============================================ how often it was replaced

/-- `r'` is `r` with the handle at every place replaced as often as `counts`
says. -/
structure Replaced (f : ConstraintId → ConstraintId) (counts : Nat → Nat)
    (r r' : Registry) :
    Prop where
  shape : r'.shape = r.shape
  handles : r'.handles = r.handles.mapIdx fun i h => f^[counts i] h

section Replaced

variable {f : ConstraintId → ConstraintId} {counts counts' : Nat → Nat}
  {r r' r'' : Registry}

theorem replaced_zero (f : ConstraintId → ConstraintId) (r : Registry) :
    Replaced f (fun _ => 0) r r := by
  refine ⟨rfl, List.ext_getElem ?_ ?_⟩ <;> simp

theorem replaced_one (f : ConstraintId → ConstraintId) (r : Registry) :
    Replaced f (fun _ => 1) r (r.renamed f) := by
  refine ⟨shape_renamed, ?_⟩
  rw [handles_renamed]
  apply List.ext_getElem <;> simp

/-- Replacements that follow one another add up. -/
theorem Replaced.trans (h : Replaced f counts r r')
    (h' : Replaced f counts' r' r'') :
    Replaced f (fun i => counts' i + counts i) r r'' := by
  refine ⟨h'.shape.trans h.shape, ?_⟩
  rw [h'.handles, h.handles, List.mapIdx_mapIdx]
  congr 1
  funext i c
  exact (Function.iterate_add_apply f _ _ c).symm

/-- Replaced differently often, registries are the same if every handle has
become the same. -/
theorem Replaced.eq_iff (h : Replaced f counts r r')
    (h' : Replaced f counts' r r'') :
    r' = r'' ↔ ∀ i (hi : i < r.handles.length),
      f^[counts i] r.handles[i] = f^[counts' i] r.handles[i] := by
  -- all but the handles is that of `r` on both sides
  rw [← List.mapIdx_eq_mapIdx_iff, ← h.handles, ← h'.handles]
  constructor
  · intro heq
    rw [heq]
  · exact eq_of_handles (h.shape.trans h'.shape.symm)

/-- A run that breaks has replaced the handles before a place once, and
nothing from there on. -/
theorem Answers.replaced {ε σ : Type}
    {g : ConstraintId → Action ε σ ConstraintId} {s t : σ} {e : ε}
    (hf : Answers g f s) (h : remap g (r, s) = .error e (r', t)) :
    ∃ n < r.handles.length,
      Replaced f (fun i => if i < n then 1 else 0) r r' := by
  obtain ⟨⟨done, k, rest, answers, u, hhandles, hdone, -, hreplaced⟩, hshape⟩ :=
    remap_breaks h
  obtain rfl := hf.mapM_eq hdone
  refine ⟨done.length, ?_, hshape, ?_⟩
  · rw [hhandles]
    simp
  · rw [hreplaced, hhandles, List.mapIdx_append]
    congr 1
    · refine List.ext_getElem (by simp) fun i hi hi' => ?_
      have hlt : i < done.length := by simpa using hi
      simp [hlt]
    · refine List.ext_getElem (by simp) fun i _ _ => ?_
      rw [List.getElem_mapIdx]
      simp

end Replaced

end Registry

-- ================================================================ starts

/-- A master that may fail answers as the one behind it. -/
theorem Failing.answers {μ : Type} [MasterProblem μ]
    {f : ConstraintId → ConstraintId} {m : Failing μ}
    (h : Registry.Answers MasterProblem.transformedConstraint f m.inner) :
    Registry.Answers MasterProblem.transformedConstraint f m := by
  obtain ⟨P, hm, hP⟩ := h
  refine ⟨fun x => P x.inner, hm, ?_⟩
  intro m₁ c d m₂ h₁ hok
  exact hP m₁.inner c d m₂.inner h₁ (call_inner hok)

namespace Solve

variable {μ : Type}

/-- The solve with another master. -/
def withMaster (s : Solve μ) (m : μ) : Solve μ :=
  { s with problem := { s.problem with master := m } }

variable [MasterProblem μ] {f : ConstraintId → ConstraintId} {s t u : Solve μ}
  {e : PricingError}

/-- What a start has done that failed. The master has answered for some of the
stored handles and failed at the next. The answers are in their places;
nothing else has changed but the master. -/
structure Stalled (s t : Solve μ) (e : PricingError) : Prop where
  asked : ∃ e', e = .master e'
    ∧ Action.Breaks MasterProblem.transformedConstraint
      s.problem.registry.handles
        s.problem.master e' t.problem.registry.handles t.problem.master
  shape : t.problem.registry.shape = s.problem.registry.shape
  pricer : t.pricer = s.pricer

/-- A start that fails has failed with the replacement of handles. -/
theorem remap_of_start_eq_error (hs : s.pricer.state = .uninitialized)
    (h : start s = .error e t) :
    ∃ e' r m, e = .master e' ∧ t = { s with problem := ⟨r, m⟩ }
      ∧ Registry.remap MasterProblem.transformedConstraint
          (s.problem.registry, s.problem.master) = .error e' (r, m) := by
  have hpass : require .start (· == .uninitialized) s = .ok () s :=
    require_eq_ok.2 ⟨by simp [hs], rfl⟩
  rcases Action.bind_eq_error.1 h with hrefused | ⟨_, s₁, hrequire, h⟩
  · exact nomatch hpass.symm.trans hrefused
  obtain ⟨-, rfl⟩ := require_eq_ok.1 hrequire
  rcases Action.bind_eq_error.1 h with hproblem | ⟨_, _, -, hmodify⟩
  · obtain ⟨p, hp, rfl⟩ := Action.focus_eq_error.1 hproblem
    obtain ⟨⟨r, m⟩, hboth, rfl⟩ := Action.focus_eq_error.1 hp
    obtain ⟨e', hremap, rfl⟩ := Action.mapError_eq_error.1 hboth
    exact ⟨e', r, m, rfl, rfl, hremap⟩
  · exact absurd hmodify Action.modify_ne_error

/-- Such a start leaves the pricer as new, and the handles before the
failure replaced. -/
theorem stalled (hs : s.pricer.state = .uninitialized)
    (h : start s = .error e t) :
    Stalled s t e := by
  obtain ⟨e', r, m, rfl, rfl, hremap⟩ := remap_of_start_eq_error hs h
  obtain ⟨hbreaks, hshape⟩ := Registry.remap_breaks hremap
  exact ⟨⟨e', rfl, hbreaks⟩, hshape, rfl⟩

/-- The start of a new pricer fails exactly if the master, asked for one
handle after another, fails. -/
theorem start_fails_iff (hs : s.pricer.state = .uninitialized) :
    (∃ e t, start s = .error e t)
      ↔ ∃ e m, s.problem.registry.handles.mapM
        MasterProblem.transformedConstraint
          s.problem.master = .error e m := by
  constructor
  · intro h
    obtain ⟨e, t, hfails⟩ := h
    obtain ⟨e', -, done, k, rest, answers, m, hhandles, hdone, hk, -⟩ :=
      (stalled hs hfails).asked
    exact ⟨e', t.problem.master, Action.mapM_eq_error.2
      ⟨done, k, rest, answers, m, hhandles, hdone, hk⟩⟩
  · intro h
    obtain ⟨e, m, hasked⟩ := h
    cases hstart : start s with
    | ok x t => exact nomatch hasked.symm.trans (started hstart).answered
    | error e t => exact ⟨e, t, rfl⟩

/-- After `n` starts that failed, each with a master that answers `f` where it
answers. Between them the master may have become another. -/
inductive Retried (f : ConstraintId → ConstraintId) (s : Solve μ) :
    Nat → Solve μ → Prop
  | none : Retried f s 0 s
  | again {n : Nat} {t u : Solve μ} {e : PricingError} (m : μ)
      (h : Retried f s n t)
      (hm : Registry.Answers MasterProblem.transformedConstraint f m)
      (hfails : start (t.withMaster m) = .error e u) : Retried f s (n + 1) u

/-- How many of the starts that replaced the first handles, `passed` says how
many, got past the place `i`. -/
def reached (passed : List Nat) (i : Nat) : Nat := passed.countP (i < ·)

/-- The places reached are counted start by start. -/
theorem reached_cons (k : Nat) (passed : List Nat) :
    reached (k :: passed) = fun i =>
      (if i < k then 1 else 0) + reached passed i := by
  funext i
  simp [reached, List.countP_cons, Nat.add_comm]

/-- Each of the starts has replaced the handles before some place once more,
and left the pricer as it was. -/
theorem Retried.replaced (hs : s.pricer.state = .uninitialized) {n : Nat}
    (h : Retried f s n t) :
    t.pricer = s.pricer ∧ ∃ passed : List Nat, passed.length = n
      ∧ (∀ k ∈ passed, k < s.problem.registry.handles.length)
      ∧ Registry.Replaced f (reached passed) s.problem.registry
        t.problem.registry := by
  induction h with
  | none => exact ⟨rfl, [], rfl, nofun, Registry.replaced_zero f _⟩
  | @again n t u e m h hm hfails ih =>
      obtain ⟨hpricer, passed, hlength, hpassed, hreplaced⟩ := ih
      have ht : (t.withMaster m).pricer.state = .uninitialized := hpricer ▸ hs
      obtain ⟨e', r, m', rfl, rfl, hremap⟩ := remap_of_start_eq_error ht hfails
      -- the last start asked about the handles that those before it left
      obtain ⟨k, hk, hlast⟩ := hm.replaced hremap
      refine ⟨hpricer, k :: passed, congrArg (· + 1) hlength, ?_, ?_⟩
      · have hsame : t.problem.registry.handles.length
            = s.problem.registry.handles.length := by
          rw [hreplaced.handles, List.length_mapIdx]
        exact List.forall_mem_cons.2 ⟨hsame ▸ hk, hpassed⟩
      · rw [reached_cons]
        exact hreplaced.trans hlast

/-- Replacing a handle again changes nothing if `f` answers for its answer with
that answer. -/
theorem iterate_succ_eq {c : ConstraintId} (h : f (f c) = f c) (n : Nat) :
    f^[n + 1] c = f c := by
  induction n with
  | zero => rfl
  | succ n ih => rw [Function.iterate_succ_apply', ih, h]

/-- A start fails exactly if the master fails when it is asked for the stored
handles one after another. It has put the answers before that in their places,
in the list of constraints and in the arc index, and nothing else has changed
but the master.

So a start after others that failed, with masters that answer `f`, has
replaced the handle in each place once, and once more for every start before
it that got past this place. It leaves what a first one would have left if
and only if that comes to the same for every handle; it does, whatever failed
before, if `f` answers for its answers to the stored handles with those
answers. -/
theorem start_retried {μ : Type} [MasterProblem μ] {s : Solve μ}
    (hs : s.pricer.state = .uninitialized) :
    ((∃ e t, start s = .error e t)
        ↔ ∃ e m, s.problem.registry.handles.mapM
          MasterProblem.transformedConstraint
            s.problem.master = .error e m)
      ∧ (∀ e t, start s = .error e t → Stalled s t e)
      ∧ ∀ (f : ConstraintId → ConstraintId) (n : Nat) (t : Solve μ),
        Retried f s n t →
          t.pricer = s.pricer
            ∧ ∃ passed : List Nat, passed.length = n
              ∧ (∀ k ∈ passed, k < s.problem.registry.handles.length)
              ∧ Registry.Replaced f (reached passed) s.problem.registry
                t.problem.registry
              ∧ (t.problem.registry = s.problem.registry
                  ↔ ∀ i (hi : i < s.problem.registry.handles.length),
                      f^[reached passed i] s.problem.registry.handles[i]
                        = s.problem.registry.handles[i])
              ∧ ∀ (m m' : μ) (u v : Solve μ),
                  Registry.Answers MasterProblem.transformedConstraint f m →
                  Registry.Answers MasterProblem.transformedConstraint f m' →
                  start (t.withMaster m) = .ok () u →
                    start (s.withMaster m') = .ok () v →
                  u.pricer = v.pricer
                    ∧ Registry.Replaced f (fun i => reached passed i + 1)
                      s.problem.registry
                        u.problem.registry
                    ∧ Registry.Replaced f (fun _ => 1) s.problem.registry
                      v.problem.registry
                    ∧ (u.problem.registry = v.problem.registry
                        ↔ ∀ i (hi : i < s.problem.registry.handles.length),
                            f^[reached passed i + 1]
                              s.problem.registry.handles[i]
                              = f s.problem.registry.handles[i])
                    ∧ ((∀ c ∈ s.problem.registry.handles, f (f c) = f c) →
                        u.problem.registry = v.problem.registry) := by
  refine ⟨start_fails_iff hs, fun e t => stalled hs, ?_⟩
  intro f n t hretried
  obtain ⟨hpricer, passed, hlength, hpassed, hreplaced⟩ := hretried.replaced hs
  refine ⟨hpricer, passed, hlength, hpassed, hreplaced,
    hreplaced.eq_iff (Registry.replaced_zero f _), ?_⟩
  intro m m' u v hm hm' hu hv
  obtain ⟨hregistry, hpricer_u⟩ := start_renames hm hu
  obtain ⟨hregistry', hpricer_v⟩ := start_renames hm' hv
  have hfirst : Registry.Replaced f (fun _ => 1) s.problem.registry
      v.problem.registry :=
    hregistry' ▸ Registry.replaced_one f _
  have hagain : Registry.Replaced f (fun i => reached passed i + 1)
      s.problem.registry
      u.problem.registry := by
    have hboth := hreplaced.trans (Registry.replaced_one f t.problem.registry)
    rw [hregistry]
    simpa only [Nat.add_comm, withMaster] using hboth
  have hsame := hagain.eq_iff hfirst
  refine ⟨?_, hagain, hfirst, hsame, fun hf => ?_⟩
  · rw [hpricer_u, hpricer_v]
    exact congrArg (fun p : Pricer => { p with state := .ready }) hpricer
  · exact hsame.2 fun i hi => iterate_succ_eq (hf _ (List.getElem_mem hi)) _

-- =============================================================== samples

/-- The arc in which both constraints are entered. -/
def sampleEntryArc : Arc :=
  ⟨⟨0, 0, -2, -1, 0, false, 0⟩, ⟨0, 0, 35, -1, 0, false, 0⟩⟩

/-- A solve with two constraints, not yet started. Its master has the given
copies, and fails once it has answered for so many handles. -/
def sampleUnstarted (copies : List (ConstraintId × ConstraintId))
    (answered : Nat) :
    Solve (Failing MemoryMaster) :=
  Setup.solveOf
    { registry :=
        { constraints := [⟨⟨0⟩, [(sampleEntryArc, 1.0)]⟩,
          ⟨⟨1⟩, [(sampleEntryArc, 2.0)]⟩]
          index := ⟨[(sampleEntryArc, [⟨⟨0⟩, 1.0⟩, ⟨⟨1⟩, 2.0⟩])]⟩ }
      master :=
        { inner := { Setup.sampleMaster.transform with transformed := ⟨copies⟩ }
          injection := some ⟨.transformedConstraint, answered⟩ } }

/-- The master of a solve when it does not fail any more. -/
def recovered (s : Solve (Failing MemoryMaster)) : Failing MemoryMaster :=
  { s.problem.master with injection := none }

/-- Both constraints have copies; the start fails at the very last handle. -/
def sampleCopied : Solve (Failing MemoryMaster) :=
  sampleUnstarted [(⟨0⟩, ⟨2⟩), (⟨1⟩, ⟨3⟩)] 3

/-- The copies have no copies, so nothing tells in the end that there was a
start that failed. -/
theorem start_retried_sample :
    ∃ (t u v : Solve (Failing MemoryMaster)) (e : PricingError),
      sampleCopied.pricer.state = .uninitialized
        ∧ start sampleCopied = .error e t
        ∧ Stalled sampleCopied t e
        ∧ sampleCopied.problem.registry.handles = [⟨0⟩, ⟨1⟩, ⟨0⟩, ⟨1⟩]
        ∧ t.problem.registry.handles = [⟨2⟩, ⟨3⟩, ⟨2⟩, ⟨1⟩]
        ∧ start (t.withMaster (recovered sampleCopied)) = .ok () u
        ∧ start (sampleCopied.withMaster (recovered sampleCopied)) = .ok () v
        ∧ u.problem.registry = v.problem.registry
        ∧ v.problem.registry.handles = [⟨2⟩, ⟨3⟩, ⟨2⟩, ⟨3⟩] := by
  have hanswers : ∀ m : Failing MemoryMaster,
      m.inner = sampleCopied.problem.master.inner →
      Registry.Answers MasterProblem.transformedConstraint
        (fun c =>
          (sampleCopied.problem.master.inner.transformed.get? c).getD c) m :=
    fun m hm =>
      Failing.answers
        (hm ▸ MemoryMaster.answers sampleCopied.problem.master.inner)
  obtain ⟨-, hstalled, hretried⟩ := start_retried (s := sampleCopied) rfl
  obtain ⟨-, passed, -, -, -, -, hlater⟩ :=
    hretried _ 1 _
      (.again sampleCopied.problem.master .none (hanswers _ rfl) rfl)
  obtain ⟨-, -, -, -, hsame⟩ :=
    hlater (recovered sampleCopied) (recovered sampleCopied) _ _
    (hanswers _ rfl) (hanswers _ rfl) rfl rfl
  exact ⟨_, _, _, _, rfl, rfl, hstalled _ _ rfl, rfl, rfl, rfl, rfl,
    hsame (by decide +kernel), rfl⟩

/-- One constraint has a copy, which has another; the start fails at the second
handle. -/
def sampleChained : Solve (Failing MemoryMaster) :=
  sampleUnstarted [(⟨0⟩, ⟨2⟩), (⟨2⟩, ⟨3⟩)] 1

/-- The start that failed has changed the list of constraints, and the next one
replaces the handle in there by the copy of the copy. In the arc index the
constraint goes by its copy. -/
theorem start_retried_differs :
    ∃ (t u v : Solve (Failing MemoryMaster)) (e : PricingError),
      sampleChained.pricer.state = .uninitialized
        ∧ start sampleChained = .error e t
        ∧ t.pricer.state = .uninitialized
        ∧ t.problem.registry.constraints
          ≠ sampleChained.problem.registry.constraints
        ∧ start (t.withMaster (recovered sampleChained)) = .ok () u
        ∧ start (sampleChained.withMaster (recovered sampleChained)) = .ok () v
        ∧ sampleChained.problem.registry.handles = [⟨0⟩, ⟨1⟩, ⟨0⟩, ⟨1⟩]
        ∧ t.problem.registry.handles = [⟨2⟩, ⟨1⟩, ⟨0⟩, ⟨1⟩]
        ∧ u.problem.registry.handles = [⟨3⟩, ⟨1⟩, ⟨2⟩, ⟨1⟩]
        ∧ v.problem.registry.handles = [⟨2⟩, ⟨1⟩, ⟨2⟩, ⟨1⟩]
        ∧ u.problem.registry ≠ v.problem.registry :=
  ⟨_, _, _, _, rfl, rfl, rfl, by decide +kernel, rfl, rfl, rfl, rfl, rfl,
    rfl, by decide +kernel⟩

end Solve

end FlowPricing
