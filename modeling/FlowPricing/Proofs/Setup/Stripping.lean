/-
What indexing does to a master in memory, exactly. It succeeds if and only if
the variables of the needed constraints are readable and the injected failure
lets its calls through, and then it makes these calls, prunes the model and
registers what there is to gain (`runs_indexConstraints`).

The loop works on a model that changes under it. It is enough that a
constraint is changed in its own turn only, and that the terms are walked on
a copy while all terms of a variable are taken out at its first one.

Since the statement goes both ways, it also answers what happens to a model
that has been indexed before.
-/
import FlowPricing.Proofs.Registry.Transposition
import FlowPricing.Proofs.Setup.Pruning

namespace FlowPricing

-- ========================================================== registering

namespace Registry

/-- Registers a constraint and enters its terms. -/
def register (r : Registry) (c : Constraint) : Registry :=
  (r.addEntries c.handle c.arcs).addConstraint c

/-- Entries with further ones behind them. -/
def entered (o : Option (List IndexEntry)) (es : List IndexEntry) :
    Option (List IndexEntry) :=
  if es = [] then o else some (o.getD [] ++ es)

theorem entered_entered (o : Option (List IndexEntry))
    (es fs : List IndexEntry) :
    entered (entered o es) fs = entered o (es ++ fs) := by
  unfold entered
  by_cases hes : es = []
  · simp [hes]
  · by_cases hfs : fs = []
    · simp [hfs]
    · simp [hes, hfs]

/-- The entries of a constraint are added to those of its arcs. -/
theorem entriesOf_addEntries (r : Registry) (h : ConstraintId)
    (arcs : List (Arc × Float)) (a : Arc) :
    (r.addEntries h arcs).entriesOf a
      = entered (r.entriesOf a) ((Constraint.mk h arcs).entriesFor a) := by
  induction arcs generalizing r with
  | nil => rfl
  | cons e arcs ih =>
      have hfirst : (r.addEntry e.1 ⟨h, e.2⟩).entriesOf a
          = entered (r.entriesOf a) ((Constraint.mk h [e]).entriesFor a) := by
        show (r.index.insert e.1 _).get? a = _
        rw [Table.get?_insert]
        unfold Constraint.entriesFor entered entriesOf
        by_cases hea : e.1 = a
        · subst hea
          simp
        · simp [hea]
      have hsplit : (Constraint.mk h (e :: arcs)).entriesFor a
          = (Constraint.mk h [e]).entriesFor a
            ++ (Constraint.mk h arcs).entriesFor a := by
        unfold Constraint.entriesFor
        rw [← List.map_append, ← List.filter_append]
        rfl
      show ((r.addEntry e.1 ⟨h, e.2⟩).addEntries h arcs).entriesOf a = _
      rw [ih, hfirst, entered_entered, ← hsplit]

/-- Registering constraints adds them to the list, and changes the index
besides. -/
theorem foldl_register_eq (r : Registry) (cs : List Constraint) :
    ∃ index, cs.foldl register r
      = { r with constraints := r.constraints ++ cs, index } := by
  induction cs generalizing r with
  | nil => exact ⟨r.index, by simp⟩
  | cons c cs ih =>
      obtain ⟨index, hindex⟩ := r.addEntries_eq c.handle c.arcs
      obtain ⟨index', hrest⟩ := ih (r.register c)
      refine ⟨index', ?_⟩
      rw [List.foldl_cons, hrest]
      unfold register addConstraint
      rw [hindex]
      simp

/-- The entries of an arc gain those of the constraints, in their order. -/
theorem entriesOf_foldl_register (r : Registry)
    (cs : List Constraint) (a : Arc) :
    (cs.foldl register r).entriesOf a = entered (r.entriesOf a)
    (entriesFor cs a) := by
  induction cs generalizing r with
  | nil => rfl
  | cons c cs ih =>
      have hfirst : (r.register c).entriesOf a
          = entered (r.entriesOf a) (c.entriesFor a) :=
        entriesOf_addEntries r c.handle c.arcs a
      rw [List.foldl_cons, ih, hfirst, entered_entered]
      rfl

end Registry

namespace Setup

open MemoryMaster

variable {p q : Problem (Recorded (Failing MemoryMaster))}
  {unneeded : List String} {c : ConstraintId} {r : Row}

-- ================================================================ names

/-- One text occurs in another if it stands somewhere inside. -/
theorem occursIn_iff (part text : List Char) :
    occursIn part text = true ↔ part <:+: text := by
  induction text with
  | nil => rw [occursIn, List.isEmpty_iff, List.infix_nil]
  | cons c cs ih =>
      rw [occursIn, Bool.or_eq_true, List.isPrefixOf_iff_prefix, ih,
        List.infix_cons_iff]

/-- A constraint is unneeded if one of the texts occurs in its name. -/
theorem isUnneeded_iff (name : String) :
    isUnneeded unneeded name = true ↔ ∃ part ∈ unneeded,
      part.toList <:+: name.toList := by
  unfold isUnneeded
  simp only [List.any_eq_true, occursIn_iff]

-- =========================================================== the program

theorem toList_append_filterMap {α β : Type} (f : α → Option β) (a : α)
    (l : List α) :
    (f a).toList ++ l.filterMap f = (a :: l).filterMap f := by
  rw [List.filterMap_cons]
  cases f a <;> rfl

/-- Taking a term out does what the name of its variable says. -/
theorem runs_takeTerm {t : VariableId × Float}
    (hrow : p.memory.row? c = some r) :
    p.Runs (takeTerm c t) (Readable p.memory.columns t.1)
      (taken? p.memory.columns t) (termCalls p.memory.columns c t)
      (p.registry.addEntries c (taken? p.memory.columns t).toList)
      (p.memory.modifyRow c
        (.without ([t.1].filter (isPriced p.memory.columns)))) := by
  by_cases hreadable : Readable p.memory.columns t.1
  · have ⟨name, o, hname, harc⟩ := hreadable
    obtain ⟨x, hx, rfl⟩ := Option.map_eq_some_iff.1 hname
    have hsome := hreadable.isSome_arcOf?
    have harcOf := arcOf?_of_arc? hname harc
    rw [harcOf] at hsome
    unfold takeTerm taken? termCalls
    rw [harcOf, ← hsome, List.filter_cons, List.filter_nil, ← hsome]
    refine ((Problem.runs_variableName hx).then fun p₁ hr hm => ?_).congr
      (iff_of_true trivial hreadable)
    rw [harc, ← hr, ← hm]
    rw [← hm] at hrow
    cases o with
    | none =>
        show p₁.Runs (pure none) True none [] p₁.registry
          (p₁.memory.modifyRow c (.without []))
        rw [Row.without_nil, modifyRow_id]
        exact Problem.runs_pure none
    | some a =>
        refine (Problem.runs_modifyRegistry _).then fun p₂ hr₂ hm₂ => ?_
        rw [← hm₂] at hrow
        refine (Problem.runs_removeCoefficient hrow t.1).then
          fun p₃ hr₃ hm₃ => ?_
        show p₃.Runs (pure (some (a, t.2))) True (some (a, t.2)) []
          (p₁.registry.addEntry a ⟨c, t.2⟩)
            (p₁.memory.modifyRow c (.without [t.1]))
        rw [Row.without_singleton, ← hr₂, ← hr₃, ← hm₂, ← hm₃]
        exact Problem.runs_pure _
  · refine Problem.runs_of_ne ?_ hreadable
    intro o q h
    obtain ⟨name, p₁, hname, h⟩ := Action.bind_eq_ok.1 h
    obtain ⟨m, hm⟩ := Problem.exists_of_call (.variableName t.1) hname
    obtain ⟨-, x, hx, rfl⟩ := variableName_eq_ok hm
    cases harc : VariableName.arc? x.name with
    | ok o' => exact hreadable ⟨x.name, o', by simp [name?, hx], harc⟩
    | error e =>
        rw [harc] at h
        exact Action.throw_ne_ok h

/-- The terms of a constraint, one after another. -/
theorem runs_mapM_takeTerm (ts : List (VariableId × Float))
    (hrow : p.memory.row? c = some r) :
    p.Runs (ts.mapM (takeTerm c)) (∀ t ∈ ts, Readable p.memory.columns t.1)
      (ts.map (taken? p.memory.columns))
      (ts.flatMap (termCalls p.memory.columns c))
      (p.registry.addEntries c (ts.filterMap (taken? p.memory.columns)))
      (p.memory.modifyRow c
        (.without ((ts.map (·.1)).filter (isPriced p.memory.columns)))) := by
  induction ts generalizing p r with
  | nil =>
      show p.Runs (pure []) _ [] [] p.registry
        (p.memory.modifyRow c (.without []))
      rw [Row.without_nil, modifyRow_id]
      exact (Problem.runs_pure []).congr (by simp)
  | cons t ts ih =>
      rw [List.mapM_cons, List.flatMap_cons]
      refine ((runs_takeTerm hrow).bind
        (D := ∀ t ∈ ts, Readable p.memory.columns t.1)
        fun p₁ _ hr hm => ?_).congr (by rw [List.forall_mem_cons])
      have hcolumns : p₁.memory.columns = p.memory.columns :=
        congrArg (·.columns) hm
      -- the constraint is still there, without what was taken out
      have hrow₁ : p₁.memory.row? c
          = some (r.without ([t.1].filter (isPriced p.memory.columns))) := by
        rw [hm]
        exact row?_modifyRow hrow (row?_eq_some.1 hrow).2
      have hrest := (ih hrow₁).map (taken? p.memory.columns t :: ·)
      rw [hcolumns, hr, hm, modifyRow_modifyRow, ← Row.without_append,
        ← List.filter_append, Registry.addEntries_addEntries,
        toList_append_filterMap] at hrest
      exact hrest

/-- A constraint that is not needed is deleted, and nothing else happens. -/
theorem runs_indexConstraint_of_unneeded
    (hname : isUnneeded unneeded r.name = true)
    (hrow : p.memory.row? c = some r) :
    p.Runs (indexConstraint unneeded c) True false
      [.constraintName c, .deleteConstraint c]
      p.registry (p.memory.modifyRow c (pruned p.memory.columns unneeded)) := by
  unfold indexConstraint
  refine (Problem.runs_constraintName hrow).then fun p₁ hr hm => ?_
  rw [if_pos hname, ← hr, ← hm]
  rw [← hm] at hrow
  refine (Problem.runs_deleteConstraint hrow).then fun p₂ hr₂ hm₂ => ?_
  show p₂.Runs (pure false) True false [] p₁.registry _
  rw [modifyRow_congr (g := fun r => { r with deleted := true }) hrow
    (pruned_of_unneeded hname), ← hr₂, ← hm₂]
  exact Problem.runs_pure false

/-- A needed constraint is registered if terms of it were taken; there are
such terms if variables of it are priced. -/
theorem runs_indexConstraint_of_needed
    (hname : isUnneeded unneeded r.name = false)
    (hrow : p.memory.row? c = some r) :
    p.Runs (indexConstraint unneeded c)
      (∀ t ∈ r.terms, Readable p.memory.columns t.1)
      (gained? p.memory.columns unneeded (c, r)).isSome
      (indexCalls p.memory.columns unneeded (c, r))
      ((gained? p.memory.columns unneeded (c, r)).toList.foldl
        Registry.register p.registry)
      (p.memory.modifyRow c (pruned p.memory.columns unneeded)) := by
  unfold indexConstraint
  rw [gained?_of_needed hname, indexCalls_of_needed hname]
  refine (Problem.runs_constraintName hrow).then fun p₁ hr hm => ?_
  rw [hname, ← hr, ← hm]
  rw [← hm] at hrow
  refine (Problem.runs_constraintTerms hrow).then fun p₂ hr₂ hm₂ => ?_
  rw [← hr₂, ← hm₂]
  rw [← hm₂] at hrow
  refine ((runs_mapM_takeTerm r.terms hrow).bind
    fun p₃ hreadable hr₃ hm₃ => ?_).congr (iff_of_eq (and_true _))
  -- nothing taken and no variable priced is the same, once all can be read
  have harcs : (r.terms.map (taken? p₂.memory.columns)).filterMap id
      = r.terms.filterMap (taken? p₂.memory.columns) := by
    rw [List.filterMap_map, Function.id_comp]
  rw [harcs]
  have hempty := isEmpty_filterMap_taken? hreadable
  have hleft := modifyRow_pruned_of_needed hname hrow
  cases hany : r.terms.any fun t => isPriced p₂.memory.columns t.1 with
  | false =>
      rw [hany, Bool.not_false] at hempty
      have hregistry : p₂.registry = p₃.registry := by
        rw [hr₃, List.isEmpty_iff.1 hempty]
        rfl
      simp only [hempty, hleft, hany, ← hm₃, hregistry, if_true,
        Bool.false_eq_true, if_false]
      exact Problem.runs_pure false
  | true =>
      rw [hany, Bool.not_true] at hempty
      have hrow₃ : p₃.memory.row? c
          = some (r.without
            ((r.terms.map (·.1)).filter (isPriced p₂.memory.columns))) := by
        rw [hm₃]
        exact row?_modifyRow hrow (row?_eq_some.1 hrow).2
      simp only [hempty, hleft, hany, ← hm₃, if_true,
        Bool.false_eq_true, if_false]
      refine (Problem.runs_setModifiable hrow₃).then fun p₄ hr₄ hm₄ => ?_
      refine (Problem.runs_modifyRegistry _).then fun p₅ hr₅ hm₅ => ?_
      have hregistry : Registry.register p₂.registry
          ⟨c, r.terms.filterMap (taken? p₂.memory.columns)⟩ = p₅.registry := by
        rw [hr₅, hr₄, hr₃]
        rfl
      show p₅.Runs (pure true) True true [] (Registry.register _ _) _
      rw [hregistry, ← hm₄, ← hm₅]
      exact Problem.runs_pure true

/-- The constraint is decided by its name and its terms alone. -/
theorem runs_indexConstraint (hrow : p.memory.row? c = some r) :
    p.Runs (indexConstraint unneeded c) (Indexable p.memory.columns unneeded r)
      (gained? p.memory.columns unneeded (c, r)).isSome
      (indexCalls p.memory.columns unneeded (c, r))
      ((gained? p.memory.columns unneeded (c, r)).toList.foldl
        Registry.register p.registry)
      (p.memory.modifyRow c (pruned p.memory.columns unneeded)) := by
  cases hname : isUnneeded unneeded r.name with
  | true =>
      rw [gained?_of_unneeded hname, indexCalls_of_unneeded hname]
      exact (runs_indexConstraint_of_unneeded hname hrow).congr
        (iff_of_true trivial fun hneeded => nomatch hname.symm.trans hneeded)
  | false =>
      exact (runs_indexConstraint_of_needed hname hrow).congr
        ⟨fun h _ => h, fun h => h hname⟩

/-- Constraints are decided one by one: none of them meets one that another
has changed. -/
theorem runs_mapM_indexConstraint (unneeded : List String)
    (l : List (ConstraintId × Row)) (hnodup : (l.map (·.1)).Nodup)
    (hrows : ∀ e ∈ l, p.memory.row? e.1 = some e.2) :
    p.Runs ((l.map (·.1)).mapM (indexConstraint unneeded))
      (∀ e ∈ l, Indexable p.memory.columns unneeded e.2)
      (l.map fun e => (gained? p.memory.columns unneeded e).isSome)
      (l.flatMap (indexCalls p.memory.columns unneeded))
      ((l.filterMap (gained? p.memory.columns unneeded)).foldl
        Registry.register p.registry)
      ((l.map (·.1)).foldl (fun m c =>
        m.modifyRow c (pruned p.memory.columns unneeded)) p.memory) := by
  induction l generalizing p with
  | nil => exact (Problem.runs_pure []).congr (by simp)
  | cons e l ih =>
      obtain ⟨c, r⟩ := e
      rw [List.map_cons, List.mapM_cons, List.flatMap_cons]
      obtain ⟨hc, hnodup⟩ := List.nodup_cons.1 hnodup
      refine ((runs_indexConstraint (hrows (c, r) List.mem_cons_self)).bind
        (D := ∀ e ∈ l, Indexable p.memory.columns unneeded e.2)
        fun p₁ _ hr hm => ?_).congr (by rw [List.forall_mem_cons])
      have hcolumns : p₁.memory.columns = p.memory.columns :=
        congrArg (·.columns) hm
      -- those that follow have other handles, and are as they were
      have hrows₁ : ∀ e ∈ l, p₁.memory.row? e.1 = some e.2 := by
        intro e he
        have hne : c ≠ e.1 := fun heq => hc (List.mem_map.2 ⟨e, he, heq.symm⟩)
        rw [hm, row?_modifyRow_of_ne hne]
        exact hrows e (List.mem_cons_of_mem _ he)
      have hrest := (ih hnodup hrows₁).map
        ((gained? p.memory.columns unneeded (c, r)).isSome :: ·)
      rw [hcolumns, hr, hm, ← List.foldl_append,
        toList_append_filterMap] at hrest
      exact hrest

/-- What becomes of a model that is indexed, and when that goes well. -/
theorem runs_indexConstraints (hlen : p.memory.rows.length ≤ UInt32.size) :
    p.Runs (indexConstraints unneeded)
      (∀ e ∈ p.memory.liveRows, Indexable p.memory.columns unneeded e.2)
      (p.memory.gained unneeded).length
      (p.memory.liveRows.flatMap (indexCalls p.memory.columns unneeded))
      ((p.memory.gained unneeded).foldl Registry.register p.registry)
      (p.memory.stripped unneeded) := by
  have hwalk := runs_mapM_indexConstraint unneeded p.memory.liveRows
    (nodup_liveRows hlen) fun e he => (mem_liveRows hlen).1 he
  have hcount : (p.memory.liveRows.map
      fun e => (gained? p.memory.columns unneeded e).isSome).countP id
      = (p.memory.gained unneeded).length := by
    unfold gained
    rw [List.countP_map, List.length_filterMap_eq_countP]
    rfl
  rw [foldl_modifyRow_pruned hlen] at hwalk
  rw [← hcount]
  exact hwalk.map (List.countP id)

-- ============================================================== the law

variable {k : Nat}

/-- The calls made so far that are meant to change the master. -/
def mutations (p : Problem (Recorded (Failing MemoryMaster))) :
    List RecordedCall :=
  p.master.calls.filter (·.call.isMutating)

/-- A run adds its mutating calls to the record. -/
theorem mutations_of_ran {calls : List MasterCall} {r : Registry}
    {m : MemoryMaster} (h : p.Ran calls r m q) :
    mutations q = mutations p
      ++ Round.succeeded (calls.filter MasterCall.isMutating) := by
  unfold mutations
  rw [h.recorded, List.filter_append]
  unfold Round.succeeded
  rw [List.filter_map]
  rfl

/-- What indexing has done when it has gone well: from `p` it led to `q`, and
registered `k` constraints. -/
structure Stripped (unneeded : List String)
    (p q : Problem (Recorded (Failing MemoryMaster))) (k : Nat) : Prop where
  /-- Just those constraints are gone in whose name one of the texts occurs. -/
  deleted : ∀ c r, p.memory.row? c = some r →
    (q.memory.row? c = none ↔ ∃ part ∈ unneeded, part.toList <:+: r.name.toList)
  /-- Every other one keeps the terms of variables that take no part in
  pricing, and is open if it had others. -/
  kept : ∀ c r, p.memory.row? c = some r → q.memory.row? c ≠ none →
    q.memory.row? c = some
      { r with
        terms := r.terms.filter fun t => !isPriced p.memory.columns t.1
        modifiable := r.modifiable || r.terms.any fun t =>
          isPriced p.memory.columns t.1 }
  /-- That is all that happened to the master. -/
  memory : q.memory = p.memory.stripped unneeded
  /-- Each constraint was changed in its turn: deleted, or its pricing terms
  removed and, if there were any, opened. -/
  changes : mutations q = mutations p
    ++ Round.succeeded
      (p.memory.liveRows.flatMap (changes p.memory.columns unneeded))
  /-- Every pricing term of a constraint that is kept stands for an arc. -/
  decoded : ∀ c r, p.memory.row? c = some r → q.memory.row? c ≠ none →
    ∀ t ∈ r.terms, isPriced p.memory.columns t.1
      = (arcOf? p.memory.columns t.1).isSome
  /-- The kept constraints with pricing terms were registered with them. -/
  constraints : q.registry.constraints
    = p.registry.constraints ++ p.memory.gained unneeded
  /-- So were their entries in the arc index. -/
  entries : ∀ a, q.registry.entriesOf a
    = Registry.entered (p.registry.entriesOf a)
      (Registry.entriesFor (p.memory.gained unneeded) a)
  /-- Nothing else changed in the registry. -/
  others : q.registry
    = { p.registry with
        constraints := q.registry.constraints, index := q.registry.index }
  /-- A deleted constraint leaves no trace. -/
  silent : ∀ c r, p.memory.row? c = some r → q.memory.row? c = none →
    (∀ x ∈ p.memory.gained unneeded, x.handle ≠ c)
      ∧ ∀ a, ∀ e ∈ Registry.entriesFor (p.memory.gained unneeded) a,
        e.handle ≠ c
  count : k = (p.memory.gained unneeded).length

/-- What indexing has run is what stripping describes. -/
theorem stripped_of_runs (hlen : p.memory.rows.length ≤ UInt32.size)
    (h : indexConstraints unneeded p = .ok k q) : Stripped unneeded p q k := by
  obtain ⟨hindexable, hcount, hran⟩ := (runs_indexConstraints hlen k q).1 h
  have hmemory : q.memory = p.memory.stripped unneeded := hran.memory
  have hgone : ∀ c r, p.memory.row? c = some r →
      (q.memory.row? c = none ↔ isUnneeded unneeded r.name = true) := by
    intro c r hrow
    rw [hmemory, row?_stripped, hrow]
    simp
  have hneeded : ∀ c r, p.memory.row? c = some r → q.memory.row? c ≠ none →
      isUnneeded unneeded r.name = false := by
    intro c r hrow hkept
    rw [Ne, hgone c r hrow] at hkept
    exact Bool.eq_false_of_not_eq_true hkept
  have hsilent : ∀ c r, p.memory.row? c = some r → q.memory.row? c = none →
      ∀ x ∈ p.memory.gained unneeded, x.handle ≠ c := by
    intro c r hrow hnone x hx heq
    obtain ⟨⟨d, y⟩, hy, hgained⟩ := List.mem_filterMap.1 hx
    obtain ⟨hname, hhandle⟩ := gained?_eq_some hgained
    have hrow' := (mem_liveRows hlen).1 hy
    rw [← hhandle, heq, hrow] at hrow'
    rw [← Option.some.inj hrow', (hgone c r hrow).1 hnone] at hname
    exact nomatch hname
  obtain ⟨index, hregistry⟩ :=
    p.registry.foldl_register_eq (p.memory.gained unneeded)
  rw [← hran.registry] at hregistry
  refine
    { deleted := fun c r hrow => (hgone c r hrow).trans (isUnneeded_iff r.name)
      kept := ?_
      memory := hmemory
      changes := ?_
      decoded := fun c r hrow hkept t ht => ?_
      constraints := by rw [hregistry]
      entries := fun a => ?_
      others := by rw [hregistry]
      silent := fun c r hrow hnone => ⟨hsilent c r hrow hnone, ?_⟩
      count := hcount }
  · intro c r hrow hkept
    have hname := hneeded c r hrow hkept
    rw [hmemory, row?_stripped, hrow, ← pruned_of_needed hname]
    simp [hname]
  · rw [mutations_of_ran hran, List.filter_flatMap]
    simp only [filter_indexCalls]
  · have hlive := (mem_liveRows hlen).2 hrow
    have hreadable := hindexable (c, r) hlive (hneeded c r hrow hkept) t ht
    exact hreadable.isSome_arcOf?.symm
  · rw [hran.registry]
    exact Registry.entriesOf_foldl_register _ _ a
  · intro a e he
    obtain ⟨x, hx, he⟩ := List.mem_flatMap.1 he
    obtain ⟨t, -, rfl⟩ := List.mem_map.1 he
    exact hsilent c r hrow hnone x hx

/-- Indexed at once again, a stripped model stays as it is: unless a call fails
that has worked before, all goes well, and there is nothing to do. -/
theorem indexConstraints_again {left : Option Injection}
    (hlen : p.memory.rows.length ≤ UInt32.size)
    (hindexable : ∀ e ∈ p.memory.liveRows,
      Indexable p.memory.columns unneeded e.2)
    (hpassed : (p.memory.liveRows.flatMap
      (indexCalls p.memory.columns unneeded)).foldlM
      Injection.pass left = some q.injection)
    (hsteady : Injection.Steady left)
    (hmemory : q.memory = p.memory.stripped unneeded) :
    ∃ t, indexConstraints unneeded q = .ok 0 t ∧ t.registry = q.registry
      ∧ t.memory = q.memory
      ∧ mutations t = mutations q := by
  have hcolumns : q.memory.columns = p.memory.columns :=
    congrArg (·.columns) hmemory
  have hlen' : q.memory.rows.length ≤ UInt32.size := by
    rw [hmemory]
    exact (rows_stripped_length p.memory unneeded).le.trans hlen
  have hruns : q.Runs (indexConstraints unneeded) _ _ _ _ _ :=
    runs_indexConstraints hlen'
  rw [hcolumns, hmemory, gained_stripped hlen hindexable, stripped_stripped,
    ← hmemory] at hruns
  obtain ⟨t, ht⟩ :=
    Problem.exists_ran (hsteady.foldlM_pass_of_subset hpassed fun _ =>
    indexCalls_stripped hlen) q.registry q.memory
  rw [← hmemory] at ht
  refine ⟨t, (hruns 0 t).2 ⟨?_, rfl, ht⟩, ht.registry, ht.memory, ?_⟩
  · rw [hmemory]
    exact indexable_stripped hlen hindexable
  · rw [mutations_of_ran ht, hmemory, filter_indexCalls_stripped hlen]
    exact List.append_nil _

/-- Indexing strips exactly the pricing variables: whenever it goes well, it
has done what `Stripped` says. Doing it again at once finds nothing to do:
unless an operation fails that has worked before, it goes well, registers
nothing, and changes neither master nor registry. -/
theorem indexing_strips (hlen : p.memory.rows.length ≤ UInt32.size)
    (h : indexConstraints unneeded p = .ok k q) :
    Stripped unneeded p q k
      ∧ (Injection.Steady p.injection →
          ∃ t, indexConstraints unneeded q = .ok 0 t ∧ t.registry = q.registry
            ∧ t.memory = q.memory ∧ mutations t = mutations q) := by
  obtain ⟨hindexable, -, hran⟩ := (runs_indexConstraints hlen k q).1 h
  exact ⟨stripped_of_runs hlen h,
    fun hsteady =>
      indexConstraints_again hlen hindexable hran.passed hsteady hran.memory⟩

/-- A model with a variable that is twice in a constraint, a plain variable,
and a constraint to be deleted in which both are. -/
def sampleModel : Problem (Recorded (Failing MemoryMaster)) where
  registry := {}
  master := { inner := { inner := {
    rows := [
      { name := "cover_1", terms := [(⟨0⟩, 1.0), (⟨1⟩, 1.0), (⟨0⟩, 2.0)] },
      { name := "fixCurrent_3", terms := [(⟨0⟩, 1.0), (⟨1⟩, 1.0)] },
      { name := "plain", terms := [(⟨1⟩, 1.0)] }]
    columns := [
      { name := "y(0|0|neg2|neg1|0|false|0,0|0|35|neg1|0|false|0)",
        lower := 0.0, upper := 1.0, objective := 0.0, committed := true },
      { name := "x_slack", lower := 0.0, upper := 1.0, objective := 0.0,
        committed := true }] } } }

/-- One constraint is deleted and another one opened; a second indexing does
nothing. -/
theorem indexing_strips_sample :
    ∃ q, indexConstraints ["fixCurrent"] sampleModel = .ok 1 q
      ∧ Stripped ["fixCurrent"] sampleModel q 1
      ∧ (mutations q).map (·.call)
        = [.removeCoefficient ⟨0⟩ ⟨0⟩, .removeCoefficient ⟨0⟩ ⟨0⟩,
          .setModifiable ⟨0⟩, .deleteConstraint ⟨1⟩]
      ∧ q.memory.rows.map (·.terms)
        = [[(⟨1⟩, 1.0)], [(⟨0⟩, 1.0), (⟨1⟩, 1.0)], [(⟨1⟩, 1.0)]]
      ∧ ∃ t, indexConstraints ["fixCurrent"] q = .ok 0 t
        ∧ t.registry = q.registry
          ∧ t.memory = q.memory ∧ mutations t = mutations q := by
  have hrun : Action.passes (indexConstraints ["fixCurrent"]) (fun k q =>
      k == 1
        && decide ((mutations q).map (·.call) = [.removeCoefficient ⟨0⟩ ⟨0⟩,
          .removeCoefficient ⟨0⟩ ⟨0⟩, .setModifiable ⟨0⟩,
          .deleteConstraint ⟨1⟩])
        && decide (q.memory.rows.map (·.terms)
          = [[(⟨1⟩, 1.0)], [(⟨0⟩, 1.0), (⟨1⟩, 1.0)], [(⟨1⟩, 1.0)]])) sampleModel
            = true := by
    decide +kernel
  obtain ⟨k, q, hindex, hrun⟩ := Action.exists_of_passes hrun
  simp only [Bool.and_eq_true, beq_iff_eq, decide_eq_true_iff] at hrun
  obtain ⟨⟨rfl, hcalls⟩, hterms⟩ := hrun
  obtain ⟨hstripped, hagain⟩ := indexing_strips (by decide) hindex
  exact ⟨q, hindex, hstripped, hcalls, hterms, hagain nofun⟩

end Setup

end FlowPricing
