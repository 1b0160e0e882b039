/-
Indexing a master in memory. Each constraint is handled for itself: what
happens to one depends on its own terms and changes no other
(`indexConstraint_keeps`). So whether a constraint is registered, and
whether it is open to columns afterwards, can be read off the model as it
was before (`Registers`, `Opens`). Every registered constraint is open
afterwards; a copy that a transformation made of it before is a constraint
of its own, which is open afterwards if it has been so, or is registered
too (`ready_of_indexConstraints`).
-/
import FlowPricing.Proofs.Master.Memory
import FlowPricing.Proofs.Setup.Constraints

namespace FlowPricing

namespace MemoryMaster

variable {m m' m'' : MemoryMaster} {c : ConstraintId}
  {hs ks : List ConstraintId}

/-- Two masters that differ at most in the constraints of a list. -/
structure DiffersIn (hs : List ConstraintId) (m m' : MemoryMaster) : Prop where
  columns : m'.columns = m.columns
  transformed : m'.transformed = m.transformed
  count : m'.rows.length = m.rows.length
  others : ∀ d ∉ hs, m'.row? d = m.row? d

namespace DiffersIn

theorem refl (hs : List ConstraintId) (m : MemoryMaster) : DiffersIn hs m m :=
  ⟨rfl, rfl, rfl, fun _ _ => rfl⟩

theorem mono (h : DiffersIn hs m m') (hsub : ∀ c ∈ hs, c ∈ ks) :
    DiffersIn ks m m' :=
  ⟨h.columns, h.transformed, h.count, fun d hd => h.others d fun hin =>
    hd (hsub d hin)⟩

theorem trans (h : DiffersIn hs m m') (h' : DiffersIn hs m' m'') :
    DiffersIn hs m m'' := by
  refine ⟨h'.columns.trans h.columns, h'.transformed.trans h.transformed,
    h'.count.trans h.count, ?_⟩
  intro d hd
  rw [h'.others d hd, h.others d hd]

theorem modifyRow (m : MemoryMaster) (c : ConstraintId) (f : Row → Row) :
    DiffersIn [c] m (m.modifyRow c f) := by
  refine ⟨rfl, rfl, List.length_modify _ _ _, ?_⟩
  intro d hd
  apply row?_modifyRow_of_ne
  intro heq
  exact hd (List.mem_singleton.2 heq.symm)

end DiffersIn

/-- A term whose variable stands for an arc. -/
def Prices (m : MemoryMaster) (t : VariableId × Float) : Prop :=
  ∃ x a, m.columns[t.1.index]? = some x
    ∧ VariableName.arc? x.name = .ok (some a)

/-- A constraint that indexing registers: it is needed, and has a term that
stands for an arc. -/
def Registers (m : MemoryMaster) (unneeded : List String) (r : Row) : Prop :=
  Setup.isUnneeded unneeded r.name = false ∧ ∃ t ∈ r.terms, m.Prices t

/-- A constraint that indexing leaves open: it is needed, and is open
already or has a term that stands for an arc. -/
def Opens (m : MemoryMaster) (unneeded : List String) (r : Row) : Prop :=
  Setup.isUnneeded unneeded r.name = false
    ∧ (r.modifiable = true ∨ ∃ t ∈ r.terms, m.Prices t)

/-- What indexing registers, it leaves open. -/
theorem Registers.opens {unneeded : List String} {r : Row}
    (h : m.Registers unneeded r) :
    m.Opens unneeded r := ⟨h.1, .inr h.2⟩

/-- Of every constraint that indexing registers, a copy recorded before is
there and will be open too. -/
def CopiesOpen (m : MemoryMaster) (unneeded : List String) : Prop :=
  ∀ c r d, m.row? c = some r → m.Registers unneeded r →
    m.transformed.get? c = some d →
    ∃ x, m.row? d = some x ∧ m.Opens unneeded x

/-- Faithful copies are registered with their originals. -/
theorem Faithful.copiesOpen (h : m.Faithful) (unneeded : List String) :
    m.CopiesOpen unneeded := by
  intro c r d hrow hr hd
  obtain ⟨y, hy, hcopy⟩ := h c d hd
  obtain ⟨hget, hlive⟩ := row?_eq_some.1 hrow
  obtain rfl := Option.some.inj (hget.symm.trans hy)
  exact ⟨r, row?_eq_some.2 ⟨hcopy, hlive⟩, hr.opens⟩

namespace DiffersIn

/-- Terms stand for what they stood for, since the variables are the
same. -/
theorem prices_iff (h : DiffersIn hs m m') (t : VariableId × Float) :
    m'.Prices t ↔ m.Prices t := by
  unfold Prices
  rw [h.columns]

/-- What would be registered is the same after other rows have changed. -/
theorem registers_iff (h : DiffersIn hs m m')
    (unneeded : List String) (r : Row) :
    m'.Registers unneeded r ↔ m.Registers unneeded r := by
  unfold Registers
  simp only [h.prices_iff]

/-- So is what would be left open. -/
theorem opens_iff (h : DiffersIn hs m m') (unneeded : List String) (r : Row) :
    m'.Opens unneeded r ↔ m.Opens unneeded r := by
  unfold Opens
  simp only [h.prices_iff]

/-- Constraints of which none is the one that was changed are as they
were. -/
theorem behind (h : DiffersIn [c] m m') (hc : c ∉ hs) {d : ConstraintId}
    (hd : d ∈ hs) :
    m'.row? d = m.row? d := by
  apply h.others
  intro heq
  exact hc (List.mem_singleton.1 heq ▸ hd)

end DiffersIn

-- ======================================================= what stays open

/-- From `m` to `m'` what was open stays open. -/
def KeepsOpen (m m' : MemoryMaster) : Prop := ∀ d, m.Open d → m'.Open d

instance : IsPreorder MemoryMaster KeepsOpen where
  refl _ _ := id
  trans _ _ _ h₁ h₂ d hd := h₂ d (h₁ d hd)

theorem keepsOpen_row (op : MasterOperation) (c : ConstraintId) :
    Action.Moves KeepsOpen (row op c) := by
  unfold row
  apply Action.moves_get_bind
  intro m
  cases m.row? c with
  | none => exact Action.moves_throw (R := KeepsOpen) _ m
  | some r => exact Action.moves_pure (R := KeepsOpen) r m

/-- Reading a name closes nothing. -/
theorem keepsOpen_variableName (v : VariableId) :
    Action.Moves KeepsOpen
      (EditableMaster.variableName (μ := MemoryMaster) v) := by
  refine Action.moves_bind ?_ fun _ => Action.moves_pure _
  unfold column
  apply Action.moves_get_bind
  intro m
  cases m.columns[v.index]? with
  | none => exact Action.moves_throw (R := KeepsOpen) _ m
  | some x => exact Action.moves_pure (R := KeepsOpen) x m

/-- Neither does removing a coefficient. -/
theorem keepsOpen_removeCoefficient (c : ConstraintId) (v : VariableId) :
    Action.Moves KeepsOpen
      (EditableMaster.removeCoefficient (μ := MemoryMaster) c v) :=
  Action.moves_bind (keepsOpen_row _ c) fun _ =>
    Action.moves_modify fun _ _ hd => hd.modifyRow fun _ => ⟨rfl, id⟩

end MemoryMaster

namespace Setup

open MemoryMaster

variable {p q : Problem MemoryMaster} {c : ConstraintId}
  {unneeded : List String}

-- ======================================================= one constraint

/-- A term is taken if its variable stands for an arc. -/
theorem takeTerm_keeps {t : VariableId × Float} {o : Option (Arc × Float)}
    (h : takeTerm c t p = .ok o q) :
    DiffersIn [c] p.master q.master ∧ (o ≠ none ↔ p.master.Prices t) := by
  unfold takeTerm at h
  obtain ⟨name, p₁, hname, h⟩ := Action.bind_eq_ok.1 h
  obtain ⟨m₁, hm₁, rfl⟩ := Problem.onMaster_eq_ok.1 hname
  obtain ⟨rfl, x, hx, rfl⟩ := variableName_eq_ok hm₁
  cases harc : VariableName.arc? x.name with
  | error e =>
      rw [harc] at h
      exact absurd h Action.throw_ne_ok
  | ok o' =>
      rw [harc] at h
      cases o' with
      | none =>
          obtain ⟨rfl, rfl⟩ := Action.pure_eq_ok.1 h
          refine ⟨.refl _ _, fun hne => absurd rfl hne, ?_⟩
          rintro ⟨y, a, hy, ha⟩ -
          obtain rfl := Option.some.inj (hx.symm.trans hy)
          rw [harc] at ha
          exact nomatch ha
      | some a =>
          obtain ⟨_, p₂, hadd, h⟩ := Action.bind_eq_ok.1 h
          obtain rfl := Problem.modifyRegistry_eq_ok.1 hadd
          obtain ⟨_, p₃, hremove, h⟩ := Action.bind_eq_ok.1 h
          obtain ⟨m₃, hm₃, rfl⟩ := Problem.onMaster_eq_ok.1 hremove
          obtain ⟨f, rfl⟩ := removeCoefficient_eq_ok hm₃
          obtain ⟨rfl, rfl⟩ := Action.pure_eq_ok.1 h
          refine ⟨.modifyRow _ c f, fun _ => ⟨x, a, hx, harc⟩, ?_⟩
          intro _
          exact nofun

/-- Taking the terms of a row leaves the others alone, and takes one if
there is one that is priced. -/
theorem mapM_takeTerm_keeps {terms : List (VariableId × Float)}
    {taken : List (Option (Arc × Float))}
    (h : terms.mapM (takeTerm c) p = .ok taken q) :
    DiffersIn [c] p.master q.master
      ∧ (taken.filterMap id ≠ [] ↔ ∃ t ∈ terms, p.master.Prices t) := by
  induction terms generalizing p taken with
  | nil =>
      obtain ⟨rfl, rfl⟩ := Action.mapM_nil_eq_ok.1 h
      simp [DiffersIn.refl]
  | cons t terms ih =>
      obtain ⟨o, p₁, taken', ht, hterms, rfl⟩ := Action.mapM_cons_eq_ok.1 h
      obtain ⟨hfirst, htaken⟩ := takeTerm_keeps ht
      obtain ⟨hrest, hiff⟩ := ih hterms
      refine ⟨hfirst.trans hrest, ?_⟩
      simp only [hfirst.prices_iff] at hiff
      rw [List.exists_mem_cons_iff, ← htaken, ← hiff]
      cases o with
      | none => simp
      | some e => simp

/-- Taking terms out of a constraint closes none. -/
theorem keepsOpen_takeTerm (c : ConstraintId) (t : VariableId × Float) :
    Action.Moves (Action.Along KeepsOpen Problem.master) (takeTerm c t) := by
  unfold takeTerm
  apply Action.moves_bind (Round.along_onMaster (keepsOpen_variableName t.1))
  intro name
  split
  · exact Action.moves_throw _
  · exact Action.moves_pure _
  · refine Action.moves_bind (Action.moves_modify fun p =>
      refl_of KeepsOpen p.master) fun _ => ?_
    refine Action.moves_bind
      (Round.along_onMaster (keepsOpen_removeCoefficient c t.1)) fun _ => ?_
    exact Action.moves_pure _

/-- Indexing a constraint changes no other. It is registered, and it is open
afterwards, as the model says. -/
theorem indexConstraint_keeps {b : Bool}
    (h : indexConstraint unneeded c p = .ok b q) :
    DiffersIn [c] p.master q.master
      ∧ ∃ r, p.master.row? c = some r
        ∧ (b = true ↔ p.master.Registers unneeded r)
        ∧ (p.master.Opens unneeded r → q.master.Open c) := by
  unfold indexConstraint at h
  obtain ⟨name, p₁, hname, h⟩ := Action.bind_eq_ok.1 h
  obtain ⟨m₁, hm₁, rfl⟩ := Problem.onMaster_eq_ok.1 hname
  obtain ⟨rfl, r, hrow, rfl⟩ := constraintName_eq_ok hm₁
  split at h
  · next hunneeded =>
      obtain ⟨_, p₂, hdelete, h⟩ := Action.bind_eq_ok.1 h
      obtain ⟨m₂, hm₂, rfl⟩ := Problem.onMaster_eq_ok.1 hdelete
      obtain ⟨f, rfl⟩ := deleteConstraint_eq_ok hm₂
      obtain ⟨rfl, rfl⟩ := Action.pure_eq_ok.1 h
      refine ⟨.modifyRow _ c f, r, hrow, ⟨nofun, ?_⟩, ?_⟩
      · intro h
        exact nomatch hunneeded.symm.trans h.1
      · intro h
        exact nomatch hunneeded.symm.trans h.1
  · next hneeded =>
      rw [Bool.not_eq_true] at hneeded
      obtain ⟨terms, p₂, hterms, h⟩ := Action.bind_eq_ok.1 h
      obtain ⟨m₂, hm₂, rfl⟩ := Problem.onMaster_eq_ok.1 hterms
      obtain ⟨rfl, r', hrow', rfl⟩ := constraintTerms_eq_ok hm₂
      obtain rfl := Option.some.inj (hrow.symm.trans hrow')
      obtain ⟨taken, p₃, htaken, h⟩ := Action.bind_eq_ok.1 h
      obtain ⟨hkept, hiff⟩ := mapM_takeTerm_keeps htaken
      split at h
      · next hnil =>
          obtain ⟨rfl, rfl⟩ := Action.pure_eq_ok.1 h
          have hnone : ¬∃ t ∈ r.terms, p.master.Prices t :=
            fun hprices => hiff.2 hprices (List.isEmpty_iff.1 hnil)
          refine ⟨hkept, r, hrow, ⟨nofun, fun h => absurd h.2 hnone⟩, ?_⟩
          -- no term was taken, so it must have been open before
          intro h
          have hmodifiable := h.2.resolve_right hnone
          have hopen := Action.moves_mapM (keepsOpen_takeTerm c) r.terms
          exact hopen.of_ok htaken c ⟨r, hrow, hmodifiable⟩
      · next hsome =>
          obtain ⟨_, p₄, hopen, h⟩ := Action.bind_eq_ok.1 h
          obtain ⟨m₄, hm₄, rfl⟩ := Problem.onMaster_eq_ok.1 hopen
          obtain ⟨⟨f, rfl⟩, hopened⟩ := setModifiable_eq_ok hm₄
          obtain ⟨_, p₅, hadd, h⟩ := Action.bind_eq_ok.1 h
          obtain rfl := Problem.modifyRegistry_eq_ok.1 hadd
          obtain ⟨rfl, rfl⟩ := Action.pure_eq_ok.1 h
          have hprices := hiff.1 fun hnil => hsome (List.isEmpty_iff.2 hnil)
          exact ⟨hkept.trans (.modifyRow _ c f), r, hrow,
            ⟨fun _ => ⟨hneeded, hprices⟩, fun _ => rfl⟩, fun _ => hopened⟩

-- ====================================================== all constraints

/-- Indexing rows changes no others. -/
theorem mapM_indexConstraint_differs {hs : List ConstraintId} {bs : List Bool}
    (h : hs.mapM (indexConstraint unneeded) p = .ok bs q) :
    DiffersIn hs p.master q.master := by
  induction hs generalizing p bs with
  | nil =>
      obtain ⟨-, rfl⟩ := Action.mapM_nil_eq_ok.1 h
      exact .refl _ _
  | cons c hs ih =>
      obtain ⟨b, p₁, bs', hfirst, hrest, -⟩ := Action.mapM_cons_eq_ok.1 h
      have hone : DiffersIn (c :: hs) p.master p₁.master :=
        (indexConstraint_keeps hfirst).1.mono (by simp)
      have hall : DiffersIn (c :: hs) p₁.master q.master :=
        (ih hrest).mono fun _ hd => List.mem_cons_of_mem c hd
      exact hone.trans hall

/-- Of the constraints that are indexed, those that `Opens` names are open
afterwards. -/
theorem mapM_indexConstraint_opens {hs : List ConstraintId} (hnodup : hs.Nodup)
    {bs : List Bool} (h : hs.mapM (indexConstraint unneeded) p = .ok bs q)
    {d : ConstraintId} (hd : d ∈ hs) {r : Row} (hrow : p.master.row? d = some r)
    (hr : p.master.Opens unneeded r) : q.master.Open d := by
  induction hs generalizing p bs with
  | nil => exact absurd hd List.not_mem_nil
  | cons c hs ih =>
      obtain ⟨hc, hnodup⟩ := List.nodup_cons.1 hnodup
      obtain ⟨b, p₁, bs', hfirst, hrest, -⟩ := Action.mapM_cons_eq_ok.1 h
      obtain ⟨hone, r', hrow', -, hopen⟩ := indexConstraint_keeps hfirst
      rcases List.mem_cons.1 hd with rfl | hd
      · obtain rfl := Option.some.inj (hrow'.symm.trans hrow)
        obtain ⟨y, hy, hmodifiable⟩ := hopen hr
        have hleft := (mapM_indexConstraint_differs hrest).others d hc
        exact ⟨y, hleft.trans hy, hmodifiable⟩
      · apply ih hnodup hrest hd
        · exact (hone.behind hc hd).trans hrow
        · exact (hone.opens_iff unneeded r).2 hr

/-- Of the constraints that are indexed, at most those that `Registers`
names are registered. -/
theorem mapM_indexConstraint_lists {hs : List ConstraintId} (hnodup : hs.Nodup)
    {bs : List Bool} (h : hs.mapM (indexConstraint unneeded) p = .ok bs q)
    {x : Constraint} (hx : x ∈ q.registry.constraints) :
    x ∈ p.registry.constraints ∨ x.handle ∈ hs
      ∧ ∃ r, p.master.row? x.handle = some r
        ∧ p.master.Registers unneeded r := by
  induction hs generalizing p bs with
  | nil =>
      obtain ⟨-, rfl⟩ := Action.mapM_nil_eq_ok.1 h
      exact .inl hx
  | cons c hs ih =>
      obtain ⟨hc, hnodup⟩ := List.nodup_cons.1 hnodup
      obtain ⟨b, p₁, bs', hfirst, hrest, -⟩ := Action.mapM_cons_eq_ok.1 h
      obtain ⟨hone, r, hrow, hiff, -⟩ := indexConstraint_keeps hfirst
      rcases ih hnodup hrest with hold | ⟨hin, y, hy, hr⟩
      · rcases indexConstraint_spec hfirst with ⟨-, hsame⟩
          | ⟨rfl, arcs, -, hadded⟩
        · exact .inl (hsame ▸ hold)
        · obtain ⟨index, hentries⟩ := p.registry.addEntries_eq c arcs
          rw [hadded, hentries] at hold
          rcases List.mem_append.1 hold with hold | hnew
          · exact .inl hold
          · rw [List.mem_singleton.1 hnew]
            exact .inr ⟨List.mem_cons_self, r, hrow, hiff.1 rfl⟩
      · refine .inr ⟨List.mem_cons_of_mem c hin, y, ?_,
          (hone.registers_iff unneeded y).1 hr⟩
        rw [← hone.behind hc hin]
        exact hy

/-- Every constraint that indexing registers is open afterwards, and so is
its copy, if the copies were such that indexing leaves them open. -/
theorem ready_of_indexConstraints {k : Nat}
    (hempty : p.registry.constraints = [])
    (h : indexConstraints unneeded p = .ok k q)
    (hlen : q.master.rows.length ≤ UInt32.size) :
    ∀ x ∈ q.registry.constraints, q.master.Open x.handle
      ∧ (p.master.CopiesOpen unneeded → q.master.Ready x.handle) := by
  unfold indexConstraints at h
  rw [Action.get_bind] at h
  obtain ⟨bs, p₁, hmap, hcount⟩ := Action.bind_eq_ok.1 h
  obtain ⟨-, rfl⟩ := Action.pure_eq_ok.1 hcount
  have hdiffers := mapM_indexConstraint_differs hmap
  have hbefore : p.master.rows.length ≤ UInt32.size := hdiffers.count ▸ hlen
  have hnodup := nodup_liveRows hbefore
  have hopened : ∀ d r, p.master.row? d = some r → p.master.Opens unneeded r →
      p₁.master.Open d := by
    intro d r hrow hr
    refine mapM_indexConstraint_opens hnodup hmap ?_ hrow hr
    exact List.mem_map_of_mem ((mem_liveRows hbefore).2 hrow)
  intro x hx
  rcases mapM_indexConstraint_lists hnodup hmap hx with hold | ⟨-, r, hrow, hr⟩
  · rw [hempty] at hold
    exact absurd hold List.not_mem_nil
  · have horiginal := hopened x.handle r hrow hr.opens
    refine ⟨horiginal, fun hcopies => ⟨horiginal, ?_⟩⟩
    intro d hd
    rw [hdiffers.transformed] at hd
    obtain ⟨y, hy, hopens⟩ := hcopies x.handle r d hrow hr hd
    exact hopened d y hy hopens

end Setup

end FlowPricing
