/-
What indexing the master's constraints leaves in the registry. A
constraint is either passed over, and the registry is as it was, or its
terms are entered one by one and the constraint is registered with just
these terms (`indexConstraint_spec`). So the arc index stays the transpose
of the list of constraints, from the empty registry on, through the start
of a solve and whatever follows it.
-/
import FlowPricing.Setup.Constraints
import FlowPricing.Proofs.Master.Memory
import FlowPricing.Proofs.Pricing.Session
import FlowPricing.Proofs.Registry.Transposition

namespace FlowPricing

variable {μ : Type}

-- ============================================================= indexing

namespace Setup

section Indexing

variable [EditableMaster μ] {p q : Problem μ} {c : ConstraintId}
  {unneeded : List String}

/-- Taking a term enters it; passing one over does nothing. -/
theorem takeTerm_spec {t : VariableId × Float} {o : Option (Arc × Float)}
    (h : takeTerm c t p = .ok o q) :
    (o = none ∧ q.registry = p.registry)
      ∨ ∃ a, o = some (a, t.2)
        ∧ q.registry = p.registry.addEntry a ⟨c, t.2⟩ := by
  unfold takeTerm at h
  obtain ⟨name, p₁, hname, h⟩ := Action.bind_eq_ok.1 h
  obtain ⟨m₁, -, rfl⟩ := Problem.onMaster_eq_ok.1 hname
  cases harc : VariableName.arc? name with
  | error e =>
      rw [harc] at h
      exact absurd h Action.throw_ne_ok
  | ok o' =>
      rw [harc] at h
      cases o' with
      | none =>
          obtain ⟨rfl, rfl⟩ := Action.pure_eq_ok.1 h
          exact .inl ⟨rfl, rfl⟩
      | some a =>
          obtain ⟨_, p₂, hadd, h⟩ := Action.bind_eq_ok.1 h
          obtain rfl := Problem.modifyRegistry_eq_ok.1 hadd
          obtain ⟨_, p₃, hremove, h⟩ := Action.bind_eq_ok.1 h
          obtain ⟨m₃, -, rfl⟩ := Problem.onMaster_eq_ok.1 hremove
          obtain ⟨rfl, rfl⟩ := Action.pure_eq_ok.1 h
          exact .inr ⟨a, rfl, rfl⟩

/-- The terms of a constraint are entered in their order. -/
theorem mapM_takeTerm_spec {terms : List (VariableId × Float)}
    {taken : List (Option (Arc × Float))}
    (h : terms.mapM (takeTerm c) p = .ok taken q) :
    q.registry = p.registry.addEntries c (taken.filterMap id) := by
  induction terms generalizing p taken with
  | nil =>
      obtain ⟨rfl, rfl⟩ := Action.mapM_nil_eq_ok.1 h
      rfl
  | cons t terms ih =>
      obtain ⟨o, p₁, taken', ht, hterms, rfl⟩ := Action.mapM_cons_eq_ok.1 h
      rw [ih hterms]
      rcases takeTerm_spec ht with ⟨rfl, hr⟩ | ⟨a, rfl, hr⟩
      · rw [hr]
        rfl
      · rw [hr]
        rfl

/-- A constraint is passed over or registered with the terms entered for
it, of which there is at least one. -/
theorem indexConstraint_spec {b : Bool}
    (h : indexConstraint unneeded c p = .ok b q) :
    (b = false ∧ q.registry = p.registry)
      ∨ b = true ∧ ∃ arcs, arcs ≠ []
          ∧ q.registry = (p.registry.addEntries c arcs).addConstraint
            ⟨c, arcs⟩ := by
  unfold indexConstraint at h
  obtain ⟨name, p₁, hname, h⟩ := Action.bind_eq_ok.1 h
  obtain ⟨m₁, -, rfl⟩ := Problem.onMaster_eq_ok.1 hname
  split at h
  · obtain ⟨_, p₂, hdelete, h⟩ := Action.bind_eq_ok.1 h
    obtain ⟨m₂, -, rfl⟩ := Problem.onMaster_eq_ok.1 hdelete
    obtain ⟨rfl, rfl⟩ := Action.pure_eq_ok.1 h
    exact .inl ⟨rfl, rfl⟩
  · obtain ⟨terms, p₂, hterms, h⟩ := Action.bind_eq_ok.1 h
    obtain ⟨m₂, -, rfl⟩ := Problem.onMaster_eq_ok.1 hterms
    obtain ⟨taken, p₃, htaken, h⟩ := Action.bind_eq_ok.1 h
    have hentries := mapM_takeTerm_spec htaken
    split at h
    · next hnil =>
        obtain ⟨rfl, rfl⟩ := Action.pure_eq_ok.1 h
        rw [List.isEmpty_iff.1 hnil] at hentries
        exact .inl ⟨rfl, hentries⟩
    · next hsome =>
        obtain ⟨_, p₄, hopen, h⟩ := Action.bind_eq_ok.1 h
        obtain ⟨m₄, -, rfl⟩ := Problem.onMaster_eq_ok.1 hopen
        obtain ⟨_, p₅, hadd, h⟩ := Action.bind_eq_ok.1 h
        obtain rfl := Problem.modifyRegistry_eq_ok.1 hadd
        obtain ⟨rfl, rfl⟩ := Action.pure_eq_ok.1 h
        refine .inr ⟨rfl, taken.filterMap id,
          fun hnil => hsome (List.isEmpty_iff.2 hnil), ?_⟩
        show Registry.addConstraint p₃.registry _ = _
        rw [hentries]

/-- What registering keeps, indexing one constraint after another keeps. -/
theorem mapM_indexConstraint_induction {P : Registry → Prop}
    {handles : List ConstraintId} {bs : List Bool}
    (hP : ∀ r c arcs, P r → arcs ≠ [] →
      P ((r.addEntries c arcs).addConstraint ⟨c, arcs⟩))
    (hp : P p.registry)
    (h : handles.mapM (indexConstraint unneeded) p = .ok bs q) :
    P q.registry := by
  induction handles generalizing p bs with
  | nil =>
      obtain ⟨-, rfl⟩ := Action.mapM_nil_eq_ok.1 h
      exact hp
  | cons c handles ih =>
      obtain ⟨b, p₂, bs', hc, hrest, -⟩ := Action.mapM_cons_eq_ok.1 h
      refine ih ?_ hrest
      rcases indexConstraint_spec hc with ⟨-, hr⟩ | ⟨-, arcs, hne, hr⟩
      · rw [hr]
        exact hp
      · rw [hr]
        exact hP _ _ _ hp hne

/-- What registering keeps, indexing keeps. -/
theorem indexConstraints_induction {P : Registry → Prop} {k : Nat}
    (hP : ∀ r c arcs, P r → arcs ≠ [] →
      P ((r.addEntries c arcs).addConstraint ⟨c, arcs⟩))
    (hp : P p.registry) (h : indexConstraints unneeded p = .ok k q) :
    P q.registry := by
  unfold indexConstraints at h
  rw [Action.get_bind] at h
  obtain ⟨bs, p₁, hmap, hcount⟩ := Action.bind_eq_ok.1 h
  obtain ⟨-, rfl⟩ := Action.pure_eq_ok.1 hcount
  exact mapM_indexConstraint_induction hP hp hmap

/-- Indexing keeps index and list in agreement. -/
theorem transposed_of_indexConstraints {k : Nat} (hp : p.registry.Transposed)
    (h : indexConstraints unneeded p = .ok k q) : q.registry.Transposed :=
  indexConstraints_induction (fun _ c arcs ht _ => ht.register c arcs) hp h

end Indexing

end Setup

-- ============================================================= starting

/-- A master in memory answers by its table of copies. -/
theorem MemoryMaster.answers_step {m : MemoryMaster} :
    ∀ m₁ c d m₂, m₁ = m → MasterProblem.transformedConstraint c m₁ = .ok d m₂ →
      d = (m.transformed.get? c).getD c ∧ m₂ = m := by
  rintro m₁ c d m₂ rfl h
  obtain ⟨rfl, rfl⟩ := transformedConstraint_eq_ok h
  exact ⟨rfl, rfl⟩

theorem MemoryMaster.answers (m : MemoryMaster) :
    Registry.Answers MasterProblem.transformedConstraint
      (fun c => (m.transformed.get? c).getD c) m :=
  ⟨(· = m), rfl, answers_step⟩

/-- A record of the calls changes no answer. -/
theorem Recorded.answers [MasterProblem μ] {f : ConstraintId → ConstraintId}
    {m : Recorded μ}
    (h : Registry.Answers MasterProblem.transformedConstraint f m.inner) :
    Registry.Answers MasterProblem.transformedConstraint f m := by
  obtain ⟨P, hm, hP⟩ := h
  refine ⟨fun x => P x.inner, hm, ?_⟩
  intro m₁ c d m₂ h₁ hok
  exact hP m₁.inner c d m₂.inner h₁ (log_inner hok)

namespace Solve

variable [MasterProblem μ] {s t : Solve μ} {u : Unit}

/-- Starting a solve replaces the handles and makes the pricer ready. -/
theorem start_eq_ok :
    start s = .ok u t
      ↔ s.pricer.state = .uninitialized
        ∧ ∃ r m, Registry.remap MasterProblem.transformedConstraint
              (s.problem.registry, s.problem.master) = .ok () (r, m)
            ∧ t = { problem := { registry := r, master := m }
                    pricer := { s.pricer with state := .ready } } := by
  unfold start
  rw [Action.bind_eq_ok]
  constructor
  · intro h
    obtain ⟨_, s₁, hrequire, h⟩ := h
    obtain ⟨hstate, rfl⟩ := require_eq_ok.1 hrequire
    obtain ⟨_, s₂, hremap, h⟩ := Action.bind_eq_ok.1 h
    obtain ⟨p, hp, rfl⟩ := onProblem_eq_ok.1 hremap
    obtain ⟨⟨r, m⟩, hrm, rfl⟩ := Action.focus_eq_ok.1 hp
    obtain rfl := modifyPricer_eq_ok.1 h
    exact ⟨by simpa using hstate, r, m, Action.mapError_eq_ok.1 hrm, rfl⟩
  · intro h
    obtain ⟨hstate, r, m, hremap, rfl⟩ := h
    refine ⟨(), s, require_eq_ok.2 ⟨by simpa using hstate, rfl⟩, ?_⟩
    refine Action.bind_eq_ok.2 ⟨(), { s with problem := ⟨r, m⟩ }, ?_, rfl⟩
    refine onProblem_eq_ok.2 ⟨⟨r, m⟩, ?_, rfl⟩
    exact Action.focus_eq_ok.2 ⟨(r, m), Action.mapError_eq_ok.2 hremap, rfl⟩

/-- With a master that answers `f`, a start renames the handles by `f`. -/
theorem start_renames {f : ConstraintId → ConstraintId}
    (hf : Registry.Answers MasterProblem.transformedConstraint f
      s.problem.master)
    (h : start s = .ok u t) :
    t.problem.registry = s.problem.registry.renamed f
      ∧ t.pricer = { s.pricer with state := .ready } := by
  obtain ⟨-, r, m, hremap, rfl⟩ := start_eq_ok.1 h
  obtain ⟨P, hs, hP⟩ := hf
  exact ⟨(Registry.remap_spec hP hs hremap).1, rfl⟩

end Solve

namespace Registry

/-- Rounds keep index and list in agreement. -/
theorem Transposed.onward {r r' : Registry} (ht : r.Transposed)
    (h : Onward r r') :
    r'.Transposed := by
  obtain ⟨hconstraints, hindex, -⟩ := h.keeps
  unfold Transposed Shows entriesOf at ht ⊢
  rw [hconstraints, hindex]
  exact ht

end Registry

namespace Setup

/-- Indexed into a registry without constraints, the arc index is the
transpose of the list of constraints: when indexing is done, after a start
in which the master answers any function whatsoever, and after all that
happens then. -/
theorem index_transposed [EditableMaster μ] {unneeded : List String}
    {p q : Problem μ} {k : Nat} (hc : p.registry.constraints = [])
    (hi : p.registry.index = .empty)
    (h : indexConstraints unneeded p = .ok k q) :
    q.registry.Transposed
      ∧ ∀ (s t : Solve μ) (f : ConstraintId → ConstraintId),
          Registry.Onward q.registry s.problem.registry →
          Registry.Answers MasterProblem.transformedConstraint f
            s.problem.master →
          Solve.start s = .ok () t →
          s.problem.registry.Transposed ∧ ∀ u, Solve.Later t u →
            u.problem.registry.Transposed := by
  have hindexed : q.registry.Transposed :=
    transposed_of_indexConstraints (Registry.transposed_of_empty hc hi) h
  refine ⟨hindexed, ?_⟩
  intro s t f honward hf hstart
  have hbefore := hindexed.onward honward
  refine ⟨hbefore, ?_⟩
  intro u hu
  obtain ⟨hregistry, hpricer⟩ := Solve.start_renames hf hstart
  have hstarted : t.problem.registry.Transposed := by
    rw [hregistry]
    exact hbefore.renamed f
  have hready : t.pricer.state ≠ .uninitialized := by
    rw [hpricer]
    exact nofun
  exact hstarted.onward (hu.onward hready).2

/-- Two constraints in which the variable of an arc occurs. -/
def sampleMaster : MemoryMaster where
  rows :=
    [{ name := "cover", terms := [(⟨0⟩, 1.0)] },
      { name := "limit", terms := [(⟨0⟩, 2.0)] }]
  columns :=
    [{ name := "y(0|0|neg2|neg1|0|false|0,0|0|35|neg1|0|false|0)", lower := 0.0,
       upper := 1.0, objective := 0.0, committed := true }]

/-- A solve that takes all improving paths, not yet started. -/
def solveOf (p : Problem μ) : Solve μ :=
  { problem := p, pricer := { selection := .full, tolerance := 0.0 } }

/-- Two constraints are indexed and their handles replaced. -/
theorem index_transposed_sample :
    ∃ q t : Solve MemoryMaster, q.problem.registry.constraints.length = 2
      ∧ Solve.start q = .ok () t ∧ t.problem.registry.Transposed := by
  have hrun : Action.passes (indexConstraints []) (fun _ q =>
      Action.passes Solve.start (fun _ _ => q.registry.constraints.length == 2)
        (solveOf q))
      (⟨{}, sampleMaster⟩ : Problem MemoryMaster) = true := by decide +kernel
  obtain ⟨k, q, hindex, hrun⟩ := Action.exists_of_passes hrun
  obtain ⟨⟨⟩, t, hstart, hcount⟩ := Action.exists_of_passes hrun
  have htransposed := index_transposed (p := ⟨{}, sampleMaster⟩) rfl rfl hindex
  have hafter :=
    htransposed.2 (solveOf q) t _ .refl (MemoryMaster.answers _) hstart
  exact ⟨solveOf q, t, beq_iff_eq.1 hcount, hstart, hafter.2 t .refl⟩

end Setup

end FlowPricing
