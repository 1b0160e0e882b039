/-
What the rounds of a session can rely on (`Registry.Prepared`): sound
networks, every arc routed to its network, and an arc index that agrees
with the constraints. A session that registers network descriptions,
indexes the constraints and starts a solve arrives there, and stays there
whatever happens then (`Session.prepared`).
-/
import FlowPricing.Proofs.Setup.Constraints
import FlowPricing.Proofs.Setup.Networks

namespace FlowPricing

variable {μ : Type}

namespace Registry

variable {r r' : Registry}

/-- A registry as the rounds expect it. -/
structure Prepared (r : Registry) : Prop where
  sound : r.Sound
  routed : r.Routed
  transposed : r.Transposed

/-- A registry that was just built is prepared. -/
theorem Built.prepared (h : r.Built) : r.Prepared :=
  ⟨h.reachable.sound, h.routed, transposed_of_empty h.constraints h.index⟩

/-- Registering a constraint with its entries keeps it prepared. -/
theorem Prepared.register (hr : r.Prepared) (c : ConstraintId)
    (arcs : List (Arc × Float)) :
    ((r.addEntries c arcs).addConstraint ⟨c, arcs⟩).Prepared := by
  have ht := hr.transposed.register c arcs
  obtain ⟨index, heq⟩ := r.addEntries_eq c arcs
  rw [heq] at ht ⊢
  exact ⟨hr.sound.of_networks rfl, hr.routed, ht⟩

/-- So does renaming the handles. -/
theorem Prepared.renamed (hr : r.Prepared) (f : ConstraintId → ConstraintId) :
    (r.renamed f).Prepared :=
  ⟨hr.sound.of_networks rfl, hr.routed, hr.transposed.renamed f⟩

/-- Networks that went on keep their routes, since they keep their
topologies. -/
theorem Prepared.onward (hr : r.Prepared) (h : Onward r r') : r'.Prepared := by
  have hlater := h.networks
  obtain ⟨-, -, hfields⟩ := h.keeps
  refine ⟨h.sound hr.sound, ?_, hr.transposed.onward h⟩
  · intro n hn a ha
    obtain ⟨m, hm, hmn⟩ := Action.exists_of_mem_right hlater hn
    have htop := (hmn.sound (hr.sound.networks m hm)).2
    rw [hfields]
    unfold Network.group
    rw [htop] at ha ⊢
    exact hr.routed m hm a ha

end Registry

-- =========================================================== sessions

/-- A session up to the start of its solve: network descriptions registered
in the empty registry, the constraints of a master indexed, and, with
whatever master there is by then, a successful start. -/
structure Session [EditableMaster μ] (ds : List Description)
    (unneeded : List String) (model : μ) (indexed : Problem μ) (s t : Solve μ) :
    Prop where
  indexes : ∃ k r j, Setup.addDescriptions ds {} = .ok k r
    ∧ Setup.indexConstraints unneeded ⟨r, model⟩ = .ok j indexed
  begins : s.problem.registry = indexed.registry
  start : Solve.start s = .ok () t

namespace Session

variable [EditableMaster μ] {ds : List Description} {unneeded : List String}
  {model : μ} {indexed : Problem μ} {s t u : Solve μ}

/-- After the indexing the registry is prepared. -/
theorem prepared_indexed (h : Session ds unneeded model indexed s t) :
    indexed.registry.Prepared := by
  obtain ⟨k, r, j, hds, hindex⟩ := h.indexes
  have hbuilt := Setup.built_of_addDescriptions Registry.built_empty hds
  exact Setup.indexConstraints_induction (fun _ c arcs hr _ =>
    hr.register c arcs) hbuilt.prepared hindex

/-- After the start the registry is prepared, and it stays so. -/
theorem prepared {f : ConstraintId → ConstraintId}
    (h : Session ds unneeded model indexed s t)
    (hf : Registry.Answers MasterProblem.transformedConstraint f
      s.problem.master)
    (hu : Solve.Later t u) : u.problem.registry.Prepared := by
  obtain ⟨hregistry, hpricer⟩ := Solve.start_renames hf h.start
  have hready : t.pricer.state ≠ .uninitialized := by
    rw [hpricer]
    exact nofun
  have hstarted : t.problem.registry.Prepared := by
    rw [hregistry, h.begins]
    exact h.prepared_indexed.renamed f
  exact hstarted.onward (hu.onward hready).2

/-- It is also reachable. -/
theorem reachable_indexed (h : Session ds unneeded model indexed s t) :
    indexed.registry.Reachable := by
  obtain ⟨k, r, j, hds, hindex⟩ := h.indexes
  have hbuilt := Setup.built_of_addDescriptions Registry.built_empty hds
  have hentries :
      ∀ (c : ConstraintId) (arcs : List (Arc × Float)) (r : Registry),
      r.Reachable → (r.addEntries c arcs).Reachable := by
    intro c arcs
    induction arcs with
    | nil => exact fun _ => id
    | cons e arcs ih => exact fun r hr => ih _ (hr.entry e.1 ⟨c, e.2⟩)
  exact Setup.indexConstraints_induction
    (fun r c arcs hr _ => (hentries c arcs r hr).constraint ⟨c, arcs⟩)
      hbuilt.reachable hindex

/-- A session leads to a registry that can be reached. -/
theorem reachable (h : Session ds unneeded model indexed s t) :
    t.problem.registry.Reachable := by
  obtain ⟨-, r', m', hremap, rfl⟩ := Solve.start_eq_ok.1 h.start
  have hreplaced :=
    (h.begins ▸ h.reachable_indexed).replace MasterProblem.transformedConstraint
    s.problem.master
  rw [Action.after_of_ok hremap] at hreplaced
  exact hreplaced

-- ================================================================ runs

/-- Runs a session, with a change of the master before the start, and tests
what it leads to. -/
def passes (ds : List Description) (unneeded : List String) (model : μ)
    (change : μ → μ) (test : Problem μ → Solve μ → Bool) : Bool :=
  Action.passes (Setup.addDescriptions ds) (fun _ r =>
    Action.passes (Setup.indexConstraints unneeded) (fun _ q =>
      Action.passes Solve.start (fun _ t => test q t)
        (Setup.solveOf { q with master := change q.master }))
      ⟨r, model⟩)
    {}

/-- A session that passes a test is one. -/
theorem exists_of_passes {change : μ → μ} {test : Problem μ → Solve μ → Bool}
    (h : passes ds unneeded model change test = true) :
    ∃ indexed t, Session ds unneeded model indexed
        (Setup.solveOf { indexed with master := change indexed.master }) t
      ∧ test indexed t = true := by
  obtain ⟨k, r, hds, h⟩ := Action.exists_of_passes h
  obtain ⟨j, q, hindex, h⟩ := Action.exists_of_passes h
  obtain ⟨⟨⟩, t, hstart, htest⟩ := Action.exists_of_passes h
  exact ⟨q, t, ⟨⟨k, r, j, hds, hindex⟩, rfl, hstart⟩, htest⟩

/-- A network of one arc, from its source to its sink. -/
def sampleDescription : Description where
  identifier := "graph_0"
  vertices :=
    [⟨1, ⟨0, 0, -2, -1, 0, false, 0⟩⟩, ⟨2, ⟨0, 0, 35, -1, 0, false, 0⟩⟩]
  edges := [⟨1, 2⟩]

/-- Two networks. The first has two routes, the second is a single arc. -/
def sampleDescriptions : List Description :=
  [{ identifier := "graph_1"
     vertices :=
       [⟨1, ⟨0, 0, -2, -1, 0, false, 1⟩⟩, ⟨2, ⟨0, 0, 0, 0, 2, false, 1⟩⟩,
         ⟨3, ⟨0, 0, 0, 0, 3, false, 1⟩⟩, ⟨4, ⟨0, 0, 35, -1, 0, false, 1⟩⟩]
     edges := [⟨1, 2⟩, ⟨1, 3⟩, ⟨2, 4⟩, ⟨3, 4⟩] },
   { identifier := "graph_2"
     vertices :=
       [⟨1, ⟨0, 0, -2, -1, 0, false, 2⟩⟩, ⟨2, ⟨0, 0, 35, -1, 0, false, 2⟩⟩]
     edges := [⟨1, 2⟩] }]

/-- Two constraints, each with arcs of both networks; in the first network
they are on different routes. -/
def sampleModel : MemoryMaster where
  rows :=
    [{ name := "cover", terms := [(⟨0⟩, 1.0), (⟨2⟩, 1.0)] },
     { name := "limit", terms := [(⟨1⟩, 2.0), (⟨2⟩, 1.0)] }]
  columns :=
    ["y(0|0|neg2|neg1|0|false|1,0|0|0|0|2|false|1)",
     "y(0|0|0|0|3|false|1,0|0|35|neg1|0|false|1)",
     "y(0|0|neg2|neg1|0|false|2,0|0|35|neg1|0|false|2)"].map fun name =>
      { name, lower := 0.0, upper := 1.0, objective := 0.0, committed := true }

/-- Dual values of the copies of two constraints. -/
def sampleDuals : Table ConstraintId Float := ⟨[(⟨2⟩, 1.0), (⟨3⟩, 1.5)]⟩

/-- A change of the master of which a record is kept. -/
def changeInner (f : MemoryMaster → MemoryMaster) (m : Recorded MemoryMaster) :
    Recorded MemoryMaster :=
  { m with inner := f m.inner }

/-- A solve whose master has these dual values. -/
def withDuals (s : Solve (Recorded MemoryMaster)) :
    Solve (Recorded MemoryMaster) :=
  { s with problem := { s.problem with
      master := changeInner (fun m => { m with duals := sampleDuals })
        s.problem.master } }

end Session

end FlowPricing
