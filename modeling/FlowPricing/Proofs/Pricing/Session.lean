/-
What can happen to a solve after it was set up. Rounds, whether they
succeed or fail, do two things to a registry: its networks go on by their
operations, and columns are recorded (`Registry.Onward`). The constraints,
the arc index and the routes of the arcs are never touched, nor is the
topology of any network.

`Solve.Later` is any number of such events: rounds, out-of-turn starts and
terminations, operations on the networks, and whatever the master does in
between.
-/
import FlowPricing.Proofs.Pricing.Solve

namespace FlowPricing

variable {μ α : Type}

-- ========================================================== registries

namespace Registry

/-- One thing that rounds do to a registry. -/
inductive Advance : Registry → Registry → Prop
  | operate {r : Registry} {ns : List Network}
      (h : List.Forall₂ Network.Later r.networks ns) :
      Advance r { r with networks := ns }
  | column (r : Registry) (name : String) (p : Path) :
      Advance r (r.recordColumn name p)

/-- What a registry becomes by any number of rounds. -/
def Onward : Registry → Registry → Prop := Relation.ReflTransGen Advance

instance : IsPreorder Registry Onward where
  refl _ := .refl
  trans _ _ _ := .trans

namespace Onward

variable {r r' : Registry}

/-- The constraints stay, and so does the arc index. -/
theorem keeps (h : Onward r r') :
    r'.constraints = r.constraints ∧ r'.index = r.index
      ∧ r'.fields = r.fields := by
  induction h with
  | refl => exact ⟨rfl, rfl, rfl⟩
  | tail _ hstep ih =>
      cases hstep with
      | operate _ => exact ih
      | column name p => exact ih

/-- What goes on network by network can go on once more. -/
theorem later_trans {ms ns ks : List Network}
    (h₁ : List.Forall₂ Network.Later ms ns)
    (h₂ : List.Forall₂ Network.Later ns ks) :
    List.Forall₂ Network.Later ms ks := by
  induction h₁ generalizing ks with
  | nil => exact h₂
  | cons h _ ih =>
      obtain ⟨k, ks', hk, hks, rfl⟩ := List.forall₂_cons_left_iff.1 h₂
      exact .cons (h.trans hk) (ih hks)

/-- The networks go on one by one. -/
theorem networks (h : Onward r r') :
    List.Forall₂ Network.Later r.networks r'.networks := by
  induction h with
  | refl => exact List.forall₂_same.2 fun n _ => .refl
  | tail _ hstep ih =>
      cases hstep with
      | operate hns => exact later_trans ih hns
      | column name p => exact ih

/-- Rounds lead from reachable registries to reachable ones. -/
theorem reachable (h : Onward r r') (hr : r.Reachable) : r'.Reachable := by
  induction h with
  | refl => exact hr
  | tail _ hstep ih =>
      cases hstep with
      | operate hns => exact ih.operate hns
      | column name p => exact ih.column name p

/-- They keep the networks sound. -/
theorem sound (h : Onward r r') (hr : r.Sound) : r'.Sound :=
  (hr.later h.networks).of_networks rfl

end Onward

/-- Acting on every network takes the registry onward, if it only does what
networks can do. -/
theorem moves_eachNetwork {ε β : Type} {f : Network → Except ε (β × Network)}
    (hf : ∀ n b n', f n = .ok (b, n') → Network.Later n n') :
    Action.Moves Onward (eachNetwork f) := by
  apply Action.moves_focus
  intro r
  obtain ⟨ns, hns, hall⟩ := Action.each_step_after f r.networks ()
  rw [hns]
  apply Relation.ReflTransGen.single
  apply Advance.operate
  refine hall.imp ?_
  rintro n n' (rfl | ⟨b, hb⟩)
  · exact .refl
  · exact hf n b n' hb

end Registry

-- =============================================================== rounds

namespace Round

/-- Setting all weights to zero is an operation of every network. -/
theorem onward_zeroWeights (r : Registry) :
    Registry.Onward r (zeroWeights r) := by
  apply Relation.ReflTransGen.single
  apply Registry.Advance.operate
  rw [List.forall₂_map_right_iff]
  exact List.forall₂_same.2 fun n _ => .single (.reset n)

/-- The registry of the problem goes onward. -/
abbrev Onward : Problem μ → Problem μ → Prop :=
  Action.Along Registry.Onward Problem.registry

/-- A call of the master leaves the registry alone. -/
theorem moves_onMaster (act : Action MasterError μ α) :
    Action.Moves Onward (Problem.onMaster act) :=
  Action.moves_focus fun _ => .refl

/-- An action on the registry takes the problem where it takes the registry.
-/
theorem moves_onRegistry {act : Action PricingError Registry α}
    (h : Action.Moves Registry.Onward act) :
    Action.Moves (Onward (μ := μ)) (Problem.onRegistry act) :=
  Action.moves_focus fun p => h p.registry

variable [MasterProblem μ]

section Phases

/-! A phase goes where its calls of the master and its changes of the
registry go. -/

variable {R : Problem μ → Problem μ → Prop} [IsPreorder (Problem μ) R]

/-- A constraint only reads its multiplier. -/
theorem moves_constraintChanges (tolerance : Float) (c : Constraint)
    (hread : Action.Moves R (Problem.onMaster (multiplier kind c.handle))) :
    Action.Moves R (constraintChanges kind tolerance c) := by
  unfold constraintChanges
  apply Action.moves_bind
  · unfold price
    apply Action.moves_bind hread
    intro value
    split
    · exact Action.moves_pure _
    · exact Action.moves_throw _
  · intro price
    split
    · exact Action.moves_pure _
    · apply Action.moves_get_bind
      exact fun p => Action.moves_ofExcept _ p

/-- The weights are made by reads of the master and one change of the
registry. -/
theorem moves_reweight_of (tolerance : Float)
    (hread : ∀ c, Action.Moves R (Problem.onMaster (multiplier kind c)))
    (hchange : ∀ ws, Action.Moves R (Problem.onRegistry (applyChanges ws))) :
    Action.Moves R (reweight kind tolerance) := by
  unfold reweight
  apply Action.moves_get_bind
  intro p
  have hchanges : Action.Moves R
      (p.registry.constraints.mapM (constraintChanges kind tolerance)) :=
    Action.moves_mapM (fun c =>
      moves_constraintChanges tolerance c (hread c.handle)) _
  exact Action.moves_bind hchanges (fun changes => hchange changes.flatten) p

/-- Columns are made by three calls of the master and a record in the
registry. -/
theorem moves_addColumns_of
    (hcreate : ∀ name, Action.Moves R
      (Problem.onMaster
        (MasterProblem.addPricedVariable name 0.0 Weight.infinity 0.0)))
    (hcoefficient : ∀ c v x,
      Action.Moves R (Problem.onMaster (MasterProblem.addCoefficient c v x)))
    (hcommit : ∀ v,
      Action.Moves R (Problem.onMaster (MasterProblem.commitVariable v)))
    (hrecord : ∀ name path,
      Action.Moves R (Problem.modifyRegistry (·.recordColumn name path)))
    (tolerance : Float) (first : Nat) (chosen : List Path) :
    Action.Moves R (addColumns tolerance first chosen) := by
  have hcoefficients : ∀ v path, Action.Moves R (addCoefficients v path) := by
    intro v path
    unfold addCoefficients
    apply Action.moves_forM
    intro a
    apply Action.moves_get_bind
    intro p
    exact Action.moves_forM (fun e : IndexEntry =>
      hcoefficient e.handle v e.coefficient) _ p
  unfold addColumns
  refine Action.moves_bind (Action.moves_mapM (fun x => ?_) _) fun _ =>
    Action.moves_pure _
  unfold addColumn
  split
  · refine Action.moves_bind (hcreate _) fun v => ?_
    refine Action.moves_bind (hcoefficients v x.1) fun _ => ?_
    refine Action.moves_bind (hcommit v) fun _ => ?_
    exact Action.moves_bind (hrecord _ _) fun _ => Action.moves_pure _
  · exact Action.moves_pure _

end Phases

/-- Changes of weights take the registry onward, even if they break off. -/
theorem moves_applyChanges (changes : List WeightChange) :
    Action.Moves Registry.Onward (applyChanges changes) := by
  unfold applyChanges
  apply Action.moves_bind
  · apply Registry.moves_eachNetwork
    intro n b n' h
    cases hn : n.addWeights (changesOf changes n.group) with
    | ok m =>
        rw [hn] at h
        obtain ⟨-, rfl⟩ := Prod.mk.inj (Except.ok.inj h)
        exact .single (.addMany _ hn)
    | error e =>
        rw [hn] at h
        exact nomatch h
  · exact fun _ => Action.moves_pure _

/-- So do the prices of all constraints. -/
theorem moves_reweight (kind : PricingKind) (tolerance : Float) :
    Action.Moves (Onward (μ := μ)) (reweight kind tolerance) :=
  moves_reweight_of tolerance (fun _ => moves_onMaster _)
    fun ws => moves_onRegistry (moves_applyChanges ws)

/-- Asking for paths is an operation of every network. -/
theorem moves_shortestPaths : Action.Moves Registry.Onward shortestPaths := by
  apply Registry.moves_eachNetwork
  intro n p n' h
  cases hn : n.shortestPath with
  | ok x =>
      rw [hn] at h
      obtain rfl := Except.ok.inj h
      exact .single (.ask p hn)
  | error e =>
      rw [hn] at h
      exact nomatch h

/-- Adding columns takes the registry onward, however it ends. -/
theorem moves_addColumns (tolerance : Float) (first : Nat)
    (chosen : List Path) :
    Action.Moves (Onward (μ := μ)) (addColumns tolerance first chosen) :=
  moves_addColumns_of (fun _ => moves_onMaster _)
    (fun _ _ _ => moves_onMaster _) (fun _ => moves_onMaster _)
    (fun name path =>
      Action.moves_modify fun _ => .single (.column _ name path))
    tolerance first chosen

section Master

/-! Beside the registry, a phase does to the master what its calls do. -/

variable {Q : μ → μ → Prop} [IsPreorder μ Q]

omit [MasterProblem μ] [IsPreorder μ Q] in
/-- A call does to the master of a problem what it does to a master. -/
theorem along_onMaster {act : Action MasterError μ α} (h : Action.Moves Q act) :
    Action.Moves (Action.Along Q Problem.master) (Problem.onMaster act) := by
  apply Action.moves_focus
  intro p
  rw [Action.after_mapError]
  exact h p.master

omit [MasterProblem μ] in
/-- An action on the registry leaves the master alone. -/
theorem along_onRegistry (act : Action PricingError Registry α) :
    Action.Moves (Action.Along Q (Problem.master (μ := μ)))
      (Problem.onRegistry act) :=
  Action.moves_focus fun p => refl_of Q p.master

end Master

end Round

namespace Solve

/-- Letting an operation through or refusing it changes nothing. -/
theorem moves_require {R : Solve μ → Solve μ → Prop} [IsPreorder (Solve μ) R]
    (op : PricerOperation) (allowed : PricerState → Bool) :
    Action.Moves R (require op allowed) := by
  unfold require
  apply Action.moves_get_bind
  intro s
  simp only
  split
  · exact Action.moves_pure (R := R) _ s
  · exact Action.moves_throw (R := R) _ s

/-- What rounds do to a solve: the registry goes onward, and the pricer
stays in its state. -/
structure Onward (s t : Solve μ) : Prop where
  registry : Registry.Onward s.problem.registry t.problem.registry
  state : t.pricer.state = s.pricer.state

instance : IsPreorder (Solve μ) Onward where
  refl _ := ⟨.refl, rfl⟩
  trans _ _ _ h₁ h₂ := ⟨h₁.registry.trans h₂.registry, h₂.state.trans h₁.state⟩

/-- An action on the problem takes the solve where it takes the registry. -/
theorem moves_onProblem {act : Action PricingError (Problem μ) α}
    (h : Action.Moves Round.Onward act) : Action.Moves Onward (onProblem act) :=
  Action.moves_focus fun s => ⟨h s.problem, rfl⟩

/-- A change of the pricer that keeps its state takes the solve nowhere
else. -/
theorem moves_modifyPricer {f : Pricer → Pricer}
    (h : ∀ p, (f p).state = p.state) :
    Action.Moves (Onward (μ := μ)) (modifyPricer f) :=
  Action.moves_modify fun s => ⟨.refl, h s.pricer⟩

variable [MasterProblem μ]

/-- A round, whether it succeeds or fails, takes the solve onward. -/
theorem moves_price (kind : PricingKind) :
    Action.Moves (Onward (μ := μ)) (price kind) := by
  unfold price
  refine Action.moves_bind (moves_require _ _) fun _ => ?_
  apply Action.moves_get_bind
  intro s
  refine Action.moves_bind (moves_onProblem ?_) (fun _ => ?_) s
  · apply Action.moves_modify
    intro p
    exact Round.onward_zeroWeights p.registry
  apply Action.moves_bind (moves_onProblem (Round.moves_reweight _ _))
  intro _
  apply Action.moves_bind
    (moves_onProblem (Round.moves_onRegistry Round.moves_shortestPaths))
  intro candidates
  refine Action.moves_bind (moves_modifyPricer ?_) fun _ => ?_
  · exact fun _ => rfl
  apply Action.moves_bind (moves_onProblem (Round.moves_addColumns _ _ _))
  intro columns
  refine Action.moves_bind (moves_modifyPricer ?_) fun _ => Action.moves_pure _
  exact fun _ => rfl

omit [MasterProblem μ] in
/-- An action on the problem does to the master of a solve what it does to
the problem's. -/
theorem along_onProblem {Q : μ → μ → Prop} [IsPreorder μ Q]
    {act : Action PricingError (Problem μ) α}
    (h : Action.Moves (Action.Along Q Problem.master) act) :
    Action.Moves (Action.Along Q fun s : Solve μ => s.problem.master)
      (onProblem act) :=
  Action.moves_focus fun s => h s.problem

/-- To the master, a round does what its calls do, whether it succeeds or
fails. -/
theorem along_price {Q : μ → μ → Prop} [IsPreorder μ Q] {kind : PricingKind}
    (hread : ∀ c, Action.Moves Q (Round.multiplier kind c))
    (hcreate : ∀ name, Action.Moves Q
      (MasterProblem.addPricedVariable name 0.0 Weight.infinity 0.0))
    (hcoefficient : ∀ c v x,
      Action.Moves Q (MasterProblem.addCoefficient c v x))
    (hcommit : ∀ v, Action.Moves Q (MasterProblem.commitVariable v)) :
    Action.Moves (Action.Along Q fun s : Solve μ => s.problem.master)
      (price kind) := by
  have hpricer : ∀ f, Action.Moves (Action.Along Q fun s : Solve μ =>
      s.problem.master)
      (modifyPricer f) := fun f => Action.moves_modify fun s =>
        refl_of Q s.problem.master
  unfold price
  refine Action.moves_bind (moves_require _ _) fun _ => ?_
  apply Action.moves_get_bind
  intro s
  refine Action.moves_bind (along_onProblem ?_) (fun _ => ?_) s
  · exact Action.moves_modify fun p => refl_of Q p.master
  refine Action.moves_bind (along_onProblem ?_) fun _ => ?_
  · exact Round.moves_reweight_of _ (fun c => Round.along_onMaster (hread c))
      fun _ => Round.along_onRegistry _
  apply Action.moves_bind (along_onProblem (Round.along_onRegistry _))
  intro candidates
  refine Action.moves_bind (hpricer _) fun _ => ?_
  refine Action.moves_bind (along_onProblem ?_) fun columns => ?_
  · exact Round.moves_addColumns_of (fun name =>
      Round.along_onMaster (hcreate name))
      (fun c v x => Round.along_onMaster (hcoefficient c v x))
      (fun v => Round.along_onMaster (hcommit v))
      (fun _ _ => Action.moves_modify fun p => refl_of Q p.master) _ _ _
  exact Action.moves_bind (hpricer _) fun _ => Action.moves_pure _

/-- A pricer that was started cannot be started again: the attempt changes
nothing. -/
theorem after_start {s : Solve μ} (h : s.pricer.state ≠ .uninitialized) :
    Action.after start s = s := by
  unfold start
  rw [Action.after_bind, require_of_false (by simpa using h)]

omit [MasterProblem μ] in
/-- Ending a solve touches only the pricer, and does not make it new. -/
theorem after_terminate (s : Solve μ) :
    (Action.after terminate s).problem = s.problem
      ∧ (s.pricer.state ≠ .uninitialized →
          (Action.after terminate s).pricer.state ≠ .uninitialized) := by
  unfold terminate
  rw [Action.after_bind]
  cases hallowed : s.pricer.state != .terminated with
  | true =>
      have hpass : require .terminate (· != .terminated) s = .ok () s :=
        require_eq_ok.2 ⟨hallowed, rfl⟩
      rw [hpass]
      exact ⟨rfl, fun _ => nofun⟩
  | false =>
      rw [require_of_false hallowed]
      exact ⟨rfl, id⟩

-- ============================================================== events

/-- What a solve becomes by any number of events after it was set up. -/
inductive Later (s : Solve μ) : Solve μ → Prop
  | refl : Later s s
  | round {t : Solve μ} (kind : PricingKind) (h : Later s t) :
      Later s (Action.after (price kind) t)
  | start {t : Solve μ} (h : Later s t) : Later s (Action.after start t)
  | terminate {t : Solve μ} (h : Later s t) : Later s (Action.after terminate t)
  | master {t : Solve μ} (m : μ) (h : Later s t) :
      Later s { t with problem := { t.problem with master := m } }
  | advance {t : Solve μ} {r : Registry}
      (hr : Registry.Advance t.problem.registry r)
      (h : Later s t) :
        Later s { t with problem := { t.problem with registry := r } }

/-- Whatever happens after the start, the registry only goes onward. -/
theorem Later.onward {s t : Solve μ} (hs : s.pricer.state ≠ .uninitialized)
    (h : Later s t) :
    t.pricer.state ≠ .uninitialized
      ∧ Registry.Onward s.problem.registry t.problem.registry := by
  induction h with
  | refl => exact ⟨hs, .refl⟩
  | @round t kind _ ih =>
      have hmove := moves_price kind t
      exact ⟨hmove.state ▸ ih.1, ih.2.trans hmove.registry⟩
  | start _ ih =>
      rw [after_start ih.1]
      exact ih
  | @terminate t _ ih =>
      obtain ⟨hproblem, hstate⟩ := after_terminate t
      rw [hproblem]
      exact ⟨hstate ih.1, ih.2⟩
  | master m _ ih => exact ih
  | advance hr _ ih => exact ⟨ih.1, ih.2.tail hr⟩

end Solve

end FlowPricing
