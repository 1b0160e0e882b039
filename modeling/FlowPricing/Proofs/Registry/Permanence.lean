/-
What a registry has once, it has for good. Whatever is done to a registry,
and however that ends, its networks stay under their groups, changed by their
own operations at most; its routes stay; and every constraint keeps its place,
its arcs and their coefficients (`Registry.Upholds`). Only handles are ever
replaced, and only weights change.

All operations of a registry are a step (`Registry.Change`), and each upholds
what is there, its failures included (`Change.upholds`): networks are entered
under new groups only, routes under new fields, constraints at the end.
-/
import FlowPricing.Master.Memory
import FlowPricing.Proofs.Network.Ledger
import FlowPricing.Proofs.Setup.Networks
import FlowPricing.Proofs.Pricing.Session

namespace FlowPricing

open Relation (ReflTransGen)

namespace Registry

variable {r r' r'' : Registry} {ε σ : Type}

-- ================================================== what is never lost

theorem Extends.refl (fields : Table Int32 Int32) : Extends fields fields :=
  fun _ _ h => h

theorem Extends.trans {fields fields' fields'' : Table Int32 Int32}
    (h : Extends fields fields') (h' : Extends fields' fields'') :
    Extends fields fields'' := fun k g hk => h' k g (h k g hk)

/-- From `r` to `r'` nothing was lost: the networks have at most gone on by
their operations, the routes are still there, and so are the constraints in
their places, with their arcs and coefficients. -/
structure Upholds (r r' : Registry) : Prop where
  networks : ∀ n ∈ r.networks, ∃ n' ∈ r'.networks, Network.Later n n'
  fields : Extends r.fields r'.fields
  constraints : r.constraints.map Constraint.arcs
    <+: r'.constraints.map Constraint.arcs
  sound : r.Sound → r'.Sound

instance : IsPreorder Registry Upholds where
  refl r := ⟨fun n hn => ⟨n, hn, .refl⟩, .refl _, List.prefix_refl _, id⟩
  trans r r' r'' h h' := by
    refine ⟨?_, h.fields.trans h'.fields, h.constraints.trans h'.constraints,
      h'.sound ∘ h.sound⟩
    intro n hn
    obtain ⟨n', hn', hlater⟩ := h.networks n hn
    obtain ⟨n'', hn'', hlater'⟩ := h'.networks n' hn'
    exact ⟨n'', hn'', hlater.trans hlater'⟩

/-- Other networks in the place of the old ones, after their own operations. -/
theorem upholds_of_later {ns : List Network}
    (h : List.Forall₂ Network.Later r.networks ns) :
    Upholds r { r with networks := ns } where
  networks := fun _ hn => Action.exists_of_mem_left h hn
  fields := .refl _
  constraints := List.prefix_refl _
  sound := fun hr => hr.later h

/-- Networks and routes as they were. -/
theorem upholds_of_constraints (hnetworks : r'.networks = r.networks)
    (hfields : r'.fields = r.fields)
    (hconstraints : r.constraints.map Constraint.arcs
      <+: r'.constraints.map Constraint.arcs) :
    Upholds r r' where
  networks := by
    rw [hnetworks]
    exact fun n hn => ⟨n, hn, .refl⟩
  fields := by
    rw [hfields]
    exact .refl _
  constraints := hconstraints
  sound := fun hr => hr.of_networks hnetworks

/-- Rounds lose nothing. -/
theorem Onward.upholds (h : Onward r r') : Upholds r r' := by
  obtain ⟨hconstraints, -, hfields⟩ := h.keeps
  exact {
    networks := fun _ hn => Action.exists_of_mem_left h.networks hn
    fields := by
      rw [hfields]
      exact .refl _
    constraints := by
      rw [hconstraints]
    sound := h.sound }

-- ========================================================== operations

/-- A new network displaces none. -/
theorem upholds_addNetwork {n : Network} (hn : n.Sound) :
    Action.Moves Upholds (addNetwork n) := by
  unfold addNetwork
  apply Action.moves_get_bind
  intro r
  cases hgroup : (r.network? n.group).isSome with
  | true => exact refl_of Upholds r
  | false =>
      show Upholds r { r with networks := enter n r.networks }
      exact {
        networks := fun m hm => ⟨m, mem_enter.2 (.inr hm), .refl⟩
        fields := .refl _
        constraints := List.prefix_refl _
        sound := fun hr => hr.enter hn hgroup }

/-- A route is added, or the attempt fails; none is redirected. -/
theorem upholds_addArc (group : Int32) (a : Arc) :
    Action.Moves Upholds (addArc group a) := by
  unfold addArc
  apply Action.moves_get_bind
  intro r
  simp only
  split
  · split
    · exact refl_of Upholds r
    · exact refl_of Upholds r
  · next hnew =>
      refine ⟨fun m hm => ⟨m, hm, .refl⟩, ?_, List.prefix_refl _, fun hr =>
        hr.of_networks rfl⟩
      intro k g hk
      have hne : a.source.network ≠ k := by
        intro heq
        rw [heq, hk] at hnew
        cases hnew
      show (r.fields.insert a.source.network group).get? k = some g
      rw [Table.get?_insert, if_neg hne]
      exact hk

theorem upholds_addArcs (group : Int32) (arcs : List Arc) :
    Action.Moves Upholds (addArcs group arcs) :=
  Action.moves_forM (upholds_addArc group) arcs

/-- Replacing handles leaves the arcs of the constraints alone, however it
ends. -/
theorem leaves_arcs_remap (f : ConstraintId → Action ε σ ConstraintId) :
    Action.Leaves (fun s : Registry × σ => s.1.constraints.map Constraint.arcs)
      (remap f) := by
  unfold remap
  apply Action.moves_bind
  · have hone : Action.Leaves (fun s : Constraint × σ => s.1.arcs)
        ((remapHandle f).focus (fun s => (s.1.handle, s.2)) fun s t =>
          ({ s.1 with handle := t.1 }, t.2)) :=
      Action.moves_focus fun _ => rfl
    unfold remapConstraints
    refine Action.moves_bind (Action.moves_focus fun s => ?_) fun _ =>
      Action.moves_pure _
    exact Action.leaves_each hone (s.1.constraints, s.2)
  · intro _
    unfold remapIndex
    exact Action.moves_bind (Action.moves_focus fun _ => rfl) fun _ =>
      Action.moves_pure _

/-- Replacing handles keeps the arcs and coefficients of all constraints. -/
theorem upholds_remap (f : ConstraintId → Action ε σ ConstraintId) (s : σ) :
    Upholds r ((remap f).after (r, s)).1 := by
  have hrest : ((remap f).after (r, s)).1.withoutHandles = r.withoutHandles :=
    leaves_remap f (r, s)
  have harcs : ((remap f).after (r, s)).1.constraints.map Constraint.arcs
      = r.constraints.map Constraint.arcs := leaves_arcs_remap f (r, s)
  have hnetworks := congrArg Registry.networks hrest
  have hfields := congrArg Registry.fields hrest
  exact upholds_of_constraints hnetworks hfields (harcs ▸ List.prefix_refl _)

end Registry

namespace Setup

open Registry (Upholds upholds_addNetwork upholds_addArcs)

/-- A description adds a network and routes, as far as it gets. -/
theorem upholds_addDescription (d : Description) :
    Action.Moves Upholds (addDescription d) := by
  unfold addDescription
  cases hd : Network.ofDescription d with
  | error e => exact Action.moves_throw _
  | ok n =>
      exact Action.moves_bind
        (Action.moves_mapError _
          (upholds_addNetwork (Network.sound_of_ofDescription hd)))
        fun _ => Action.moves_mapError _ (upholds_addArcs _ _)

theorem upholds_addDescriptions (ds : List Description) :
    Action.Moves Upholds (addDescriptions ds) := by
  unfold addDescriptions
  split
  · exact Action.moves_bind (Action.moves_throw _) fun _ =>
      Action.moves_bind (Action.moves_forM upholds_addDescription ds) fun _ =>
        Action.moves_get_bind fun r => refl_of Upholds r
  · exact Action.moves_bind (Action.moves_forM upholds_addDescription ds)
      fun _ =>
      Action.moves_get_bind fun r => refl_of Upholds r

end Setup

namespace Registry

-- ================================================================ runs

/-- One thing that is done to a registry, whether it succeeds or fails. -/
inductive Change : Registry → Registry → Prop
  | build {r : Registry} (ds : List Description) :
      Change r ((Setup.addDescriptions ds).after r)
  | network {r : Registry} {n : Network} (hn : n.Reachable) :
      Change r ((addNetwork n).after r)
  | route {r : Registry} (group : Int32) (arcs : List Arc) :
      Change r ((addArcs group arcs).after r)
  | constraint {r : Registry} (c : Constraint) : Change r (r.addConstraint c)
  | entry {r : Registry} (a : Arc) (e : IndexEntry) : Change r (r.addEntry a e)
  | replace {r : Registry} {ε σ : Type}
      (f : ConstraintId → Action ε σ ConstraintId) (s : σ) :
      Change r ((remap f).after (r, s)).1
  | column {r : Registry} (name : String) (p : Path) :
      Change r (r.recordColumn name p)
  | weigh {r : Registry} {ns : List Network}
      (h : List.Forall₂ Network.Later r.networks ns) :
      Change r { r with networks := ns }
  | round {r : Registry} {μ : Type} [MasterProblem μ]
      (kind : PricingKind) (m : μ)
      (pricer : Pricer) :
      Change r (Action.after (Solve.price kind)
        ⟨⟨r, m⟩, pricer⟩).problem.registry

/-- Nothing that is done to a registry loses anything. -/
theorem Change.upholds (h : Change r r') : Upholds r r' := by
  cases h with
  | build ds => exact Setup.upholds_addDescriptions ds r
  | network hn => exact upholds_addNetwork hn.sound r
  | route group arcs => exact upholds_addArcs group arcs r
  | constraint c =>
      refine upholds_of_constraints rfl rfl ?_
      show _ <+: (r.constraints ++ [c]).map Constraint.arcs
      rw [List.map_append]
      exact List.prefix_append _ _
  | entry a e => exact upholds_of_constraints rfl rfl (List.prefix_refl _)
  | replace f s => exact upholds_remap f s
  | column name p => exact upholds_of_constraints rfl rfl (List.prefix_refl _)
  | weigh hns => exact upholds_of_later hns
  | round kind m pricer =>
      exact (Solve.moves_price kind ⟨⟨r, m⟩, pricer⟩).registry.upholds

/-- What every change upholds, any number of them does. -/
theorem upholds_of_changes (h : ReflTransGen Change r r') : Upholds r r' := by
  induction h with
  | refl => exact refl_of Upholds r
  | tail _ hchange ih => exact trans_of Upholds ih hchange.upholds

/-- A registry that began empty is sound. -/
theorem sound_of_changes (h : ReflTransGen Change {} r) : r.Sound :=
  (upholds_of_changes h).sound Reachable.empty.sound

/-- A network is found again under its group. -/
theorem Upholds.network (h : Upholds r r') (hr : r.Sound) {g : Int32}
    {n : Network} (hn : r.network g = .ok n) :
    ∃ n', r'.network g = .ok n' ∧ n'.topology = n.topology
      ∧ Network.Later n n' := by
  obtain ⟨n', hn', hlater⟩ := h.networks n (mem_of_network hn)
  obtain ⟨-, htopology⟩ := hlater.sound (hr.networks n (mem_of_network hn))
  have hgroup : n'.group = g :=
    (congrArg Topology.group htopology).trans (group_of_network hn)
  rw [← hgroup]
  exact ⟨n', (h.sound hr).network_eq_ok hn', htopology, hlater⟩

/-- An arc is routed to the same network again. -/
theorem Upholds.networkOfArc (h : Upholds r r') (hr : r.Sound) {a : Arc}
    {n : Network} (hn : r.networkOfArc a = .ok n) :
    ∃ n', r'.networkOfArc a = .ok n' ∧ n'.topology = n.topology
      ∧ Network.Later n n' := by
  unfold Registry.networkOfArc at hn ⊢
  cases hf : r.fields.get? a.source.network with
  | none =>
      rw [hf] at hn
      exact nomatch hn
  | some g =>
      rw [hf] at hn
      rw [h.fields _ g hf]
      exact h.network hr hn

/-- A constraint keeps its place, its arcs and their coefficients. -/
theorem Upholds.constraint (h : Upholds r r') {i : Nat} {c : Constraint}
    (hc : r.constraints[i]? = some c) :
    ∃ c', r'.constraints[i]? = some c' ∧ c'.arcs = c.arcs := by
  have harcs : (r.constraints.map Constraint.arcs)[i]? = some c.arcs := by
    rw [List.getElem?_map, hc]
    rfl
  obtain ⟨later, hlater⟩ := h.constraints
  have hkept : (r'.constraints.map Constraint.arcs)[i]? = some c.arcs := by
    rw [← hlater, List.getElem?_append_left
      (List.getElem?_eq_some_iff.1 harcs).1]
    exact harcs
  rw [List.getElem?_map] at hkept
  exact Option.map_eq_some_iff.1 hkept

/-- A registry never re-routes. Whatever is done to an empty registry, and
whatever of it fails: its networks ascend by their groups, and each is found
under its own; and whatever is done to it after that, a network that was found
under a group or for an arc is found there again, with its topology, and went
on by its own operations at most; and every constraint keeps its place, its
arcs and their coefficients. -/
theorem permanent (hr : ReflTransGen Change {} r)
    (h : ReflTransGen Change r r') :
    (r.networks.Pairwise fun m n => m.group < n.group)
      ∧ (∀ n ∈ r.networks, r.network n.group = .ok n)
      ∧ (∀ g n, r.network g = .ok n → n.group = g ∧ n ∈ r.networks
          ∧ ∃ n', r'.network g = .ok n' ∧ n'.topology = n.topology
            ∧ Network.Later n n')
      ∧ (∀ a n, r.networkOfArc a = .ok n →
          ∃ n', r'.networkOfArc a = .ok n' ∧ n'.topology = n.topology
            ∧ Network.Later n n')
      ∧ (∀ (i : Nat) c, r.constraints[i]? = some c →
          ∃ c', r'.constraints[i]? = some c' ∧ c'.arcs = c.arcs) := by
  have hsound := sound_of_changes hr
  have hupholds := upholds_of_changes h
  refine ⟨hsound.ascending, fun n hn => hsound.network_eq_ok hn, ?_, ?_, ?_⟩
  · intro g n hn
    exact ⟨group_of_network hn, mem_of_network hn, hupholds.network hsound hn⟩
  · exact fun a n hn => hupholds.networkOfArc hsound hn
  · exact fun i c hc => hupholds.constraint hc

/-- The diamond, with a constraint on one of its arcs. -/
def sampleRegistry : Registry :=
  ((Setup.addDescriptions [Network.sampleDiamond]).after {}).addConstraint
    ⟨⟨0⟩, [(Network.sampleArcs.1, 2.0)]⟩

/-- The diamond is refused a second time, and so is another group for its
arcs; then handles are replaced, until that fails. -/
def sampleRefusals : Registry :=
  let again :=
    (Setup.addDescriptions [Network.sampleDiamond]).after sampleRegistry
  let routed := (addArcs 7 [Network.sampleArcs.1]).after
    (again.addEntry Network.sampleArcs.1 ⟨⟨0⟩, 2.0⟩)
  let answer (c : ConstraintId) : Action Unit Nat ConstraintId := do
    set ((← get) + 1)
    if (← get) = 1 then return ⟨c.val + 1⟩ else throw ()
  ((remap answer).after (routed, 0)).1

/-- A master with two constraints; the second has a dual value. -/
def sampleMaster : MemoryMaster where
  rows := [{ name := "" }, { name := "", modifiable := true }]
  duals := ⟨[(⟨1⟩, 3.0)]⟩

/-- A round with this master. -/
def samplePriced : Registry :=
  (Action.after (Solve.price .reducedCost)
    ⟨⟨sampleRefusals, sampleMaster⟩,
      { selection := .full, tolerance := 0.0, state := .ready }⟩
    ).problem.registry

/-- After two refusals, half of a replacement and a round that fails with its
column, the arc is still routed to the diamond, which now has other weights. -/
theorem permanent_sample :
    ∃ n n' c, sampleRegistry.networkOfArc Network.sampleArcs.1 = .ok n
      ∧ samplePriced.networkOfArc Network.sampleArcs.1 = .ok n'
      ∧ n'.topology = n.topology ∧ Network.Later n n'
      ∧ n.weight Network.sampleArcs.1 = .ok 0.0
      ∧ n'.weight Network.sampleArcs.1 = .ok (-6.0)
      ∧ samplePriced.constraints[0]? = some c ∧ c.handle = ⟨1⟩
      ∧ c.arcs = [(Network.sampleArcs.1, 2.0)] := by
  have hbegun : ReflTransGen Change {} sampleRegistry :=
    (ReflTransGen.refl.tail (.build _)).tail (.constraint _)
  have hrefused : ReflTransGen Change sampleRegistry sampleRefusals :=
    (((ReflTransGen.refl.tail (.build _)).tail (.entry _ _)).tail
      (.route _ _)).tail (.replace _ 0)
  obtain ⟨-, -, -, hroutes, hconstraints⟩ :=
    permanent hbegun (hrefused.tail (.round .reducedCost sampleMaster _))
  have hbefore :
      Action.yields (sampleRegistry.networkOfArc Network.sampleArcs.1)
      (fun n => decide (n.weight Network.sampleArcs.1 = .ok 0.0)) = true := by
    decide +kernel
  have hafter : Action.yields (samplePriced.networkOfArc Network.sampleArcs.1)
      (fun n => decide (n.weight Network.sampleArcs.1 = .ok (-6.0)))
        = true := by
    decide +kernel
  have hhandles : samplePriced.constraints.map Constraint.handle = [⟨1⟩] := by
    decide +kernel
  obtain ⟨n, hn, hbefore⟩ := Action.exists_of_yields hbefore
  obtain ⟨m, hm, hafter⟩ := Action.exists_of_yields hafter
  obtain ⟨n', hn', htopology, hlater⟩ := hroutes _ n hn
  obtain rfl := Except.ok.inj (hn'.symm.trans hm)
  obtain ⟨c, hc, harcs⟩ := hconstraints 0 ⟨⟨0⟩, [(Network.sampleArcs.1, 2.0)]⟩
    (by decide +kernel)
  have hhandle : (samplePriced.constraints.map Constraint.handle)[0]?
      = some c.handle := by
    rw [List.getElem?_map]
    exact congrArg (Option.map Constraint.handle) hc
  rw [hhandles] at hhandle
  exact ⟨n, n', c, hn, hn', htopology, hlater, of_decide_eq_true hbefore,
    of_decide_eq_true hafter, hc, (Option.some.inj hhandle).symm, harcs⟩

end Registry

end FlowPricing
