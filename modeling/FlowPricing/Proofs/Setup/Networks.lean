/-
What registering network descriptions leaves in an empty registry
(`Registry.Built`): networks that started from descriptions, in ascending
order of their groups, with every arc routed to the network it belongs to,
and no constraints yet.
-/
import FlowPricing.Setup.Networks
import FlowPricing.Proofs.Registry.Reachable

namespace FlowPricing

namespace Registry

variable {r r' : Registry} {u : Unit}

/-- Every arc is routed to the network it belongs to. -/
def Routed (r : Registry) : Prop :=
  ∀ n ∈ r.networks, ∀ a ∈ n.topology.arcs, r.fields.get? a.source.network
    = some n.group

/-- Routes are only ever added. -/
def Extends (fields fields' : Table Int32 Int32) : Prop :=
  ∀ k g, fields.get? k = some g → fields'.get? k = some g

/-- Routing an arc adds its route, if it is not there. -/
theorem addArc_spec {group : Int32} {a : Arc}
    (h : addArc group a r = .ok u r') :
    ∃ fields, r' = { r with fields } ∧ Extends r.fields fields
      ∧ fields.get? a.source.network = some group := by
  unfold addArc at h
  rw [Action.get_bind] at h
  cases hf : r.fields.get? a.source.network with
  | some existing =>
      simp only [hf] at h
      split at h
      · next heq =>
          obtain ⟨-, rfl⟩ := Action.pure_eq_ok.1 h
          exact ⟨r.fields, rfl, fun _ _ hk => hk, heq ▸ hf⟩
      · exact absurd h Action.throw_ne_ok
  | none =>
      simp only [hf] at h
      cases h
      refine ⟨_, rfl, ?_, ?_⟩
      · intro k g hk
        have hne : a.source.network ≠ k := by
          intro heq
          rw [heq, hk] at hf
          cases hf
        rw [Table.get?_insert, if_neg hne]
        exact hk
      · rw [Table.get?_insert, if_pos rfl]

/-- Routing arcs adds a route for each of them. -/
theorem addArcs_spec {group : Int32} {arcs : List Arc}
    (h : addArcs group arcs r = .ok u r') :
    ∃ fields, r' = { r with fields } ∧ Extends r.fields fields
      ∧ ∀ a ∈ arcs, fields.get? a.source.network = some group := by
  unfold addArcs at h
  induction arcs generalizing r with
  | nil =>
      obtain rfl := Action.forM_nil_eq_ok.1 h
      exact ⟨r.fields, rfl, fun _ _ hk => hk, fun a ha =>
        absurd ha List.not_mem_nil⟩
  | cons a arcs ih =>
      obtain ⟨r₁, ha, harcs⟩ := Action.forM_cons_eq_ok.1 h
      obtain ⟨fields₁, rfl, hext₁, hroute⟩ := addArc_spec ha
      obtain ⟨fields₂, rfl, hext₂, hall⟩ := ih harcs
      refine ⟨fields₂, rfl, fun k g hk => hext₂ k g (hext₁ k g hk), ?_⟩
      intro b hb
      rcases List.mem_cons.1 hb with rfl | hb
      · exact hext₂ _ _ hroute
      · exact hall b hb

/-- A registry that only holds networks, each with its arcs routed to it. -/
structure Built (r : Registry) : Prop where
  reachable : r.Reachable
  routed : r.Routed
  constraints : r.constraints = []
  index : r.index = .empty

theorem built_empty : Built {} :=
  ⟨.empty, fun _ hn => absurd hn List.not_mem_nil, rfl, rfl⟩

end Registry

namespace Setup

open Registry (Built)

variable {r r' : Registry}

/-- A description that is added leaves the registry built. -/
theorem built_of_addDescription {d : Description} {u : Unit} (hr : r.Built)
    (h : addDescription d r = .ok u r') : r'.Built := by
  unfold addDescription at h
  cases hd : Network.ofDescription d with
  | error e =>
      simp only [hd] at h
      exact absurd h Action.throw_ne_ok
  | ok n =>
      simp only [hd] at h
      obtain ⟨_, r₁, hadd, harcs⟩ := Action.bind_eq_ok.1 h
      have hadd' := Action.mapError_eq_ok.1 hadd
      have harcs' := Action.mapError_eq_ok.1 harcs
      have hreach : r'.Reachable := by
        have hroute : Registry.Reachable
            ((Registry.addArcs n.group n.topology.arcs).after r₁) :=
          .route _ _ (.register hr.reachable ⟨d, n, hd, .refl⟩ hadd')
        rwa [Action.after_of_ok harcs'] at hroute
      obtain ⟨-, rfl⟩ := Registry.addNetwork_eq_ok.1 hadd'
      obtain ⟨fields, rfl, hext, hall⟩ := Registry.addArcs_spec harcs'
      refine ⟨hreach, ?_, hr.constraints, hr.index⟩
      intro m hm a ha
      rcases Registry.mem_enter.1 hm with rfl | hm
      · exact hall a ha
      · exact hext _ _ (hr.routed m hm a ha)

theorem built_of_forM {ds : List Description} {u : Unit} (hr : r.Built)
    (h : ds.forM addDescription r = .ok u r') : r'.Built := by
  induction ds generalizing r with
  | nil =>
      obtain rfl := Action.forM_nil_eq_ok.1 h
      exact hr
  | cons d ds ih =>
      obtain ⟨r₁, hd, hds⟩ := Action.forM_cons_eq_ok.1 h
      exact ih (built_of_addDescription hr hd) hds

/-- Registered descriptions leave their networks with all arcs routed. -/
theorem built_of_addDescriptions {ds : List Description} {k : Nat}
    (hr : r.Built) (h : addDescriptions ds r = .ok k r') : r'.Built := by
  unfold addDescriptions at h
  split at h
  · obtain ⟨_, _, hthrow, -⟩ := Action.bind_eq_ok.1 h
    exact absurd hthrow Action.throw_ne_ok
  · obtain ⟨_, r₁, hds, hcount⟩ := Action.bind_eq_ok.1 h
    rw [Action.get_bind] at hcount
    obtain ⟨-, rfl⟩ := Action.pure_eq_ok.1 hcount
    exact built_of_forM hr hds

end Setup

end FlowPricing
