/-
What a registration that fails leaves behind. A network is entered first and
its arcs are routed then, so a field that belongs to another group is found
out too late: the network is there, and the arcs from that field on are not
routed to it. Every other flaw is found before anything is entered. So all
networks that are left have their arcs routed to them, except the one that
the report of a conflict names (`Setup.addDescriptions_routed_iff`).
-/
import FlowPricing.Proofs.Setup.Compatible

namespace FlowPricing

namespace Registry

variable {r r' : Registry} {n : Network} {group : Int32} {e : RegistryError}

/-- Every arc of the network is found in this very network. -/
def FullyRouted (r : Registry) (n : Network) : Prop :=
  ∀ a ∈ n.topology.arcs, r.networkOfArc a = .ok n

instance (r : Registry) (n : Network) : Decidable (r.FullyRouted n) :=
  inferInstanceAs (Decidable (∀ a ∈ n.topology.arcs, r.networkOfArc a = .ok n))

-- ============================================================ refusals

/-- A network is refused only for a group that is taken, and leaves no
trace. -/
theorem addNetwork_eq_error :
    addNetwork n r = .error e r'
      ↔ (r.network? n.group).isSome = true
        ∧ e = .duplicateGroup n.group ∧ r' = r := by
  unfold addNetwork
  rw [Action.get_bind]
  cases (r.network? n.group).isSome with
  | false => exact ⟨nofun, nofun⟩
  | true =>
      constructor
      · intro h
        cases h
        exact ⟨rfl, rfl, rfl⟩
      · rintro ⟨-, rfl, rfl⟩
        rfl

/-- An arc is refused only for a field of another group. -/
theorem addArc_eq_error {a : Arc} :
    addArc group a r = .error e r'
      ↔ ∃ existing, r.fields.get? a.source.network = some existing
        ∧ existing ≠ group
          ∧ e = .conflictingNetworkField a.source.network existing group
          ∧ r' = r := by
  unfold addArc
  rw [Action.get_bind]
  cases hf : r.fields.get? a.source.network with
  | none => exact ⟨nofun, nofun⟩
  | some existing =>
      simp only [Option.some.injEq, exists_eq_left']
      by_cases heq : existing = group
      · rw [if_pos heq]
        exact ⟨fun h => absurd h Action.pure_ne_error, fun h => absurd heq h.1⟩
      · rw [if_neg heq]
        constructor
        · intro h
          cases h
          exact ⟨heq, rfl, rfl⟩
        · rintro ⟨-, rfl, rfl⟩
          rfl

/-- The routing of arcs to a group breaks off at the arc `a`, whose field has
belonged to `existing` before; the arcs `done` before it are routed. -/
structure BreaksOff (r : Registry) (group : Int32)
    (arcs done : List Arc) (a : Arc) (existing : Int32) : Prop where
  arcs : ∃ rest, arcs = done ++ a :: rest
  free : ∀ b ∈ done, ∀ g, r.fields.get? b.source.network = some g → g = group
  taken : r.fields.get? a.source.network = some existing
  other : existing ≠ group

/-- Arcs are refused for the first field of another group. The routes before
it stay. -/
theorem breaksOff_of_addArcs {arcs : List Arc}
    (h : addArcs group arcs r = .error e r') :
    ∃ done a existing, r.BreaksOff group arcs done a existing
      ∧ r' = r.routing group done
      ∧ e = .conflictingNetworkField a.source.network existing group := by
  obtain ⟨done, a, rest, r₁, harcs, hdone, ha⟩ := Action.forM_eq_error.1 h
  obtain ⟨hfree, rfl⟩ := addArcs_eq_ok.1 hdone
  obtain ⟨existing, htaken, hother, rfl, rfl⟩ := addArc_eq_error.1 ha
  refine ⟨done, a, existing, ⟨⟨rest, harcs⟩, hfree, ?_, hother⟩, rfl, rfl⟩
  -- the routes that were just made are all to the group itself
  rw [get?_routing] at htaken
  split at htaken
  · exact absurd htaken.symm hother
  · exact htaken

/-- The registry with one more network, of which only these arcs are routed. -/
def includingOnly (r : Registry) (n : Network) (done : List Arc) : Registry :=
  { r with networks := enter n r.networks }.routing n.group done

theorem mem_includingOnly {m : Network} {done : List Arc} :
    m ∈ (r.includingOnly n done).networks ↔ m = n ∨ m ∈ r.networks := mem_enter

/-- The arcs that were routed lead to the network. -/
theorem networkOfArc_includingOnly {done : List Arc}
    (hr : (r.includingOnly n done).Sound) {b : Arc} (hb : b ∈ done) :
    (r.includingOnly n done).networkOfArc b = .ok n := by
  rw [hr.networkOfArc_eq_ok (mem_includingOnly.2 (.inl rfl))]
  unfold includingOnly
  rw [get?_routing, if_pos ⟨b, hb, rfl⟩]

namespace BreaksOff

variable {arcs done : List Arc} {a : Arc} {existing : Int32}

/-- The field of the refused arc is routed as before. -/
theorem get?_taken (h : r.BreaksOff n.group arcs done a existing) :
    (r.includingOnly n done).fields.get? a.source.network = some existing := by
  unfold includingOnly
  rw [get?_routing, if_neg]
  · exact h.taken
  · rintro ⟨b, hb, hba⟩
    exact h.other (h.free b hb existing (hba ▸ h.taken))

/-- Routes to other groups are not touched. -/
theorem get?_other (h : r.BreaksOff n.group arcs done a existing) {k g : Int32}
    (hg : g ≠ n.group) (hk : r.fields.get? k = some g) :
    (r.includingOnly n done).fields.get? k = some g := by
  unfold includingOnly
  rw [get?_routing, if_neg]
  · exact hk
  · rintro ⟨b, hb, rfl⟩
    exact hg (h.free b hb g hk)

/-- The network is left with an arc that is not found in it. -/
theorem not_fullyRouted
    (h : r.BreaksOff n.group n.topology.arcs done a existing)
    (hr : (r.includingOnly n done).Sound) :
    ¬(r.includingOnly n done).FullyRouted n := by
  intro hall
  obtain ⟨rest, harcs⟩ := h.arcs
  have ha : a ∈ n.topology.arcs := by simp [harcs]
  have hroute :=
    (hr.networkOfArc_eq_ok (mem_includingOnly.2 (.inl rfl)) a).1 (hall a ha)
  rw [h.get?_taken] at hroute
  exact h.other (Option.some.inj hroute)

/-- The networks from before keep all their routes, and only the one that was
entered has lost some. -/
theorem fullyRouted_iff
    (h : r.BreaksOff n.group n.topology.arcs done a existing)
    (hrouted : r.Routed) (hgroup : (r.network? n.group).isSome = false)
    (hr : (r.includingOnly n done).Sound) {m : Network}
    (hm : m ∈ (r.includingOnly n done).networks) :
    (r.includingOnly n done).FullyRouted m ↔ m.group ≠ n.group := by
  rcases mem_includingOnly.1 hm with rfl | hold
  · exact iff_of_false (h.not_fullyRouted hr) fun hne => hne rfl
  · have hne := network?_eq_none hgroup m hold
    refine iff_of_true (fun b hb => (hr.networkOfArc_eq_ok hm b).2 ?_) hne
    exact h.get?_other hne (hrouted m hold b hb)

/-- The refused arc leads to the network that had its field before. -/
theorem networkOfArc_taken (h : r.BreaksOff n.group arcs done a existing)
    (hr : (r.includingOnly n done).Sound) {m : Network}
    (hm : m ∈ (r.includingOnly n done).networks) (hgroup : m.group = existing) :
    (r.includingOnly n done).networkOfArc a = .ok m := by
  rw [hr.networkOfArc_eq_ok hm, h.get?_taken, hgroup]

end BreaksOff

end Registry

namespace Setup

open Registry (BreaksOff)

variable {r r' : Registry} {ds : List Description} {e : PricingError}

/-- A description is refused without a trace, or its network is entered and
the routing of its arcs breaks off. -/
theorem addDescription_error_cases {d : Description}
    (h : addDescription d r = .error e r') :
    ((∀ field existing group, e
      ≠ .registry (.conflictingNetworkField field existing group))
        ∧ r' = r)
      ∨ ∃ n done a existing, Network.ofDescription d = .ok n
          ∧ (r.network? n.group).isSome = false
          ∧ BreaksOff r n.group n.topology.arcs done a existing
          ∧ r' = r.includingOnly n done
          ∧ e = .registry
            (.conflictingNetworkField a.source.network existing n.group) := by
  unfold addDescription at h
  cases hd : Network.ofDescription d with
  | error flaw =>
      simp only [hd] at h
      cases h
      exact .inl ⟨nofun, rfl⟩
  | ok n =>
      simp only [hd] at h
      rcases Action.bind_eq_error.1 h with h | ⟨⟨⟩, r₁, hadd, h⟩
      · obtain ⟨e', hadd, rfl⟩ := Action.mapError_eq_error.1 h
        obtain ⟨-, rfl, rfl⟩ := Registry.addNetwork_eq_error.1 hadd
        exact .inl ⟨nofun, rfl⟩
      · obtain ⟨hgroup, rfl⟩ :=
          Registry.addNetwork_eq_ok.1 (Action.mapError_eq_ok.1 hadd)
        obtain ⟨e', harcs, rfl⟩ := Action.mapError_eq_error.1 h
        obtain ⟨done, a, existing, ⟨hsplit, hfree, htaken, hother⟩, rfl, rfl⟩ :=
          Registry.breaksOff_of_addArcs harcs
        exact .inr ⟨n, done, a, existing, rfl, hgroup,
          ⟨hsplit, hfree, htaken, hother⟩, rfl, rfl⟩

/-- Registration fails at the first description that is refused, or because
there is none. -/
theorem addDescriptions_eq_error (h : addDescriptions ds {} = .error e r) :
    (ds = [] ∧ e = .noNetworks ∧ r = {})
      ∨ ∃ done d rest r₁, ds = done ++ d :: rest
        ∧ done.forM addDescription {} = .ok () r₁
          ∧ addDescription d r₁ = .error e r := by
  unfold addDescriptions at h
  cases ds with
  | nil =>
      cases h
      exact .inl ⟨rfl, rfl, rfl⟩
  | cons d ds =>
      simp only [List.isEmpty_cons, Bool.false_eq_true, if_false] at h
      rcases Action.bind_eq_error.1 h with h | ⟨⟨⟩, r₁, -, hcount⟩
      · exact .inr (Action.forM_eq_error.1 h)
      · exact nomatch hcount

/-- Fields are routed to groups of networks that are there. -/
theorem exists_network_of_field (h : ds.forM addDescription {} = .ok () r)
    {field group : Int32} (hf : r.fields.get? field = some group) :
    ∃ m ∈ r.networks, m.group = group := by
  obtain ⟨ns, -, hp, heq⟩ :=
    (forM_addDescription_eq_ok Registry.holds_empty).1 h
  have hholds := Registry.holds_empty.foldl_including hp
  rw [← heq] at hholds
  obtain ⟨m, hm, hgroup, -⟩ := (hholds.fields _ _).1 hf
  exact ⟨m, hholds.networks.mem_iff.2 hm, hgroup⟩

/-- A registration that fails leaves every network with all its arcs routed
to it, unless a conflict is reported for its group. In that case the network
is left with the routes of the arcs before the conflict; the next arc leads
to the network that had its field before. -/
theorem addDescriptions_routed_iff (h : addDescriptions ds {} = .error e r) :
    (∀ n ∈ r.networks, r.FullyRouted n
      ↔ ∀ field existing, e
        ≠ .registry (.conflictingNetworkField field existing n.group))
    ∧ ∀ field existing group,
        e = .registry (.conflictingNetworkField field existing group) →
        ∃ n ∈ r.networks, ∃ m ∈ r.networks, n.group = group
          ∧ m.group = existing ∧ m ≠ n
          ∧ ∃ done a rest, n.topology.arcs = done ++ a :: rest
            ∧ a.source.network = field
              ∧ (∀ b ∈ done, r.networkOfArc b = .ok n)
                ∧ r.networkOfArc a = .ok m := by
  rcases addDescriptions_eq_error h with ⟨-, rfl, rfl⟩
    | ⟨before, d, rest, r₁, -, hbefore, hd⟩
  · exact ⟨fun n hn => absurd hn List.not_mem_nil, nofun⟩
  have hbuilt := built_of_forM Registry.built_empty hbefore
  have hsound := hbuilt.reachable.sound
  rcases addDescription_error_cases hd with ⟨hother, rfl⟩
    | ⟨n, done, a, existing, hn, hgroup, hbreaks, rfl, rfl⟩
  · -- nothing was entered, and before that all was well
    refine ⟨fun n hn => ?_, fun field existing group he =>
      absurd he (hother field existing group)⟩
    exact iff_of_true (fun a ha => hbuilt.routed.networkOfArc hsound hn ha)
      fun field existing => hother field existing n.group
  · have hsound' : (r₁.includingOnly n done).Sound :=
      (hsound.enter (Network.sound_of_ofDescription hn) hgroup).of_networks rfl
    have hmem : n ∈ (r₁.includingOnly n done).networks :=
      Registry.mem_includingOnly.2 (.inl rfl)
    constructor
    · intro m hm
      rw [hbreaks.fullyRouted_iff hbuilt.routed hgroup hsound' hm]
      simp [eq_comm]
    · rintro _ _ _ ⟨⟩
      obtain ⟨m, hold, hm_group⟩ :=
        exists_network_of_field hbefore hbreaks.taken
      have hm : m ∈ (r₁.includingOnly n done).networks :=
        Registry.mem_includingOnly.2 (.inr hold)
      have hne : m ≠ n := by
        rintro rfl
        exact hbreaks.other hm_group.symm
      obtain ⟨rest, harcs⟩ := hbreaks.arcs
      exact ⟨n, hmem, m, hm, rfl, hm_group, hne, done, a, rest, harcs, rfl,
        fun b => Registry.networkOfArc_includingOnly hsound',
        hbreaks.networkOfArc_taken hsound' hm hm_group⟩

/-- Two networks. The second arc of the second one leaves through the field of
the first. -/
def sampleConflict : List Description :=
  [{ identifier := "graph_1"
     vertices :=
       [⟨1, ⟨0, 0, -2, -1, 0, false, 1⟩⟩, ⟨2, ⟨0, 0, 35, -1, 0, false, 1⟩⟩]
     edges := [⟨1, 2⟩] },
   { identifier := "graph_2"
     vertices :=
       [⟨1, ⟨0, 0, -2, -1, 0, false, 2⟩⟩, ⟨2, ⟨0, 0, 0, 0, 2, false, 1⟩⟩,
         ⟨3, ⟨0, 0, 35, -1, 0, false, 2⟩⟩]
     edges := [⟨1, 2⟩, ⟨2, 3⟩] }]

/-- What is reported of them. -/
def sampleRefusal : PricingError := .registry (.conflictingNetworkField 1 1 2)

/-- Both networks are registered, but only the first is fully routed. -/
theorem addDescriptions_routed_iff_sample :
    ∃ r, addDescriptions sampleConflict {} = .error sampleRefusal r
      ∧ r.networks.map Network.group = [1, 2]
      ∧ ∀ n ∈ r.networks, r.FullyRouted n ↔ n.group = 1 := by
  have herror : (addDescriptions sampleConflict).result {}
      = .error sampleRefusal := by
    decide +kernel
  have hgroups : ((addDescriptions sampleConflict).after {}).networks.map
      Network.group
      = [1, 2] := by
    decide +kernel
  have h := Action.eq_error_of_result herror
  refine ⟨_, h, hgroups, fun n hn => ?_⟩
  rw [(addDescriptions_routed_iff h).1 n hn]
  have hgroup := List.mem_map_of_mem (f := Network.group) hn
  rw [hgroups] at hgroup
  simp only [List.mem_cons, List.not_mem_nil, or_false] at hgroup
  rcases hgroup with hgroup | hgroup <;> simp [hgroup, sampleRefusal]

/-- The second network is registered, and one of its arcs leads to the
first. -/
theorem addDescriptions_leaves_unrouted :
    (addDescriptions sampleConflict).result {} = .error sampleRefusal
      ∧ ∃ n ∈ ((addDescriptions sampleConflict).after {}).networks,
        n.group = 2 ∧ ¬((addDescriptions sampleConflict).after {}).FullyRouted n
          ∧ ∃ a ∈ n.topology.arcs,
            ∃ m ∈ ((addDescriptions sampleConflict).after {}).networks,
              m.group = 1 ∧ ((addDescriptions sampleConflict).after
                {}).networkOfArc a = .ok m := by
  decide +kernel

end Setup

end FlowPricing
