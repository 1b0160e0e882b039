/-
Which descriptions can be registered together. Networks are told apart by
their groups and arcs are routed by the network fields they leave through,
so two networks are in each other's way if they share a group or a field
(`Network.Apart`). Descriptions are registered exactly if each is accepted
and no two of their networks are in each other's way
(`Setup.addDescriptions_iff_compatible`); the order in which they come does
not matter, then or later.

The invariant is that the registry holds the networks met so far and no
routes but theirs (`Registry.Holds`). With it the checks that registration
makes against the registry are the ones against those networks.
-/
import FlowPricing.Proofs.Setup.Networks

namespace FlowPricing

-- ============================================================ networks

namespace Network

/-- Networks that are not in each other's way: their groups differ, and no
two of their arcs leave through the same network field. -/
structure Apart (m n : Network) : Prop where
  groups : m.group ≠ n.group
  fields : ∀ a ∈ m.topology.arcs, ∀ b ∈ n.topology.arcs, a.source.network
    ≠ b.source.network

theorem Apart.symm {m n : Network} (h : m.Apart n) : n.Apart m :=
  ⟨h.groups.symm, fun a ha b hb => (h.fields b hb a ha).symm⟩

end Network

-- ============================================================== routes

namespace Registry

variable {r r' : Registry} {n : Network} {ns ms : List Network} {group : Int32}
  {u : Unit}

/-- The registry with arcs routed to a group. -/
def routing (r : Registry) (group : Int32) (arcs : List Arc) : Registry :=
  { r with
    fields := arcs.foldl (fun t a => t.insert a.source.network group)
      r.fields }

/-- An arc can be routed unless its field belongs to another group. -/
theorem addArc_eq_ok {a : Arc} : addArc group a r = .ok u r'
    ↔ (∀ g, r.fields.get? a.source.network = some g → g = group)
      ∧ r' = r.routing group [a] := by
  unfold addArc
  rw [Action.get_bind]
  cases hf : r.fields.get? a.source.network with
  | none =>
      constructor
      · intro h
        cases h
        exact ⟨nofun, rfl⟩
      · rintro ⟨-, rfl⟩
        rfl
  | some existing =>
      simp only [Option.some.injEq, forall_eq']
      by_cases heq : existing = group
      · subst heq
        have hsame : r.routing existing [a] = r := by
          unfold routing
          rw [List.foldl_cons, List.foldl_nil, Table.insert_of_get? hf]
        rw [if_pos rfl, Action.pure_eq_ok, hsame, eq_comm (a := r)]
        simp
      · rw [if_neg heq]
        exact ⟨fun h => absurd h Action.throw_ne_ok, fun h => absurd h.1 heq⟩

/-- After routing, a field leads to the group of its arcs, or where it led
before. -/
theorem get?_routing (r : Registry) (group : Int32) (arcs : List Arc)
    (k g : Int32) :
    (r.routing group arcs).fields.get? k = some g
      ↔ if ∃ a ∈ arcs, a.source.network = k then group = g
        else r.fields.get? k = some g := by
  unfold routing
  generalize r.fields = fields
  induction arcs generalizing fields with
  | nil => simp
  | cons a arcs ih =>
      simp only [List.foldl_cons, ih, List.exists_mem_cons_iff,
        Table.get?_insert]
      by_cases ha : a.source.network = k <;> by_cases hrest : ∃ b ∈ arcs,
        b.source.network = k <;>
        simp [ha, hrest]

/-- Arcs can be routed unless one of their fields belongs to another
group. -/
theorem addArcs_eq_ok {arcs : List Arc} : addArcs group arcs r = .ok u r'
    ↔ (∀ a ∈ arcs, ∀ g, r.fields.get? a.source.network = some g → g = group)
      ∧ r' = r.routing group arcs := by
  unfold addArcs
  induction arcs generalizing r with
  | nil =>
      rw [Action.forM_nil_eq_ok]
      exact ⟨fun h => ⟨fun _ ha => absurd ha List.not_mem_nil, h.symm⟩, fun h =>
        h.2.symm⟩
  | cons a arcs ih =>
      -- routing an arc brings only the group itself into the way of the rest
      have hrest : (∀ g, r.fields.get? a.source.network = some g → g = group) →
          ((∀ b ∈ arcs, ∀ g,
            (r.routing group [a]).fields.get? b.source.network = some g →
              g = group)
            ↔ ∀ b ∈ arcs, ∀ g, r.fields.get? b.source.network = some g →
              g = group) := by
        intro ha
        refine forall₂_congr fun b _ => forall_congr' fun g => ?_
        rw [get?_routing]
        by_cases hab : a.source.network = b.source.network
        · rw [hab] at ha
          simpa [hab, eq_comm] using ha g
        · simp [hab]
      rw [Action.forM_cons_eq_ok, List.forall_mem_cons]
      constructor
      · rintro ⟨r₁, ha, harcs⟩
        obtain ⟨hfree, rfl⟩ := addArc_eq_ok.1 ha
        obtain ⟨hall, rfl⟩ := ih.1 harcs
        exact ⟨⟨hfree, (hrest hfree).1 hall⟩, rfl⟩
      · rintro ⟨⟨hfree, hall⟩, rfl⟩
        exact ⟨_, addArc_eq_ok.2 ⟨hfree, rfl⟩, ih.2 ⟨(hrest hfree).2 hall, rfl⟩⟩

-- ======================================================== registration

/-- The registry with one more network and its arcs routed to it. -/
def including (r : Registry) (n : Network) : Registry :=
  { r with networks := enter n r.networks }.routing n.group n.topology.arcs

theorem perm_enter (n : Network) (ns : List Network) :
    (enter n ns).Perm (n :: ns) := by
  induction ns with
  | nil => exact .refl _
  | cons m ns ih =>
      unfold enter
      split
      · exact .refl _
      · exact (ih.cons m).trans (.swap n m ns)

/-- The registry holds these networks, which are not in each other's way,
and routes fields to them and to nothing else. -/
structure Holds (r : Registry) (ns : List Network) : Prop where
  networks : r.networks.Perm ns
  apart : ns.Pairwise Network.Apart
  fields : ∀ k g, r.fields.get? k = some g
    ↔ ∃ n ∈ ns, n.group = g ∧ ∃ a ∈ n.topology.arcs, a.source.network = k

theorem holds_empty : Holds {} [] where
  networks := .refl []
  apart := .nil
  fields := fun _ _ => by simp

namespace Holds

/-- What registration checks is that no network is in the way. -/
theorem apart_iff (h : r.Holds ns) (n : Network) :
    ((r.network? n.group).isSome = false
        ∧ ∀ a ∈ n.topology.arcs, ∀ g, r.fields.get? a.source.network = some g →
          g = n.group)
      ↔ ∀ m ∈ ns, m.Apart n := by
  constructor
  · rintro ⟨hgroup, hfields⟩ m hm
    have hne : m.group ≠ n.group :=
      network?_eq_none hgroup m (h.networks.mem_iff.2 hm)
    refine ⟨hne, ?_⟩
    intro a ha b hb hab
    exact hne (hfields b hb m.group ((h.fields _ _).2 ⟨m, hm, rfl, a, ha, hab⟩))
  · intro hall
    constructor
    · rw [Option.isSome_eq_false_iff, Option.isNone_iff_eq_none, network?,
        List.find?_eq_none]
      intro m hm
      simpa using (hall m (h.networks.mem_iff.1 hm)).groups
    · intro a ha g hg
      obtain ⟨m, hm, -, b, hb, hba⟩ := (h.fields _ _).1 hg
      exact absurd hba ((hall m hm).fields b hb a ha)

/-- A network that is apart from the others can be included. -/
theorem including (h : r.Holds ns) (hn : ∀ m ∈ ns, m.Apart n) :
    (r.including n).Holds (ns ++ [n]) where
  networks := (perm_enter n r.networks).trans
    ((h.networks.cons n).trans (List.perm_append_singleton n ns).symm)
  apart := List.pairwise_append.2
    ⟨h.apart, List.pairwise_singleton _ _, fun m hm _ hk =>
      List.mem_singleton.1 hk ▸ hn m hm⟩
  fields := by
    intro k g
    have hroutes :=
      get?_routing { r with networks := enter n r.networks } n.group
      n.topology.arcs k g
    rw [Registry.including, hroutes]
    simp only [h.fields, List.mem_append, List.mem_singleton,
      or_and_right, exists_or, exists_eq_left]
    split
    · next hk =>
        -- the field leaves through `n`, so through no network before it
        obtain ⟨b, hb, hbk⟩ := hk
        constructor
        · exact fun hg => .inr ⟨hg, b, hb, hbk⟩
        · rintro (⟨m, hm, -, a, ha, hak⟩ | ⟨hg, -⟩)
          · exact absurd (hak.trans hbk.symm) ((hn m hm).fields a ha b hb)
          · exact hg
    · next hk => simp [hk]

/-- Networks included one after another are held together. -/
theorem foldl_including (h : r.Holds ns)
    (hp : (ns ++ ms).Pairwise Network.Apart) :
    (ms.foldl Registry.including r).Holds (ns ++ ms) := by
  induction ms generalizing r ns with
  | nil =>
      rw [List.append_nil]
      exact h
  | cons n ms ih =>
      rw [List.append_cons] at hp ⊢
      refine ih (h.including fun m hm => ?_) hp
      have hfront := (List.pairwise_append.1 hp).1
      exact (List.pairwise_append.1 hfront).2.2 m hm n
        (List.mem_singleton.2 rfl)

/-- The networks determine the routes. -/
theorem get?_fields_eq (h : r.Holds ns) (h' : r'.Holds ms) (hp : ms.Perm ns)
    (k : Int32) :
    r'.fields.get? k = r.fields.get? k := by
  apply Option.ext
  intro g
  rw [h.fields, h'.fields]
  exact exists_congr fun n => and_congr_left' hp.mem_iff

/-- The networks determine in which order they are kept. -/
theorem networks_eq (h : r.Holds ns) (h' : r'.Holds ms) (hp : ms.Perm ns)
    (hr : r.Sound) (hr' : r'.Sound) : r'.networks = r.networks := by
  refine List.Perm.eq_of_pairwise ?_ hr'.ascending hr.ascending
    (h'.networks.trans (hp.trans h.networks.symm))
  intro m n _ _ hmn hnm
  exact absurd (Int32.lt_trans hmn hnm) Int32.lt_irrefl

end Holds

/-- A registered network is found by the arcs whose field is routed to its
group. -/
theorem Sound.networkOfArc_eq_ok (hr : r.Sound)
    (hn : n ∈ r.networks) (a : Arc) :
    r.networkOfArc a = .ok n
      ↔ r.fields.get? a.source.network = some n.group := by
  unfold networkOfArc
  cases hf : r.fields.get? a.source.network with
  | none => exact ⟨nofun, nofun⟩
  | some g =>
      constructor
      · intro h
        rw [group_of_network h]
      · intro h
        rw [Option.some.inj h]
        exact hr.network_eq_ok hn

/-- In a sound registry every routed arc is found in its network. -/
theorem Routed.networkOfArc (h : r.Routed) (hr : r.Sound)
    (hn : n ∈ r.networks) {a : Arc} (ha : a ∈ n.topology.arcs) :
    r.networkOfArc a = .ok n :=
  (hr.networkOfArc_eq_ok hn a).2 (h n hn a ha)

end Registry

-- ========================================================= descriptions

namespace Setup

open Registry (Holds Built)

variable {r r' : Registry} {ds : List Description} {ns : List Network}

/-- A description is registered if it is accepted and its network meets no
other of its group and no field of another group. -/
theorem addDescription_eq_ok {d : Description} {u : Unit} :
    addDescription d r = .ok u r'
    ↔ ∃ n, Network.ofDescription d = .ok n
      ∧ ((r.network? n.group).isSome = false
        ∧ ∀ a ∈ n.topology.arcs, ∀ g, r.fields.get? a.source.network = some g →
          g = n.group)
      ∧ r' = r.including n := by
  unfold addDescription
  cases Network.ofDescription d with
  | error e => exact ⟨nofun, nofun⟩
  | ok n =>
      simp only [Action.bind_eq_ok, Action.mapError_eq_ok,
        Registry.addNetwork_eq_ok, Registry.addArcs_eq_ok, Except.ok.injEq,
        exists_eq_left']
      constructor
      · rintro ⟨_, _, ⟨hgroup, rfl⟩, hfields, rfl⟩
        exact ⟨⟨hgroup, hfields⟩, rfl⟩
      · rintro ⟨⟨hgroup, hfields⟩, rfl⟩
        exact ⟨(), _, ⟨hgroup, rfl⟩, hfields, rfl⟩

/-- Descriptions that can be registered together, and the networks that they
declare: each description is accepted, and the networks are not in each
other's way. -/
structure Compatible (ds : List Description) (ns : List Network) : Prop where
  accepted : List.Forall₂ (fun d n => Network.ofDescription d = .ok n) ds ns
  apart : ns.Pairwise Network.Apart

/-- Beside the networks that a registry holds, descriptions are registered
exactly if all of them together are not in each other's way. -/
theorem forM_addDescription_eq_ok (h : r.Holds ns) :
    ds.forM addDescription r = .ok () r'
      ↔ ∃ ms, List.Forall₂ (fun d n => Network.ofDescription d = .ok n) ds ms
          ∧ (ns ++ ms).Pairwise Network.Apart
          ∧ r' = ms.foldl Registry.including r := by
  induction ds generalizing r ns with
  | nil =>
      rw [Action.forM_nil_eq_ok]
      simp [h.apart, eq_comm]
  | cons d ds ih =>
      simp only [Action.forM_cons_eq_ok, addDescription_eq_ok, h.apart_iff,
        List.forall₂_cons_left_iff]
      constructor
      · rintro ⟨_, ⟨n, hd, hn, rfl⟩, hds⟩
        obtain ⟨ms, hms, hp, rfl⟩ := (ih (h.including hn)).1 hds
        rw [← List.append_cons] at hp
        exact ⟨n :: ms, ⟨n, ms, hd, hms, rfl⟩, hp, rfl⟩
      · rintro ⟨_, ⟨n, ms, hd, hms, rfl⟩, hp, rfl⟩
        have hn : ∀ m ∈ ns, m.Apart n :=
          fun m hm => (List.pairwise_append.1 hp).2.2 m hm n List.mem_cons_self
        rw [List.append_cons] at hp
        exact ⟨_, ⟨n, hd, hn, rfl⟩, (ih (h.including hn)).2 ⟨ms, hms, hp, rfl⟩⟩

/-- Descriptions are added exactly if they are compatible, and give a
registry of their networks. -/
theorem addDescriptions_eq_ok {k : Nat} : addDescriptions ds {} = .ok k r
    ↔ ds ≠ [] ∧ ∃ ns, Compatible ds ns ∧ r = ns.foldl Registry.including {}
      ∧ k = r.networks.length := by
  have hforM : ds.forM addDescription {} = .ok () r ↔ _ :=
    forM_addDescription_eq_ok Registry.holds_empty
  unfold addDescriptions
  cases ds with
  | nil => exact ⟨nofun, fun h => absurd rfl h.1⟩
  | cons d ds =>
      simp only [List.isEmpty_cons, Bool.false_eq_true, if_false]
      constructor
      · intro h
        obtain ⟨_, _, hds, hcount⟩ := Action.bind_eq_ok.1 h
        obtain ⟨rfl, rfl⟩ := Action.pure_eq_ok.1 hcount
        obtain ⟨ms, hms, hp, rfl⟩ := hforM.1 hds
        exact ⟨List.cons_ne_nil d ds, ms, ⟨hms, hp⟩, rfl, rfl⟩
      · rintro ⟨-, ms, ⟨hms, hp⟩, hr, rfl⟩
        exact Action.bind_eq_ok.2 ⟨(), r, hforM.2 ⟨ms, hms, hp, hr⟩, rfl⟩

/-- The registry then holds them all. -/
theorem Compatible.holds (h : Compatible ds ns) :
    (ns.foldl Registry.including {}).Holds ns :=
  Registry.holds_empty.foldl_including h.apart

/-- In any other order the descriptions are compatible as well. -/
theorem Compatible.perm {ds' : List Description} (h : Compatible ds ns)
    (hds : ds'.Perm ds) :
    ∃ ns', Compatible ds' ns' ∧ ns'.Perm ns := by
  obtain ⟨ns', haccepted, hns⟩ := List.perm_comp_forall₂ hds h.accepted
  exact ⟨ns', ⟨haccepted, (hns.pairwise_iff fun h => h.symm).2 h.apart⟩, hns⟩

/-- Descriptions are registered exactly if they are compatible. Then the
registry holds the networks they declare and nothing else, in the order of
their groups, and every arc is found in the one network that has it. In any
other order the descriptions lead to the same networks, which are found in
the same way. -/
theorem addDescriptions_iff_compatible (hds : ds ≠ []) :
    ((∃ k r, addDescriptions ds {} = .ok k r) ↔ ∃ ns, Compatible ds ns)
    ∧ ∀ k r, addDescriptions ds {} = .ok k r →
        k = ds.length
        ∧ (∃ ns, Compatible ds ns ∧ r.networks.Perm ns)
        ∧ r.networks.Pairwise (fun m n => m.group < n.group)
        ∧ (∀ n ∈ r.networks, ∀ a ∈ n.topology.arcs, r.networkOfArc a = .ok n)
        ∧ (∀ m ∈ r.networks, ∀ n ∈ r.networks, ∀ a ∈ m.topology.arcs,
          a ∈ n.topology.arcs → m = n)
        ∧ ∀ ds', ds'.Perm ds → ∃ r', addDescriptions ds' {} = .ok k r'
            ∧ r'.networks = r.networks
            ∧ (∀ g, r'.network g = r.network g)
            ∧ ∀ a, r'.networkOfArc a = r.networkOfArc a := by
  constructor
  · constructor
    · rintro ⟨k, r, h⟩
      obtain ⟨-, ns, hns, -⟩ := addDescriptions_eq_ok.1 h
      exact ⟨ns, hns⟩
    · rintro ⟨ns, hns⟩
      exact ⟨_, _, addDescriptions_eq_ok.2 ⟨hds, ns, hns, rfl, rfl⟩⟩
  · intro k r h
    have hbuilt := built_of_addDescriptions Registry.built_empty h
    have hsound := hbuilt.reachable.sound
    have hfound : ∀ n ∈ r.networks, ∀ a ∈ n.topology.arcs, r.networkOfArc a
        = .ok n :=
      fun n hn a ha => hbuilt.routed.networkOfArc hsound hn ha
    obtain ⟨-, ns, hns, rfl, rfl⟩ := addDescriptions_eq_ok.1 h
    refine ⟨?_, ⟨ns, hns, hns.holds.networks⟩, hsound.ascending, hfound, ?_, ?_⟩
    · rw [hns.holds.networks.length_eq, hns.accepted.length_eq]
    · intro m hm n hn a ham han
      exact Except.ok.inj ((hfound m hm a ham).symm.trans (hfound n hn a han))
    · intro ds' hperm
      obtain ⟨ns', hns', hp⟩ := hns.perm hperm
      have hne : ds' ≠ [] := fun hnil => hds (hnil ▸ hperm).nil_eq.symm
      have h' := addDescriptions_eq_ok.2 ⟨hne, ns', hns', rfl, rfl⟩
      have hsound' :=
        (built_of_addDescriptions Registry.built_empty h').reachable.sound
      have hnetworks := hns.holds.networks_eq hns'.holds hp hsound hsound'
      have hfields := hns.holds.get?_fields_eq hns'.holds hp
      have hnetwork : ∀ g, (ns'.foldl Registry.including {}).network g
          = (ns.foldl Registry.including {}).network g := by
        intro g
        unfold Registry.network Registry.network?
        rw [hnetworks]
      rw [hnetworks] at h'
      refine ⟨_, h', hnetworks, hnetwork, ?_⟩
      intro a
      unfold Registry.networkOfArc
      simp only [hfields, hnetwork]

/-- Two networks, the higher group first; the arcs of one leave through two
fields. -/
def sampleDescriptions : List Description :=
  [{ identifier := "graph_7"
     vertices :=
       [⟨1, ⟨0, 0, -2, -1, 0, false, 3⟩⟩, ⟨2, ⟨0, 0, 1, 0, 0, true, 4⟩⟩,
         ⟨3, ⟨0, 0, 35, -1, 0, false, 5⟩⟩]
     edges := [⟨1, 2⟩, ⟨2, 3⟩] },
   { identifier := "graph_2"
     vertices :=
       [⟨1, ⟨0, 0, -2, -1, 0, false, 5⟩⟩, ⟨2, ⟨0, 0, 35, -1, 0, false, 3⟩⟩]
     edges := [⟨1, 2⟩] }]

/-- Two descriptions go together, in either order. -/
theorem addDescriptions_iff_compatible_sample :
    ∃ r r', addDescriptions sampleDescriptions {} = .ok 2 r
      ∧ addDescriptions sampleDescriptions.reverse {} = .ok 2 r'
      ∧ r.networks.map Network.group = [2, 7]
      ∧ (∀ n ∈ r.networks, ∀ a ∈ n.topology.arcs, r.networkOfArc a = .ok n)
      ∧ ∀ a, r'.networkOfArc a = r.networkOfArc a := by
  have hrun : Action.passes (addDescriptions sampleDescriptions) (fun k r =>
      decide (k = 2) && decide (r.networks.map Network.group = [2, 7])) {}
        = true := by
    decide +kernel
  obtain ⟨k, r, h, hrun⟩ := Action.exists_of_passes hrun
  rw [Bool.and_eq_true, decide_eq_true_iff, decide_eq_true_iff] at hrun
  obtain ⟨rfl, hgroups⟩ := hrun
  obtain ⟨-, -, -, hfound, -, hperm⟩ :=
    (addDescriptions_iff_compatible (List.cons_ne_nil _ _)).2 2 r h
  obtain ⟨r', h', -, -, hsame⟩ := hperm _ (List.reverse_perm _)
  exact ⟨r, r', h, h', hgroups, hfound, hsame⟩

end Setup

end FlowPricing
