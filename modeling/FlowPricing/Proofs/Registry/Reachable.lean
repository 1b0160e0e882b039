/-
The networks and registries a program can come to hold. A network starts
from a description and goes on by its operations (`Network.Step`); a
registry starts empty and goes on by its own (`Registry.Reachable`), which
may also have failed. All along, every network is sound, and the groups
ascend (`Registry.Reachable.sound`).
-/
import FlowPricing.Registry.Basic
import FlowPricing.Proofs.Network.ShortestPath
import Mathlib.Logic.Relation

namespace FlowPricing

-- ============================================================ networks

namespace Network

/-- One operation on a network. -/
inductive Step : Network → Network → Prop
  | set {n n' : Network} (a : Arc) (w : Float) (h : n.setWeight a w = .ok n') :
      Step n n'
  | add {n n' : Network} (a : Arc) (d : Float) (h : n.addWeight a d = .ok n') :
      Step n n'
  | addMany {n n' : Network} (changes : List (Arc × Float))
      (h : n.addWeights changes = .ok n') : Step n n'
  | reset (n : Network) : Step n n.resetWeights
  | ask {n n' : Network} (p : Path) (h : n.shortestPath = .ok (p, n')) :
      Step n n'

/-- What a network becomes by any number of operations. -/
def Later : Network → Network → Prop := Relation.ReflTransGen Step

/-- A network that started from a description. -/
def Reachable (n : Network) : Prop :=
  ∃ d n₀, ofDescription d = .ok n₀ ∧ Later n₀ n

variable {n n' : Network}

/-- An operation keeps a network sound, and its topology. -/
theorem Step.sound (h : Step n n') (hn : n.Sound) :
    n'.Sound ∧ n'.topology = n.topology := by
  cases h with
  | set a w h => exact sound_of_modifyWeight hn h
  | add a d h => exact sound_of_modifyWeight hn h
  | addMany changes h => exact sound_of_addWeights hn h
  | reset => exact ⟨hn.resetWeights, rfl⟩
  | ask p h =>
      obtain ⟨hp, rfl⟩ := (shortestPath_eq_ok hn).1 h
      exact ⟨hn.remembering hp, rfl⟩

/-- Operations keep a network sound and its topology as it is. -/
theorem Later.sound (h : Later n n') (hn : n.Sound) :
    n'.Sound ∧ n'.topology = n.topology := by
  induction h with
  | refl => exact ⟨hn, rfl⟩
  | tail _ hstep ih =>
      obtain ⟨hs, ht⟩ := ih
      obtain ⟨hs', ht'⟩ := hstep.sound hs
      exact ⟨hs', ht'.trans ht⟩

theorem Reachable.sound (h : n.Reachable) : n.Sound := by
  obtain ⟨d, n₀, hd, hl⟩ := h
  exact (hl.sound (sound_of_ofDescription hd)).1

end Network

-- ========================================================== registries

namespace Registry

variable {r r' : Registry} {n : Network} {ns : List Network}

/-- Sound networks, in ascending order of their groups. -/
structure Sound (r : Registry) : Prop where
  networks : ∀ n ∈ r.networks, n.Sound
  ascending : r.networks.Pairwise fun m n => m.group < n.group

theorem mem_enter {m : Network} : m ∈ enter n ns ↔ m = n ∨ m ∈ ns := by
  induction ns with
  | nil => simp [enter]
  | cons k ns ih =>
      unfold enter
      split
      · exact List.mem_cons
      · rw [List.mem_cons, ih, List.mem_cons]
        exact or_left_comm

/-- Entering a network of a new group keeps the order. -/
theorem pairwise_enter (h : ns.Pairwise fun m n => m.group < n.group)
    (hnew : ∀ m ∈ ns, m.group ≠ n.group) :
    (enter n ns).Pairwise fun m n => m.group < n.group := by
  induction ns with
  | nil => exact List.pairwise_singleton _ _
  | cons k ns ih =>
      obtain ⟨hk, hns⟩ := List.pairwise_cons.1 h
      unfold enter
      split
      · next hlt =>
          refine List.pairwise_cons.2 ⟨?_, h⟩
          intro m hm
          rcases List.mem_cons.1 hm with rfl | hm
          · exact hlt
          · exact Int32.lt_trans hlt (hk m hm)
      · next hlt =>
          have hne := hnew k List.mem_cons_self
          refine List.pairwise_cons.2 ⟨?_, ih hns fun m hm =>
            hnew m (List.mem_cons_of_mem k hm)⟩
          intro m hm
          rcases mem_enter.1 hm with rfl | hm
          · exact Int32.lt_of_le_of_ne (Int32.not_lt.1 hlt) hne
          · exact hk m hm

/-- If no network is found, none has the group. -/
theorem network?_eq_none {g : Int32} (h : (r.network? g).isSome = false) :
    ∀ m ∈ r.networks, m.group ≠ g := by
  intro m hm heq
  have hnone : r.networks.find? (·.group == g) = none := by
    simpa [network?] using h
  exact absurd (beq_iff_eq.2 heq)
    (by simpa using List.find?_eq_none.1 hnone m hm)

/-- The network of a group has that group. -/
theorem group_of_network {g : Int32} (h : r.network g = .ok n) :
    n.group = g := by
  unfold network network? at h
  cases hfind : r.networks.find? (·.group == g) with
  | none =>
      rw [hfind] at h
      cases h
  | some m =>
      rw [hfind] at h
      cases h
      have hgroup := List.find?_some hfind
      exact beq_iff_eq.1 hgroup

/-- A network that is found is registered. -/
theorem mem_of_network {g : Int32} (h : r.network g = .ok n) :
    n ∈ r.networks := by
  unfold network network? at h
  cases hfind : r.networks.find? (·.group == g) with
  | none =>
      rw [hfind] at h
      exact nomatch h
  | some m =>
      rw [hfind] at h
      obtain rfl := Except.ok.inj h
      exact List.mem_of_find?_eq_some hfind

/-- A network is added exactly if its group is new. -/
theorem addNetwork_eq_ok {u : Unit} :
    addNetwork n r = .ok u r'
      ↔ (r.network? n.group).isSome = false
        ∧ r' = { r with networks := enter n r.networks } := by
  unfold addNetwork
  rw [Action.get_bind]
  split
  · next h =>
      rw [h]
      constructor
      · exact fun hok => absurd hok Action.throw_ne_ok
      · exact fun hok => nomatch hok.1
  · next h =>
      rw [Bool.not_eq_true] at h
      constructor
      · intro hok
        refine ⟨h, ?_⟩
        cases hok
        rfl
      · intro h
        obtain ⟨-, rfl⟩ := h
        rfl

/-- A network of a new group keeps the registry sound. -/
theorem Sound.enter (h : r.Sound) (hn : n.Sound)
    (hnew : (r.network? n.group).isSome = false) :
    Sound { r with networks := enter n r.networks } := by
  refine ⟨?_, pairwise_enter h.ascending (network?_eq_none hnew)⟩
  intro m hm
  rcases mem_enter.1 hm with rfl | hm
  · exact hn
  · exact h.networks m hm

/-- Routing arcs touches no network. -/
theorem leaves_addArcs (group : Int32) (arcs : List Arc) :
    Action.Leaves Registry.networks (addArcs group arcs) := by
  apply Action.moves_forM
  intro a
  unfold addArc
  apply Action.moves_get_bind
  intro s
  simp only
  split
  · split
    · exact Action.moves_pure (R := Action.Same Registry.networks) _ _
    · exact Action.moves_throw (R := Action.Same Registry.networks) _ _
  · rfl

/-- Sound networks in the place of others, with the same topologies, are in
the same order. -/
theorem Sound.replaced (h : r.Sound) (hns : List.Forall₂
      (fun m n : Network => m.Sound → n.Sound ∧ n.topology = m.topology)
        r.networks ns) :
    Sound { r with networks := ns } := by
  obtain ⟨hall, hasc⟩ := h
  generalize r.networks = ms at hall hasc hns
  have hgroups : ns.map Network.group = ms.map Network.group := by
    clear hasc
    induction hns with
    | nil => rfl
    | cons hn _ ih =>
        have htop := (hn (hall _ List.mem_cons_self)).2
        rw [List.map_cons, List.map_cons, ih fun m hm =>
          hall m (List.mem_cons_of_mem _ hm)]
        unfold Network.group
        rw [htop]
  refine ⟨?_, ?_⟩
  · intro n hn
    obtain ⟨m, hm, hmn⟩ := Action.exists_of_mem_right hns hn
    exact (hmn (hall m hm)).1
  · have hmap : (ms.map Network.group).Pairwise (· < ·) :=
      List.pairwise_map.2 hasc
    rw [← hgroups] at hmap
    exact List.pairwise_map.1 hmap

/-- Networks that went on by their own operations are sound, in the same
order. -/
theorem Sound.later (h : r.Sound)
    (hns : List.Forall₂ Network.Later r.networks ns) :
    Sound { r with networks := ns } := by
  apply h.replaced
  apply hns.imp
  intro m n hl hm
  exact hl.sound hm

/-- No group is registered twice. -/
theorem Sound.nodup_groups (h : r.Sound) :
    (r.networks.map Network.group).Nodup := by
  apply List.pairwise_map.2
  apply h.ascending.imp
  intro m n hlt heq
  rw [heq] at hlt
  exact Int32.lt_irrefl hlt

theorem Sound.nodup (h : r.Sound) : r.networks.Nodup := h.nodup_groups.of_map _

/-- A group has one network. -/
theorem Sound.eq_of_group (h : r.Sound) {m : Network} (hm : m ∈ r.networks)
    (hn : n ∈ r.networks) (hg : m.group = n.group) : m = n :=
  List.inj_on_of_nodup_map h.nodup_groups hm hn hg

/-- A network is found by its group. -/
theorem Sound.network?_eq_some (h : r.Sound) (hn : n ∈ r.networks) :
    r.network? n.group = some n := by
  cases hfind : r.network? n.group with
  | none => exact absurd rfl (network?_eq_none (by rw [hfind]; rfl) n hn)
  | some m =>
      have hgroup := List.find?_some hfind
      have hmem : m ∈ r.networks := List.mem_of_find?_eq_some hfind
      rw [h.eq_of_group hmem hn (beq_iff_eq.1 hgroup)]

/-- Every registered network is found under its group. -/
theorem Sound.network_eq_ok (h : r.Sound) (hn : n ∈ r.networks) :
    r.network n.group = .ok n := by
  unfold network
  rw [h.network?_eq_some hn]

variable {σ ε : Type}

/-- All of a registry that holds no handles. -/
def withoutHandles (r : Registry) : Registry :=
  { r with constraints := [], index := .empty }

/-- Replacing handles touches nothing else. -/
theorem leaves_remap (f : ConstraintId → Action ε σ ConstraintId) :
    Action.Leaves (fun s : Registry × σ => s.1.withoutHandles) (remap f) := by
  unfold remap
  apply Action.moves_bind
  · unfold remapConstraints
    exact Action.moves_bind (Action.moves_focus fun _ => rfl) fun _ =>
      Action.moves_pure _
  · intro _
    unfold remapIndex
    exact Action.moves_bind (Action.moves_focus fun _ => rfl) fun _ =>
      Action.moves_pure _

/-- Beside the registry, replacing handles does what finding the replacements
does. -/
theorem moves_remap {Q : σ → σ → Prop} [IsPreorder σ Q]
    {f : ConstraintId → Action ε σ ConstraintId}
    (hf : ∀ c, Action.Moves Q (f c)) :
    Action.Moves (Action.Along Q Prod.snd)
      (remap f : Action ε (Registry × σ) Unit) := by
  have hhandle : Action.Moves (Action.Along Q Prod.snd) (remapHandle f) := by
    apply Action.moves_get_bind
    rintro ⟨c, t⟩
    refine Action.moves_bind (Action.moves_focus fun s =>
      hf c s.2) (fun d => ?_) (c, t)
    exact Action.moves_modify fun s => refl_of Q s.2
  have hentries : Action.Moves (Action.Along Q Prod.snd)
      ((remapHandle f).focus (fun s : IndexEntry × σ => (s.1.handle, s.2))
        fun s t => ({ s.1 with handle := t.1 }, t.2)).each :=
    Action.moves_each (Action.moves_focus fun s => hhandle (s.1.handle, s.2))
  unfold remap
  apply Action.moves_bind
  · unfold remapConstraints
    refine Action.moves_bind (Action.moves_focus fun s => ?_) fun _ =>
      Action.moves_pure _
    exact Action.moves_each (Action.moves_focus fun s =>
      hhandle (s.1.handle, s.2)) (_, s.2)
  · intro _
    unfold remapIndex
    refine Action.moves_bind (Action.moves_focus fun s => ?_) fun _ =>
      Action.moves_pure _
    exact Action.moves_each (Action.moves_focus fun s =>
      hentries (s.1.2, s.2)) (_, s.2)

/-- The registries a program can come to hold. -/
inductive Reachable : Registry → Prop
  | empty : Reachable {}
  | register {r r' : Registry} {n : Network} {u : Unit} (h : Reachable r)
      (hn : n.Reachable)
      (ha : addNetwork n r = .ok u r') : Reachable r'
  | route {r : Registry} (group : Int32) (arcs : List Arc) (h : Reachable r) :
      Reachable ((addArcs group arcs).after r)
  | operate {r : Registry} {ns : List Network} (h : Reachable r)
      (hns : List.Forall₂ Network.Later r.networks ns) :
      Reachable { r with networks := ns }
  | constraint {r : Registry} (c : Constraint) (h : Reachable r) :
      Reachable (r.addConstraint c)
  | entry {r : Registry} (a : Arc) (e : IndexEntry) (h : Reachable r) :
      Reachable (r.addEntry a e)
  | replace {r : Registry} {ε σ : Type} (f : ConstraintId →
      Action ε σ ConstraintId) (s : σ)
      (h : Reachable r) : Reachable ((remap f).after (r, s)).1
  | column {r : Registry} (name : String) (p : Path) (h : Reachable r) :
      Reachable (r.recordColumn name p)

/-- Soundness only depends on the networks. -/
theorem Sound.of_networks (h : r.Sound) (hn : r'.networks = r.networks) :
    r'.Sound := by
  refine ⟨?_, ?_⟩
  · rw [hn]
    exact h.networks
  · rw [hn]
    exact h.ascending

theorem Reachable.sound (h : r.Reachable) : r.Sound := by
  induction h with
  | empty => exact ⟨fun n hn => absurd hn List.not_mem_nil, List.Pairwise.nil⟩
  | register _ hn ha ih =>
      obtain ⟨hnew, rfl⟩ := addNetwork_eq_ok.1 ha
      exact ih.enter hn.sound hnew
  | route group arcs _ ih => exact ih.of_networks (leaves_addArcs group arcs _)
  | operate _ hns ih => exact ih.later hns
  | constraint c _ ih => exact ih.of_networks rfl
  | entry a e _ ih => exact ih.of_networks rfl
  | @replace r ε σ f s _ ih =>
      have hrest : ((remap f).after (r, s)).1.withoutHandles
          = r.withoutHandles :=
        leaves_remap f (r, s)
      have hnetworks := congrArg Registry.networks hrest
      exact ih.of_networks hnetworks
  | column name p _ ih => exact ih.of_networks rfl

end Registry

end FlowPricing
