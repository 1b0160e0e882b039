/-
A network against a ledger: a plain map from its arcs to their weights,
which remembers no path and computes every answer afresh. Whatever is done
to a network, one operation after another, it answers as the ledger does
(`answers_eq_ledger`). The table of weights is then nothing but that map,
and the cached path cannot be told from none.

The simulation relates a sound network to the ledger that has its weights
(`Keeps`); `Keeps.perform` says that one operation gives the same reply on
both sides and keeps them related, and the run is an induction over it.
-/
import FlowPricing.Proofs.Network.ShortestPath

namespace FlowPricing

-- ========================================================== operations

namespace Network

/-- What can be asked of a network. -/
inductive Operation where
  | set (a : Arc) (w : Float)
  | add (a : Arc) (delta : Float)
  | addMany (changes : List (Arc × Float))
  | reset
  | weight (a : Arc)
  | shortestPath
  | distances (v : Node)
deriving DecidableEq, Repr

/-- What a network replies. -/
inductive Reply where
  | done
  | weight (w : Float)
  | path (p : Path)
  | distances (ds : List (Node × Float))
deriving DecidableEq, Repr

/-- What becomes of a network by an attempt to change it. -/
def attempt (n : Network) :
    Except NetworkError Network → Except NetworkError Reply × Network
  | .ok n' => (.ok .done, n')
  | .error e => (.error e, n)

/-- Performs one operation. -/
def perform : Operation → Network → Except NetworkError Reply × Network
  | .set a w, n => n.attempt (n.setWeight a w)
  | .add a delta, n => n.attempt (n.addWeight a delta)
  | .addMany changes, n => n.attempt (n.addWeights changes)
  | .reset, n => (.ok .done, n.resetWeights)
  | .weight a, n => ((n.weight a).map .weight, n)
  | .shortestPath, n =>
      match n.shortestPath with
      | .ok (p, n') => (.ok (.path p), n')
      | .error e => (.error e, n)
  | .distances v, n => ((n.distancesFrom v).map .distances, n)

end Network

/-- Performs operations one after another: the replies in their order, and
what is left in the end. -/
def inTurn {ι σ ρ : Type} (perform : ι → σ → ρ × σ) : List ι → σ → List ρ × σ
  | [], s => ([], s)
  | op :: ops, s =>
      let (reply, s') := perform op s
      let (replies, s'') := inTurn perform ops s'
      (reply :: replies, s'')

theorem inTurn_fst_cons {ι σ ρ : Type} (perform : ι → σ → ρ × σ) (op : ι)
    (ops : List ι) (s : σ) : (inTurn perform (op :: ops) s).1
      = (perform op s).1 :: (inTurn perform ops (perform op s).2).1 := rfl

theorem inTurn_snd_cons {ι σ ρ : Type} (perform : ι → σ → ρ × σ) (op : ι)
    (ops : List ι) (s : σ) :
    (inTurn perform (op :: ops) s).2
      = (inTurn perform ops (perform op s).2).2 := rfl

-- ============================================================= ledgers

/-- A topology, and a weight for every arc. Only the arcs of the topology
matter. -/
structure Ledger where
  topology : Topology
  weights : Arc → Float

namespace Ledger

/-- Every arc weighs nothing. -/
def new (t : Topology) : Ledger := ⟨t, fun _ => 0.0⟩

/-- A network with these weights of which nothing was asked yet. -/
def network (l : Ledger) : Network where
  topology := l.topology
  weights := ⟨l.topology.arcs.map fun a => (a, l.weights a)⟩
  cached := none

/-- Changes the weight of one arc. -/
def change (l : Ledger) (a : Arc) (f : Float → Float) : Ledger :=
  { l with weights := fun b => if b = a then f (l.weights b) else l.weights b }

/-- The first arc that the topology does not have refuses all changes. -/
def changeAll (l : Ledger) (changes : List (Arc × (Float → Float))) :
    Except NetworkError Network.Reply × Ledger :=
  match changes.find? fun c => c.1 ∉ l.topology.arcs with
  | some c => (.error (.unknownArc l.topology.group c.1), l)
  | none => (.ok .done, changes.foldl (fun l c => l.change c.1 c.2) l)

/-- Performs one operation. -/
def perform : Network.Operation → Ledger →
    Except NetworkError Network.Reply × Ledger
  | .set a w, l => l.changeAll [(a, fun _ => w)]
  | .add a delta, l => l.changeAll [(a, (· + delta))]
  | .addMany changes, l => l.changeAll (changes.map fun c => (c.1, (· + c.2)))
  | .reset, l => (.ok .done, new l.topology)
  | .weight a, l =>
      if a ∈ l.topology.arcs then (.ok (.weight (l.weights a)), l)
      else (.error (.unknownArc l.topology.group a), l)
  | .shortestPath, l => (l.network.findPath.map .path, l)
  | .distances v, l => (l.network.distancesFrom v |>.map .distances, l)

variable {l : Ledger}

/-- The network of a ledger knows the weights of its arcs, and of no others.
-/
theorem get?_network (a : Arc) :
    l.network.weights.get? a = if a ∈ l.topology.arcs then some (l.weights a)
      else none :=
  Table.find_map l.weights l.topology.arcs a

/-- A change of one weight is the same in the network and in the ledger. -/
theorem modify_network (a : Arc) (f : Float → Float) :
    l.network.weights.modify a f = (l.change a f).network.weights := by
  simp only [network, change, Table.modify, List.map_map]
  congr 1
  apply List.map_congr_left
  intro b _
  by_cases hba : b = a <;> simp [hba]

theorem topology_foldl_change (changes : List (Arc × (Float → Float))) :
    (changes.foldl (fun l c => l.change c.1 c.2) l).topology = l.topology := by
  induction changes generalizing l with
  | nil => rfl
  | cons c changes ih => exact ih

theorem foldl_modify_network (changes : List (Arc × (Float → Float))) :
    changes.foldl (fun t c => t.modify c.1 c.2) l.network.weights
      = (changes.foldl (fun l c => l.change c.1 c.2) l).network.weights := by
  induction changes generalizing l with
  | nil => rfl
  | cons c changes ih =>
      rw [List.foldl_cons, modify_network, ih, List.foldl_cons]

/-- A network that weighs nothing is that of a new ledger. -/
theorem mapValues_network : (l.network.weights.mapValues fun _ => 0.0)
    = (new l.topology).network.weights := by
  simp [network, new, Table.mapValues, Function.comp_def]

/-- Changes that are refused or made leave the topology alone. -/
theorem topology_changeAll (changes : List (Arc × (Float → Float))) :
    (l.changeAll changes).2.topology = l.topology := by
  unfold changeAll
  split
  · rfl
  · exact topology_foldl_change changes

theorem topology_perform (op : Network.Operation) :
    (perform op l).2.topology = l.topology := by
  cases op with
  | set a w => exact topology_changeAll _
  | add a delta => exact topology_changeAll _
  | addMany changes => exact topology_changeAll _
  | weight a => simp only [perform]; split <;> rfl
  | _ => rfl

theorem topology_inTurn (ops : List Network.Operation) :
    (inTurn perform ops l).2.topology = l.topology := by
  induction ops generalizing l with
  | nil => rfl
  | cons op ops ih => rw [inTurn_snd_cons, ih, topology_perform]

/-- Where weights are the same on the arcs, so is the network. -/
theorem network_congr {l' : Ledger} (ht : l'.topology = l.topology)
    (hw : ∀ a ∈ l.topology.arcs, l'.weights a = l.weights a) :
    l'.network = l.network := by
  unfold network
  rw [ht]
  congr 2
  apply List.map_congr_left
  intro a ha
  rw [hw a ha]

end Ledger

-- ========================================================== simulation

/-- A sound network that has the weights of a ledger. -/
structure Keeps (n : Network) (l : Ledger) : Prop where
  sound : n.Sound
  topology : n.topology = l.topology
  weights : n.weights = l.network.weights

namespace Keeps

open Network (Reply)

variable {n : Network} {l : Ledger}

/-- A new network and a new ledger agree. -/
theorem of_ofDescription {d : Description}
    (h : Network.ofDescription d = .ok n) :
    Keeps n (.new n.topology) := by
  refine ⟨Network.sound_of_ofDescription h, rfl, ?_⟩
  unfold Network.ofDescription at h
  cases ht : Topology.ofDescription d with
  | error e =>
      rw [ht] at h
      exact nomatch h
  | ok t =>
      rw [ht] at h
      obtain rfl := Except.ok.inj h
      rfl

/-- Only the cached path tells the network from a fresh one. -/
theorem eq (h : Keeps n l) : n = { l.network with cached := n.cached } := by
  obtain ⟨t, weights, cached⟩ := n
  obtain rfl : t = l.topology := h.topology
  obtain rfl : weights = l.network.weights := h.weights
  rfl

/-- Both know the same arcs. -/
theorem containsArc (h : Keeps n l) (a : Arc) :
    n.containsArc a = decide (a ∈ l.topology.arcs) := by
  show (n.weights.get? a).isSome = _
  rw [h.weights, Ledger.get?_network]
  by_cases ha : a ∈ l.topology.arcs <;> simp [ha]

theorem findPath (h : Keeps n l) : n.findPath = l.network.findPath := by
  rw [h.eq]
  rfl

theorem group (h : Keeps n l) : n.group = l.topology.group :=
  congrArg Topology.group h.topology

/-- With the weights of another ledger, and nothing cached, that ledger is
kept. -/
theorem changed (h : Keeps n l) {l' : Ledger} (ht : l'.topology = l.topology) :
    Keeps { n with weights := l'.network.weights, cached := none } l' := by
  have hkeys : l'.network.weights.keys = n.weights.keys := by
    rw [h.weights]
    simp [Ledger.network, Table.keys, Function.comp_def, ht]
  exact ⟨h.sound.reweighted hkeys, h.topology.trans ht.symm, rfl⟩

/-- The same reply on both sides, and a ledger that is still kept. -/
structure Agree (x : Except NetworkError Reply × Network)
    (y : Except NetworkError Reply × Ledger) : Prop where
  reply : x.1 = y.1
  keeps : Keeps x.2 y.2

/-- A single change agrees with the ledger, refused or made. -/
theorem modifyWeight (h : Keeps n l) (a : Arc) (f : Float → Float) :
    Agree (n.attempt (n.modifyWeight a f)) (l.changeAll [(a, f)]) := by
  unfold Network.modifyWeight
  rw [h.containsArc, h.weights, Ledger.modify_network, h.group]
  by_cases ha : a ∈ l.topology.arcs
  · have hchange : l.changeAll [(a, f)] = (.ok .done, l.change a f) := by
      simp [Ledger.changeAll, ha]
    rw [if_pos (decide_eq_true ha), hchange]
    exact ⟨rfl, h.changed rfl⟩
  · have hchange : l.changeAll [(a, f)]
        = (.error (.unknownArc l.topology.group a), l) := by
      simp [Ledger.changeAll, ha]
    rw [if_neg (by simpa using ha), hchange]
    exact ⟨rfl, h⟩

theorem addWeights (h : Keeps n l) (changes : List (Arc × Float)) :
    Agree (n.attempt (n.addWeights changes))
      (l.changeAll (changes.map fun c => (c.1, (· + c.2)))) := by
  have hfind : ((changes.map fun c => (c.1, (· + c.2))).find?
        fun c : Arc × (Float → Float) => c.1 ∉ l.topology.arcs)
      = (changes.find? fun c => !n.containsArc c.1).map fun c =>
        (c.1, (· + c.2)) := by
    simp [List.find?_map, h.containsArc]
  unfold Network.addWeights Ledger.changeAll
  rw [hfind]
  cases changes.find? fun c => !n.containsArc c.1 with
  | some c =>
      rw [← h.group]
      exact ⟨rfl, h⟩
  | none =>
      have hweights :
          changes.foldl (fun t c => t.modify c.1 (· + c.2)) n.weights
          = ((changes.map fun c => (c.1, (· + c.2))).foldl
              (fun l c => l.change c.1 c.2) l).network.weights := by
        rw [h.weights, ← Ledger.foldl_modify_network, List.foldl_map]
      refine ⟨rfl, ?_⟩
      show Keeps { n with
        weights := changes.foldl (fun t c => t.modify c.1 (· + c.2)) n.weights
        cached := none } _
      rw [hweights]
      exact h.changed (Ledger.topology_foldl_change _)

/-- Both answer a question for a weight alike. -/
theorem weight (h : Keeps n l) (a : Arc) :
    Agree (Network.perform (.weight a) n) (Ledger.perform (.weight a) l) := by
  have hget : n.weights.get? a = if a ∈ l.topology.arcs then some (l.weights a)
      else none := by
    rw [h.weights, Ledger.get?_network]
  by_cases ha : a ∈ l.topology.arcs
  · simp only [Network.perform, Ledger.perform, Network.weight, hget, if_pos ha]
    exact ⟨rfl, h⟩
  · simp only [Network.perform, Ledger.perform, Network.weight, hget,
      if_neg ha, h.group]
    exact ⟨rfl, h⟩

/-- A cached path is the one that is found afresh. -/
theorem shortestPath (h : Keeps n l) :
    Agree (Network.perform .shortestPath n)
      (Ledger.perform .shortestPath l) := by
  obtain ⟨p, hp, -⟩ := Network.findPath_total h.sound
  have hn := (Network.shortestPath_eq_ok h.sound).2 ⟨hp, rfl⟩
  simp only [Network.perform, Ledger.perform, hn, ← h.findPath, hp]
  exact ⟨rfl, h.sound.remembering hp, h.topology, h.weights⟩

/-- One operation: the network replies as the ledger does, and goes on
keeping it. -/
theorem perform (h : Keeps n l) (op : Network.Operation) :
    Agree (Network.perform op n) (Ledger.perform op l) := by
  cases op with
  | set a w => exact h.modifyWeight a fun _ => w
  | add a delta => exact h.modifyWeight a (· + delta)
  | addMany changes => exact h.addWeights changes
  | reset =>
      refine ⟨rfl, ?_⟩
      show Keeps { n with
        weights := n.weights.mapValues fun _ => 0.0, cached := none } _
      rw [h.weights, Ledger.mapValues_network]
      exact h.changed rfl
  | weight a => exact h.weight a
  | shortestPath => exact h.shortestPath
  | distances v =>
      have hdistances : n.distancesFrom v = l.network.distancesFrom v := by
        rw [h.eq]
        rfl
      simp only [Network.perform, Ledger.perform, hdistances]
      exact ⟨rfl, h⟩

/-- Any number of operations. -/
theorem inTurn (h : Keeps n l) (ops : List Network.Operation) :
    (FlowPricing.inTurn Network.perform ops n).1
      = (FlowPricing.inTurn Ledger.perform ops l).1
      ∧ Keeps (FlowPricing.inTurn Network.perform ops n).2
        (FlowPricing.inTurn Ledger.perform ops l).2 := by
  induction ops generalizing n l with
  | nil => exact ⟨rfl, h⟩
  | cons op ops ih =>
      have hstep := h.perform op
      obtain ⟨hreplies, hkeeps⟩ := ih hstep.keeps
      refine ⟨?_, hkeeps⟩
      rw [inTurn_fst_cons, inTurn_fst_cons, hstep.reply, hreplies]

end Keeps

-- ============================================== networks built afresh

namespace Ledger

variable {l : Ledger}

/-- Sets the weights of arcs, one after another. -/
def setting (w : Arc → Float) (arcs : List Arc) : List Network.Operation :=
  arcs.map fun a => .set a (w a)

/-- Setting the weights of some arcs leaves exactly these weights. -/
theorem inTurn_setting {w : Arc → Float} {arcs : List Arc}
    (h : ∀ a ∈ arcs, a ∈ l.topology.arcs) :
    (inTurn perform (setting w arcs) l).2
      = { l with weights := fun a => if a ∈ arcs then w a
        else l.weights a } := by
  induction arcs generalizing l with
  | nil => simp [setting, inTurn]
  | cons a arcs ih =>
      have ha : perform (.set a (w a)) l
          = (.ok .done, l.change a fun _ => w a) := by
        simp [perform, changeAll, h a List.mem_cons_self]
      have hrest := @ih (l.change a fun _ => w a) fun b hb =>
        h b (List.mem_cons_of_mem a hb)
      unfold setting at hrest ⊢
      rw [List.map_cons, inTurn_snd_cons, ha, hrest]
      unfold change
      congr 1
      funext b
      by_cases hb : b ∈ arcs
      · simp [hb]
      · by_cases hba : b = a <;> simp [hb, hba]

/-- Once the weights of a ledger were set for every arc, they are those of
the ledger, whatever they were before. -/
theorem network_setting (l l' : Ledger) (h : l'.topology = l.topology) :
    (inTurn perform (setting l.weights l.topology.arcs) l').2.network
      = l.network := by
  rw [inTurn_setting (by rw [h]; exact fun _ => id)]
  apply network_congr
  · exact h
  · intro a ha
    exact if_pos ha

end Ledger

namespace Network

variable {n : Network} {a b : Arc}

/-- A change of weight neither adds nor removes an arc. -/
theorem containsArc_modify (c : Arc) (f : Float → Float) :
    containsArc { n with weights := n.weights.modify a f, cached := none } c
      = n.containsArc c := by
  show ((n.weights.modify a f).get? c).isSome = (n.weights.get? c).isSome
  rw [Table.get?_modify]
  by_cases hac : a = c <;> simp [hac]

/-- Additions to different arcs can be made in either order. -/
theorem add_comm (n : Network) (h : a ≠ b) (x y : Float) :
    inTurn perform [.add b y, .add a x] n
      = ((inTurn perform [.add a x, .add b y] n).1.reverse,
        (inTurn perform [.add a x, .add b y] n).2) := by
  have hcomm := Table.modify_comm n.weights h (· + x) (· + y)
  cases ha : n.containsArc a <;> cases hb : n.containsArc b <;>
    simp [inTurn, perform, attempt, addWeight, modifyWeight, containsArc_modify,
      ha, hb, hcomm, group]

/-- A network answers any sequence of operations as a plain map of weights
does that finds every path afresh. Whatever was done to it, its shortest
path is that of the network as it was built, given the same weights, and
additions to different arcs can be made in either order. -/
theorem answers_eq_ledger {d : Description} (h : ofDescription d = .ok n)
    (ops : List Operation) :
    (inTurn perform ops n).1 = (inTurn Ledger.perform ops (.new n.topology)).1
    ∧ (perform .shortestPath (inTurn perform ops n).2).1
        = (perform .shortestPath (inTurn perform
            (Ledger.setting
              (inTurn Ledger.perform ops (.new n.topology)).2.weights
              n.topology.arcs) n).2).1
    ∧ ∀ a b x y, a ≠ b →
        inTurn perform [.add b y, .add a x] (inTurn perform ops n).2
          = ((inTurn perform [.add a x, .add b y]
            (inTurn perform ops n).2).1.reverse,
              (inTurn perform [.add a x, .add b y]
                (inTurn perform ops n).2).2) := by
  have hbuilt := Keeps.of_ofDescription h
  obtain ⟨hreplies, hkeeps⟩ := hbuilt.inTurn ops
  refine ⟨hreplies, ?_, fun a b x y hab => add_comm _ hab x y⟩
  generalize hl : (inTurn Ledger.perform ops (.new n.topology)).2
    = l at hkeeps ⊢
  have htopology : l.topology = n.topology := by
    rw [← hl, Ledger.topology_inTurn]
    rfl
  -- the network built anew keeps a ledger with the same weights on the arcs
  have hfresh := (hbuilt.inTurn (Ledger.setting l.weights l.topology.arcs)).2
  have hsame := Ledger.network_setting l (.new n.topology) htopology.symm
  rw [← htopology, hkeeps.shortestPath.reply, hfresh.shortestPath.reply]
  simp only [Ledger.perform, ← hsame, htopology]

/-- A source, a sink, and two ways from one to the other. -/
def sampleDiamond : Description where
  identifier := "graph_1"
  vertices := [⟨1, ⟨0, 0, -2, -1, 0, false, 1⟩⟩, ⟨2, ⟨0, 0, 0, 0, 2, false, 1⟩⟩,
    ⟨3, ⟨0, 0, 0, 0, 3, false, 1⟩⟩, ⟨4, ⟨0, 0, 35, -1, 0, false, 1⟩⟩]
  edges := [⟨1, 2⟩, ⟨1, 3⟩, ⟨2, 4⟩, ⟨3, 4⟩]

/-- An arc of the diamond, and one that it does not have. -/
def sampleArcs : Arc × Arc :=
  (⟨⟨0, 0, -2, -1, 0, false, 1⟩, ⟨0, 0, 0, 0, 3, false, 1⟩⟩,
    ⟨⟨0, 0, 0, 0, 2, false, 1⟩, ⟨0, 0, 0, 0, 3, false, 1⟩⟩)

/-- A path is asked for and cached; then one batch is refused and one
succeeds. -/
def sampleOperations : List Operation :=
  [.shortestPath, .addMany [(sampleArcs.1, -1.0), (sampleArcs.2, 1.0)],
    .shortestPath, .addMany [(sampleArcs.1, -1.0), (sampleArcs.1, -2.0)],
    .shortestPath, .weight sampleArcs.1]

/-- A diamond answers all of the sample operations as its ledger does. -/
theorem answers_eq_ledger_sample :
    ∃ n, ofDescription sampleDiamond = .ok n
      ∧ (inTurn perform sampleOperations n).1
        = (inTurn Ledger.perform sampleOperations (.new n.topology)).1
      ∧ (inTurn perform sampleOperations n).1.getLast?
        = some (.ok (.weight (-3.0))) := by
  have hbuilds : (ofDescription sampleDiamond).toOption.isSome = true := by
    decide +kernel
  cases h : ofDescription sampleDiamond with
  | error e =>
      rw [h] at hbuilds
      exact nomatch hbuilds
  | ok n =>
      refine ⟨n, rfl, (answers_eq_ledger h sampleOperations).1, ?_⟩
      have hlast : (match ofDescription sampleDiamond with
          | .ok n => decide ((inTurn perform sampleOperations n).1.getLast?
              = some (.ok (.weight (-3.0))))
          | .error _ => false) = true := by
        decide +kernel
      rw [h] at hlast
      exact of_decide_eq_true hlast

end Network

end FlowPricing
