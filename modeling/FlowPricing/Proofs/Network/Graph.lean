/-
The order of a graph of numbers beside the order of its arcs between nodes. If
no two vertices carry the same node, then taking labels turns the one search
into the other, entry by entry of the stack (`search_explore`), although the
one starts over from every vertex in turn and the other keeps them all on its
stack from the start. A cycle of numbers is a cycle of nodes, so both find an
order of the same graphs, and the same order (`map_toposort?`).

It follows that the order of an accepted graph holds every vertex once, and that
every edge goes forward in it (`toposort?_spec`).
-/
import FlowPricing.Network.Graph.Sorting
import FlowPricing.Proofs.Network.Acyclic
import FlowPricing.Proofs.Network.Construction

namespace FlowPricing.Graph

open Relation (TransGen)

variable {g : Graph} {l fresh stack finished rest : List Nat} {u v : Nat}

-- ============================================================== labels

/-- No two vertices carry the same node, and no two edges join the same
vertices, which are all there. -/
structure WellFormed (g : Graph) : Prop where
  labels_nodup : g.labels.Nodup
  edges_nodup : g.edges.Nodup
  source_lt : ∀ e ∈ g.edges, e.1 < g.vertexCount
  target_lt : ∀ e ∈ g.edges, e.2 < g.vertexCount

/-- All of these are vertices of the graph. -/
def Within (g : Graph) (l : List Nat) : Prop := ∀ v ∈ l, v < g.vertexCount

/-- Another vertex of the graph keeps a list within it. -/
theorem Within.cons (hu : u < g.vertexCount) (hl : g.Within l) :
    g.Within (u :: l) := by
  intro v hv
  rcases List.mem_cons.1 hv with rfl | hv
  · exact hu
  · exact hl v hv

theorem within_singleton (hu : u < g.vertexCount) : g.Within [u] :=
  fun _ hv => List.mem_singleton.1 hv ▸ hu

theorem within_range (g : Graph) : g.Within (List.range g.vertexCount) :=
  fun _ hv => List.mem_range.1 hv

/-- The label of a vertex stands at its position. -/
theorem getElem?_labels (hv : v < g.vertexCount) :
    g.labels[v]? = some (g.label v) := by
  unfold label
  rw [List.getD_eq_getElem?_getD, List.getElem?_eq_getElem hv]
  rfl

/-- What stands at a position is the label of a vertex. -/
theorem getElem?_labels_eq_some {n : Node} :
    g.labels[v]? = some n ↔ v < g.vertexCount ∧ g.label v = n := by
  constructor
  · intro h
    have hv : v < g.vertexCount := (List.getElem?_eq_some_iff.1 h).1
    rw [getElem?_labels hv] at h
    exact ⟨hv, Option.some.inj h⟩
  · intro h
    rw [getElem?_labels h.1, h.2]

/-- The labels of all vertices in turn are the labels. -/
theorem map_label_range (g : Graph) :
    (List.range g.vertexCount).map g.label = g.labels := by
  apply List.ext_getElem?
  intro v
  rw [List.getElem?_map]
  by_cases hv : v < g.vertexCount
  · rw [List.getElem?_range hv, getElem?_labels hv]
    rfl
  · rw [List.getElem?_eq_none (by simpa using hv),
      List.getElem?_eq_none (Nat.le_of_not_lt hv)]
    rfl

theorem arc?_eq (g : Graph) (e : Nat) : g.arc? e = g.arcs[e]? :=
  List.getElem?_map.symm

theorem length_arcs (g : Graph) : g.arcs.length = g.edgeCount :=
  List.length_map _

/-- Only the labels of a graph matter to what its vertices carry. -/
theorem label_congr {g g' : Graph} (h : g.labels = g'.labels) :
    g.label = g'.label := by
  funext v
  unfold label
  rw [h]

section Labels

variable (hg : g.labels.Nodup)
include hg

/-- No two vertices have one label. -/
theorem label_inj (hu : u < g.vertexCount) (hv : v < g.vertexCount)
    (h : g.label u = g.label v) : u = v := by
  have hget : g.labels[u]? = g.labels[v]? := by
    rw [getElem?_labels hu, getElem?_labels hv, h]
  exact (List.getElem?_inj hu hg).1 hget

/-- A label is among others exactly if its vertex is among theirs. -/
theorem mem_map_label (hl : g.Within l) (hu : u < g.vertexCount) :
    g.label u ∈ l.map g.label ↔ u ∈ l := by
  constructor
  · intro h
    obtain ⟨v, hv, heq⟩ := List.mem_map.1 h
    exact label_inj hg (hl v hv) hu heq ▸ hv
  · exact List.mem_map_of_mem

/-- A vertex is taken out of a list together with its label. -/
theorem map_erase_label (hl : g.Within l) (hu : u < g.vertexCount) :
    (l.erase u).map g.label = (l.map g.label).erase (g.label u) := by
  induction l with
  | nil => rfl
  | cons v l ih =>
      have hrest := ih fun w hw => hl w (List.mem_cons_of_mem v hw)
      by_cases heq : v = u
      · rw [heq, List.erase_cons_head, List.map_cons, List.erase_cons_head]
      · have hne : g.label v ≠ g.label u :=
          fun h => heq (label_inj hg (hl v List.mem_cons_self) hu h)
        rw [List.erase_cons_tail (by simpa using heq), List.map_cons,
          List.map_cons, List.erase_cons_tail (by simpa using hne), hrest]

/-- Labels are kept exactly where their vertices are. -/
theorem filter_map_label (hl : g.Within l) (hfresh : g.Within fresh) :
    (l.map g.label).filter (· ∈ fresh.map g.label)
      = (l.filter (· ∈ fresh)).map g.label := by
  rw [List.filter_map]
  congr 1
  apply List.filter_congr
  intro v hv
  exact decide_eq_decide.2 (mem_map_label hg hfresh (hl v hv))

/-- A label stands where its vertex does. -/
theorem idxOf_map_label (hl : g.Within l) (hu : u < g.vertexCount) :
    (l.map g.label).idxOf (g.label u) = l.idxOf u := by
  induction l with
  | nil => rfl
  | cons v l ih =>
      have hrest := ih fun w hw => hl w (List.mem_cons_of_mem v hw)
      by_cases heq : v = u
      · rw [heq, List.map_cons, List.idxOf_cons_self, List.idxOf_cons_self]
      · have hne : g.label v ≠ g.label u :=
          fun h => heq (label_inj hg (hl v List.mem_cons_self) hu h)
        rw [List.map_cons, List.idxOf_cons_ne _ hne,
          List.idxOf_cons_ne _ heq, hrest]

/-- What is found under the node of a vertex, once something was entered under
that of another. -/
theorem get?_insert_label {β : Type} (t : Table Node β) (b : β)
    (hu : u < g.vertexCount) (hv : v < g.vertexCount) :
    (t.insert (g.label u) b).get? (g.label v)
      = if u = v then some b else t.get? (g.label v) := by
  rw [Table.get?_insert]
  by_cases huv : u = v
  · rw [if_pos huv, if_pos (congrArg g.label huv)]
  · rw [if_neg huv, if_neg fun heq => huv (label_inj hg hu hv heq)]

end Labels

-- =============================================================== edges

/-- The edges out of a vertex, oldest first, are those that start there. -/
theorem map_snd_outgoing (g : Graph) (u : Nat) :
    (g.successors u).reverse = (g.edges.filter (·.1 = u)).map Prod.snd := by
  unfold successors outgoing
  rw [List.map_map, List.map_reverse, List.reverse_reverse]
  have hfirst : (fun e : (Nat × Nat) × Nat => decide (e.1.1 = u))
      = (fun e : Nat × Nat => decide (e.1 = u)) ∘ Prod.fst := rfl
  have hsecond : (Prod.snd ∘ fun e : (Nat × Nat) × Nat => (e.2, e.1.2))
      = Prod.snd ∘ Prod.fst := rfl
  rw [hfirst, hsecond, ← List.map_map, ← List.filter_map, List.zipIdx_map_fst]

/-- The successors of a vertex are vertices. -/
theorem WellFormed.within_successors (hg : g.WellFormed) (u : Nat) :
    g.Within (g.successors u).reverse := by
  rw [map_snd_outgoing]
  intro v hv
  obtain ⟨e, he, rfl⟩ := List.mem_map.1 hv
  exact hg.target_lt e (List.mem_of_mem_filter he)

/-- Successors by number and successors by node, which are listed the other way
round. -/
theorem WellFormed.successors_label (hg : g.WellFormed)
    (hu : u < g.vertexCount) :
    Order.successors g.arcs (g.label u)
      = (g.successors u).reverse.map g.label := by
  unfold Order.successors arcs
  rw [map_snd_outgoing, List.filter_map, List.map_map, List.map_map]
  have hsame : g.edges.filter
      ((fun a : Arc => decide (a.source = g.label u)) ∘ g.arcAt)
      = g.edges.filter (·.1 = u) := by
    apply List.filter_congr
    intro e he
    apply decide_eq_decide.2
    constructor
    · exact label_inj hg.labels_nodup (hg.source_lt e he) hu
    · exact fun h => congrArg g.label h
  rw [hsame]
  rfl

-- ============================================================== search

/-- Everything that a search has to do with is a vertex. -/
structure Inside (g : Graph) (fresh stack finished : List Nat) : Prop where
  fresh : g.Within fresh
  stack : g.Within stack
  finished : g.Within finished

/-- What the search pushes are vertices. -/
theorem WellFormed.within_push (hg : g.WellFormed)
    (hstack : g.Within stack) (u : Nat) :
    g.Within (push fresh (g.successors u) stack) := by
  rw [push_eq]
  intro v hv
  rcases List.mem_append.1 hv with hv | hv
  · exact hg.within_successors u v (List.mem_of_mem_filter hv)
  · exact hstack v hv

theorem Inside.top (h : g.Inside fresh (u :: rest) finished) :
    u < g.vertexCount :=
  h.stack u List.mem_cons_self

/-- Discovering a vertex keeps the search inside the graph. -/
theorem Inside.discover (h : g.Inside fresh (u :: rest) finished)
    (hg : g.WellFormed) :
    g.Inside (fresh.erase u)
      (push (fresh.erase u) (g.successors u) (u :: rest)) finished :=
  ⟨fun v hv => h.fresh v (List.mem_of_mem_erase hv),
    hg.within_push h.stack u, h.finished⟩

/-- So does leaving one that is known already. -/
theorem Inside.leave (h : g.Inside fresh (u :: rest) finished) :
    g.Inside fresh rest finished :=
  ⟨h.fresh, fun v hv => h.stack v (List.mem_cons_of_mem u hv), h.finished⟩

/-- So does finishing one. -/
theorem Inside.finish (h : g.Inside fresh (u :: rest) finished) :
    g.Inside fresh rest (u :: finished) :=
  ⟨h.fresh, h.leave.stack, h.finished.cons h.top⟩

/-- What a discovery puts on the stack is what it puts there by node. -/
theorem WellFormed.map_push (hg : g.WellFormed) (hfresh : g.Within fresh)
    (hu : u < g.vertexCount) : (push fresh (g.successors u) stack).map g.label
      = (Order.successors g.arcs (g.label u)).filter (· ∈ fresh.map g.label)
        ++ stack.map g.label := by
  rw [push_eq, List.map_append, hg.successors_label hu,
    filter_map_label hg.labels_nodup (hg.within_successors u) hfresh]

/-- A search by number does to the vertices what a search by node does to their
labels, whatever lies below on the stack of the latter. -/
theorem search_explore (hg : g.WellFormed) (h : g.Inside fresh stack finished)
    (below : List Node) :
    Order.search g.arcs (fresh.map g.label) (stack.map g.label ++ below)
      (finished.map g.label)
      = Order.search g.arcs ((g.explore fresh stack finished).1.map g.label)
        below ((g.explore fresh stack finished).2.map g.label) := by
  fun_induction explore g fresh stack finished with
  | case1 fresh finished => rfl
  | case2 fresh finished u rest hu fresh' ih =>
      have hnext := ih (h.discover hg)
      rw [hg.map_push (h.discover hg).fresh h.top,
        map_erase_label hg.labels_nodup h.fresh h.top,
        List.append_assoc] at hnext
      rw [← hnext, List.map_cons, List.cons_append, Order.search,
        if_pos ((mem_map_label hg.labels_nodup h.fresh h.top).2 hu)]
  | case3 fresh finished u rest hu hf ih =>
      rw [List.map_cons, List.cons_append, Order.search,
        if_neg (mt (mem_map_label hg.labels_nodup h.fresh h.top).1 hu),
        if_pos ((mem_map_label hg.labels_nodup h.finished h.top).2 hf)]
      exact ih h.leave
  | case4 fresh finished u rest hu hf ih =>
      rw [List.map_cons, List.cons_append, Order.search,
        if_neg (mt (mem_map_label hg.labels_nodup h.fresh h.top).1 hu),
        if_neg (mt (mem_map_label hg.labels_nodup h.finished h.top).1 hf)]
      exact ih h.finish

/-- An exploration finishes vertices of the graph only. -/
theorem within_explore (hg : g.WellFormed) (h : g.Inside fresh stack finished) :
    g.Within (g.explore fresh stack finished).1
      ∧ g.Within (g.explore fresh stack finished).2 := by
  fun_induction explore g fresh stack finished with
  | case1 fresh finished => exact ⟨h.fresh, h.finished⟩
  | case2 fresh finished u rest hu fresh' ih => exact ih (h.discover hg)
  | case3 fresh finished u rest hu hf ih => exact ih h.leave
  | case4 fresh finished u rest hu hf ih => exact ih h.finish

/-- No vertex gets lost in a search: it is undiscovered still, or it is
finished. -/
theorem mem_explore (g : Graph) (h : v ∈ fresh ∨ v ∈ stack ∨ v ∈ finished) :
    v ∈ (g.explore fresh stack finished).1
      ∨ v ∈ (g.explore fresh stack finished).2 := by
  fun_induction explore g fresh stack finished with
  | case1 fresh finished =>
      exact h.imp_right fun h => h.resolve_left List.not_mem_nil
  | case2 fresh finished u rest hu fresh' ih =>
      have hpush : ∀ v ∈ u :: rest, v
          ∈ push fresh' (g.successors u) (u :: rest) := by
        intro v hv
        rw [push_eq]
        exact List.mem_append_right _ hv
      apply ih
      rcases h with hfresh | hstack | hfinished
      · by_cases heq : v = u
        · exact .inr (.inl (heq ▸ hpush u List.mem_cons_self))
        · exact .inl ((List.mem_erase_of_ne heq).2 hfresh)
      · exact .inr (.inl (hpush v hstack))
      · exact .inr (.inr hfinished)
  | case3 fresh finished u rest hu hf ih =>
      apply ih
      rcases h with hfresh | hstack | hfinished
      · exact .inl hfresh
      · rcases List.mem_cons.1 hstack with rfl | hrest
        · exact .inr (.inr hf)
        · exact .inr (.inl hrest)
      · exact .inr (.inr hfinished)
  | case4 fresh finished u rest hu hf ih =>
      apply ih
      rcases h with hfresh | hstack | hfinished
      · exact .inl hfresh
      · rcases List.mem_cons.1 hstack with rfl | hrest
        · exact .inr (.inr List.mem_cons_self)
        · exact .inr (.inl hrest)
      · exact .inr (.inr (List.mem_cons_of_mem u hfinished))

/-- Between two searches every vertex is undiscovered or finished. -/
structure Between (g : Graph) (s : List Nat × List Nat) : Prop where
  fresh : g.Within s.1
  finished : g.Within s.2
  cover : ∀ v < g.vertexCount, v ∈ s.1 ∨ v ∈ s.2

/-- Between two explorations everything is a vertex of the graph. -/
theorem Between.visit {s : List Nat × List Nat} (hs : g.Between s)
    (hg : g.WellFormed) (hv : v < g.vertexCount) : g.Between (g.visit s v) := by
  unfold Graph.visit
  split
  · obtain ⟨hfresh, hfinished⟩ :=
      within_explore hg ⟨hs.fresh, within_singleton hv, hs.finished⟩
    exact ⟨hfresh, hfinished, fun w hw =>
      mem_explore g ((hs.cover w hw).imp_right .inr)⟩
  · exact hs

/-- Searching from vertices in turn, one search by node does the same with their
labels on its stack. -/
theorem search_visits (hg : g.WellFormed) {s : List Nat × List Nat}
    (hs : g.Between s) (hl : g.Within l) :
    Order.search g.arcs (s.1.map g.label) (l.map g.label) (s.2.map g.label)
      = (l.foldl g.visit s).2.map g.label := by
  induction l generalizing s with
  | nil =>
      rw [List.map_nil, Order.search]
      rfl
  | cons v l ih =>
      have hv : v < g.vertexCount := hl v List.mem_cons_self
      have hrest : g.Within l := fun w hw => hl w (List.mem_cons_of_mem v hw)
      rw [List.foldl_cons, ← ih (hs.visit hg hv) hrest]
      unfold visit
      by_cases hfresh : v ∈ s.1
      · rw [if_pos hfresh]
        exact search_explore hg ⟨hs.fresh, within_singleton hv, hs.finished⟩
          (l.map g.label)
      · have hdone : v ∈ s.2 := (hs.cover v hv).resolve_left hfresh
        rw [if_neg hfresh, List.map_cons, Order.search,
          if_neg (mt (mem_map_label hg.labels_nodup hs.fresh hv).1 hfresh),
          if_pos ((mem_map_label hg.labels_nodup hs.finished hv).2 hdone)]

theorem between_start (g : Graph) : g.Between (List.range g.vertexCount, []) :=
  ⟨within_range g, nofun, fun _ hv => .inl (List.mem_range.2 hv)⟩

theorem Between.visits {s : List Nat × List Nat} (hs : g.Between s)
    (hg : g.WellFormed) (hl : g.Within l) : g.Between (l.foldl g.visit s) := by
  induction l generalizing s with
  | nil => exact hs
  | cons v l ih =>
      exact ih (hs.visit hg (hl v List.mem_cons_self))
        fun w hw => hl w (List.mem_cons_of_mem v hw)

/-- The order of finishing lists vertices of the graph. -/
theorem WellFormed.within_finishOrder (hg : g.WellFormed) :
    g.Within g.finishOrder :=
  ((between_start g).visits hg (within_range g)).finished

/-- Both ways of searching finish the vertices in the same order. -/
theorem WellFormed.map_finishOrder (hg : g.WellFormed) :
    g.finishOrder.map g.label = Order.search g.arcs g.labels g.labels [] := by
  have hrun := search_visits hg (between_start g) (within_range g)
  rw [map_label_range] at hrun
  exact hrun.symm

-- ============================================================== cycles

/-- The ends of an arc are labels of vertices. -/
theorem WellFormed.ends_mem (hg : g.WellFormed) {a : Arc} (ha : a ∈ g.arcs) :
    a.source ∈ g.labels ∧ a.target ∈ g.labels := by
  obtain ⟨e, he, rfl⟩ := List.mem_map.1 ha
  exact ⟨List.mem_of_getElem? (getElem?_labels (hg.source_lt e he)),
    List.mem_of_getElem? (getElem?_labels (hg.target_lt e he))⟩

/-- The edges have a cycle exactly if the arcs have one. -/
theorem WellFormed.acyclic_iff (hg : g.WellFormed) :
    Acyclic g.edges ↔ Order.Acyclic g.arcs := by
  constructor
  · intro hacyclic v hcycle
    obtain ⟨i, j, ⟨hi, rfl⟩, ⟨hj, heq⟩, hway⟩ :=
      Description.transGen_counterpart
      (m := fun v i => i < g.vertexCount ∧ g.label i = v) (s := Leads g.edges)
      (fun v i j hi hj =>
        label_inj hg.labels_nodup hi.1 hj.1 (hi.2.trans hj.2.symm))
      (fun u v huv => by
        obtain ⟨e, he, heq⟩ := List.mem_map.1 huv
        obtain ⟨rfl, rfl⟩ := Arc.mk.inj heq
        exact ⟨e.1, e.2, ⟨hg.source_lt e he, rfl⟩,
          ⟨hg.target_lt e he, rfl⟩, he⟩) hcycle
    obtain rfl := label_inj hg.labels_nodup hi hj heq.symm
    exact hacyclic i hway
  · intro hacyclic i hcycle
    obtain ⟨u, v, rfl, rfl, hway⟩ := Description.transGen_counterpart
      (m := fun i v => g.label i = v) (s := Order.Joined g.arcs)
      (fun i u v hu hv => hu.symm.trans hv)
      (fun i j hij => ⟨g.label i, g.label j, rfl, rfl, List.mem_map_of_mem hij⟩)
        hcycle
    exact hacyclic _ hway

/-- A graph of numbers has an order exactly if its arcs have one, and its labels
in that order are the nodes in theirs. -/
theorem WellFormed.map_toposort? (hg : g.WellFormed) :
    g.toposort?.map (List.map g.label)
      = Order.topological? g.labels g.arcs := by
  have hsome := Order.topological?_isSome_iff hg.labels_nodup fun a ha =>
    hg.ends_mem ha
  rw [← hg.acyclic_iff] at hsome
  unfold toposort?
  by_cases hacyclic : Acyclic g.edges
  · obtain ⟨order, horder⟩ := Option.isSome_iff_exists.1 (hsome.2 hacyclic)
    rw [if_pos hacyclic, Option.map_some, hg.map_finishOrder]
    unfold Order.topological? at horder ⊢
    simp only at horder ⊢
    split at horder
    · next hforward => rw [if_pos hforward]
    · cases horder
  · rw [if_neg hacyclic, Option.not_isSome_iff_eq_none.1 (mt hsome.1 hacyclic)]
    rfl

/-- The order of a graph holds every vertex once, and every edge goes forward in
it. -/
theorem WellFormed.toposort?_spec (hg : g.WellFormed) {order : List Nat}
    (h : g.toposort? = some order) :
    order.Perm (List.range g.vertexCount) ∧ ∀ e ∈ g.edges,
      order.idxOf e.1 < order.idxOf e.2 := by
  have hnodes : Order.topological? g.labels g.arcs
      = some (order.map g.label) := by
    rw [← hg.map_toposort?, h]
    rfl
  obtain ⟨hperm, hforward⟩ := Order.topological?_spec hg.labels_nodup hnodes
  have hwithin : g.Within order := by
    unfold toposort? at h
    split at h
    · obtain rfl := Option.some.inj h
      exact hg.within_finishOrder
    · cases h
  have hnodup : order.Nodup :=
    .of_map g.label (hperm.nodup_iff.2 hg.labels_nodup)
  constructor
  · rw [List.perm_ext_iff_of_nodup hnodup List.nodup_range]
    intro v
    constructor
    · exact fun hv => List.mem_range.2 (hwithin v hv)
    · intro hv
      have hlt := List.mem_range.1 hv
      have hmem := hperm.mem_iff.2 (List.mem_of_getElem? (getElem?_labels hlt))
      exact (mem_map_label hg.labels_nodup hwithin hlt).1 hmem
  · intro e he
    have hstep := hforward (g.arcAt e) (List.mem_map_of_mem he)
    have hsource := idxOf_map_label hg.labels_nodup hwithin (hg.source_lt e he)
    have htarget := idxOf_map_label hg.labels_nodup hwithin (hg.target_lt e he)
    rwa [arcAt, hsource, htarget] at hstep

end FlowPricing.Graph
