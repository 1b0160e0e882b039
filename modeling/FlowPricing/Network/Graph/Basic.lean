/-
Directed graphs whose vertices and edges are known by their numbers, counted
in the order in which they were added. A vertex carries a node, and an edge
stands for the arc between the nodes of its two ends.

A graph is acyclic if no way along its edges leads back to where it started.
That can be decided: an edge that starts where no edge ends is on no cycle,
and as long as there are edges but no cycle, there is such an edge. So the
edges wane step by step to nothing exactly if they have no cycle
(`wanes_iff`).
-/
import FlowPricing.Network.Arc
import Mathlib.Data.Fintype.EquivFin
import Mathlib.Logic.Relation
import Mathlib.Order.WellFounded

namespace FlowPricing

open Relation (TransGen)

/-- A directed graph. -/
structure Graph where
  /-- The nodes that the vertices carry. -/
  labels : List Node
  /-- The two ends of the edges. -/
  edges : List (Nat × Nat)
deriving DecidableEq, Repr, Inhabited

namespace Graph

/-- No vertices and no edges. -/
def empty : Graph := ⟨[], []⟩

def vertexCount (g : Graph) : Nat := g.labels.length

def edgeCount (g : Graph) : Nat := g.edges.length

/-- A further vertex. Its number is the count of the ones before. -/
def addVertex (g : Graph) (v : Node) : Graph :=
  { g with labels := g.labels ++ [v] }

/-- A further edge. Its number is the count of the ones before. -/
def addEdge (g : Graph) (u v : Nat) : Graph :=
  { g with edges := g.edges ++ [(u, v)] }

/-- The node of a vertex. Only vertices of the graph are ever asked for. -/
def label (g : Graph) (v : Nat) : Node := g.labels.getD v default

/-- The arc between the nodes of two vertices. -/
def arcAt (g : Graph) (ends : Nat × Nat) : Arc :=
  ⟨g.label ends.1, g.label ends.2⟩

/-- The arc that an edge stands for. -/
def arc? (g : Graph) (e : Nat) : Option Arc := g.edges[e]?.map g.arcAt

/-- The arcs of all edges, in the order of the edges. -/
def arcs (g : Graph) : List Arc := g.edges.map g.arcAt

/-- The edges out of a vertex, each with the vertex it leads to, the newest
first. -/
def outgoing (g : Graph) (u : Nat) : List (Nat × Nat) :=
  (g.edges.zipIdx.filter (·.1.1 = u)).reverse.map fun e => (e.2, e.1.2)

/-- The vertices that the edges out of a vertex lead to. -/
def successors (g : Graph) (u : Nat) : List Nat := (g.outgoing u).map Prod.snd

-- ============================================================== cycles

/-- One of these edges leads from the one vertex to the other. -/
def Leads (es : List (Nat × Nat)) (u v : Nat) : Prop := (u, v) ∈ es

/-- No way along the edges leads back to where it started. -/
def Acyclic (es : List (Nat × Nat)) : Prop := ∀ v, ¬TransGen (Leads es) v v

/-- The edges that start where one of them ends. -/
def trim (es : List (Nat × Nat)) : List (Nat × Nat) :=
  es.filter fun e => es.any fun e' => e'.2 = e.1

/-- Whether nothing is left of the edges after they were trimmed `k` times. -/
def wanes : Nat → List (Nat × Nat) → Bool
  | 0, es => es.isEmpty
  | k + 1, es => es.isEmpty || wanes k (trim es)

variable {es : List (Nat × Nat)} {u v : Nat} {k : Nat}

theorem mem_trim {e : Nat × Nat} :
    e ∈ trim es ↔ e ∈ es ∧ ∃ u, Leads es u e.1 := by
  unfold trim Leads
  rw [List.mem_filter, List.any_eq_true]
  simp

theorem exists_leads (h : TransGen (Leads es) u v) : ∃ w, Leads es w v := by
  cases h with
  | single hlast => exact ⟨u, hlast⟩
  | tail _ hlast => exact ⟨_, hlast⟩

/-- No edge of a way is trimmed away if some edge leads to its start. -/
theorem transGen_trim (h : TransGen (Leads es) u v)
    (hstart : ∃ w, Leads es w u) :
    TransGen (Leads (trim es)) u v := by
  induction h with
  | single hlast => exact .single (mem_trim.2 ⟨hlast, hstart⟩)
  | tail hway hlast ih => exact ih.tail (mem_trim.2 ⟨hlast, exists_leads hway⟩)

/-- So every cycle stays. -/
theorem acyclic_of_trim (h : Acyclic (trim es)) : Acyclic es :=
  fun v hcycle => h v (transGen_trim hcycle (exists_leads hcycle))

theorem Acyclic.trim (h : Acyclic es) : Acyclic (trim es) := by
  have hsub : Leads (Graph.trim es) ≤ Leads es :=
    fun _ _ hleads => (mem_trim.1 hleads).1
  exact fun v hcycle => h v (TransGen.mono hsub v v hcycle)

/-- Without a cycle some edge starts where none ends. -/
theorem Acyclic.exists_start (h : Acyclic es) (hne : es ≠ []) :
    ∃ e ∈ es, ¬∃ u, Leads es u e.1 := by
  let Start := {u // u ∈ es.map Prod.fst}
  let before : Start → Start → Prop := fun u v => TransGen (Leads es) u v
  have : IsTrans Start before := ⟨fun _ _ _ huv hvw => TransGen.trans huv hvw⟩
  have : Std.Irrefl before := ⟨fun v hcycle => h v hcycle⟩
  have hwell : WellFounded before :=
    Finite.wellFounded_of_trans_of_irrefl before
  obtain ⟨e, he⟩ := List.exists_mem_of_ne_nil es hne
  obtain ⟨⟨u, hu⟩, -, hfirst⟩ :=
    hwell.has_min Set.univ ⟨⟨e.1, List.mem_map_of_mem he⟩, trivial⟩
  obtain ⟨e', he', rfl⟩ := List.mem_map.1 hu
  refine ⟨e', he', ?_⟩
  intro hinto
  obtain ⟨t, ht⟩ := hinto
  exact hfirst ⟨t, List.mem_map_of_mem ht⟩ trivial (.single ht)

/-- So trimming takes something away. -/
theorem Acyclic.length_trim_lt (h : Acyclic es) (hne : es ≠ []) :
    (Graph.trim es).length < es.length := by
  obtain ⟨e, he, hstart⟩ := h.exists_start hne
  apply List.length_filter_lt_length_iff_exists.2
  refine ⟨e, he, ?_⟩
  intro hany
  obtain ⟨e', he', hends⟩ := List.any_eq_true.1 hany
  exact hstart ⟨e'.1, by simpa [Leads, ← of_decide_eq_true hends] using he'⟩

theorem acyclic_nil : Acyclic [] := by
  intro v hcycle
  obtain ⟨u, hu⟩ := exists_leads hcycle
  cases hu

theorem acyclic_of_wanes (h : wanes k es = true) : Acyclic es := by
  induction k generalizing es with
  | zero =>
      rw [wanes, List.isEmpty_iff] at h
      rw [h]
      exact acyclic_nil
  | succ k ih =>
      rw [wanes, Bool.or_eq_true, List.isEmpty_iff] at h
      rcases h with rfl | h
      · exact acyclic_nil
      · exact acyclic_of_trim (ih h)

theorem Acyclic.wanes (h : Acyclic es) (hk : es.length ≤ k) :
    wanes k es = true := by
  induction k generalizing es with
  | zero =>
      rw [Graph.wanes, List.isEmpty_iff,
        List.length_eq_zero_iff.1 (Nat.le_zero.1 hk)]
  | succ k ih =>
      rw [Graph.wanes, Bool.or_eq_true, List.isEmpty_iff]
      by_cases hne : es = []
      · exact .inl hne
      · have hlt := h.length_trim_lt hne
        exact .inr (ih h.trim (by omega))

/-- Edges without a cycle are those that wane, and they need no more steps than
there are edges. -/
theorem wanes_iff : wanes es.length es = true ↔ Acyclic es :=
  ⟨acyclic_of_wanes, fun h => h.wanes (Nat.le_refl _)⟩

instance : Decidable (Acyclic es) := decidable_of_iff _ wanes_iff

end Graph

end FlowPricing
