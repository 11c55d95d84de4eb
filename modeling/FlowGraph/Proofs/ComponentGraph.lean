import FlowGraph.Proofs.Components
import FlowGraph.Proofs.InverseOrder

/-! # The graph of components

The components of a graph come as a number for each node and a graph on the numbers.  Nodes have one
number if and only if each reaches the other (`number_eq_iff`), and the graph on the numbers has the
edges of the first graph between different numbers, each once (`mem_successors_between`).  Numbers
do not grow along an edge, so they go down along the edges that are left, and there is no cycle of
them.
-/
namespace FlowGraph
namespace Digraph

open DepthFirst (Reaches)

variable {g : Digraph}

/-! ### Edges without repetition -/

theorem mem_successors_addEdgeOnce {v w i j : Nat} :
    j ∈ (g.addEdgeOnce v w).successors i ↔ j ∈ g.successors i ∨ i = v ∧ j = w := by
  rw [addEdgeOnce]
  split
  · rename_i hold
    rw [successors_grow, successors_grow, or_iff_left_of_imp]
    rintro ⟨rfl, rfl⟩
    exact hold
  · rw [successors_addEdge]
    by_cases hi : i = v <;> simp [hi]

theorem nodup_successors_addEdgeOnce (h : ∀ i, (g.successors i).Nodup) (v w i : Nat) :
    ((g.addEdgeOnce v w).successors i).Nodup := by
  rw [addEdgeOnce]
  split
  · rw [successors_grow, successors_grow]
    exact h i
  · rename_i hnew
    rw [successors_addEdge]
    split
    · exact List.nodup_append.mpr ⟨h v, List.nodup_singleton w,
        fun x hx y hy heq => hnew (List.mem_singleton.mp hy ▸ heq ▸ hx)⟩
    · exact h i

theorem mem_successors_between {count : Nat} {component : List Nat} {i j : Nat} :
    j ∈ (g.between count component).successors i ↔ i ≠ j ∧
      ∃ v w, w ∈ g.successors v ∧ component[v]?.getD 0 = i ∧ component[w]?.getD 0 = j := by
  rw [between, mem_successors_foldl
    (fun e i j => i ≠ j ∧ component[e.1]?.getD 0 = i ∧ component[e.2]?.getD 0 = j)
    fun q e i j => ?_]
  · simp only [successors_ofSize, List.not_mem_nil, false_or, Prod.exists, mem_edges]
    constructor
    · rintro ⟨v, w, hedge, hne, hv, hw⟩
      exact ⟨hne, v, w, hedge, hv, hw⟩
    · rintro ⟨hne, v, w, hedge, hv, hw⟩
      exact ⟨v, w, hedge, hne, hv, hw⟩
  · simp only
    split
    · rename_i hsame
      rw [or_iff_left]
      rintro ⟨hne, rfl, rfl⟩
      exact hne hsame
    · rename_i hdiff
      rw [mem_successors_addEdgeOnce]
      refine or_congr_right ⟨?_, ?_⟩
      · rintro ⟨rfl, rfl⟩
        exact ⟨hdiff, rfl, rfl⟩
      · rintro ⟨-, rfl, rfl⟩
        exact ⟨rfl, rfl⟩

theorem nodup_successors_between (g : Digraph) (count : Nat) (component : List Nat) (i : Nat) :
    ((g.between count component).successors i).Nodup := by
  refine List.foldlRecOn (motive := fun q : Digraph => ∀ i, (q.successors i).Nodup) _ _ ?_ ?_ i
  · intro i
    rw [successors_ofSize]
    exact .nil
  · intro q hq e _ i
    simp only
    split
    · exact hq i
    · exact nodup_successors_addEdgeOnce hq _ _ i

/-! ### Numbers of components -/

/-- The edges of the graph of components are those between nodes of different numbers. -/
theorem mem_successors_components (hg : g.Closed) {i j : Nat} :
    j ∈ g.components.graph.successors i ↔
      i ≠ j ∧ ∃ v w, w ∈ g.successors v ∧ g.number v = i ∧ g.number w = j := by
  have hnumber : ∀ v < g.size, g.components.component[v]?.getD 0 = g.number v := fun v hv => by
    rw [component_getElem? hg hv]
    rfl
  refine mem_successors_between.trans (and_congr_right fun _ => ?_)
  refine exists_congr fun v => exists_congr fun w => and_congr_right fun hedge => ?_
  have hv := hnumber v (lt_size_of_successor hedge)
  have hw := hnumber w (hg hedge)
  simp only [components] at hv hw
  rw [hv, hw]

/-- Numbers go down along the edges between components. -/
theorem lt_of_mem_successors_components (hg : g.Closed) {i j : Nat}
    (h : j ∈ g.components.graph.successors i) : j < i := by
  obtain ⟨hne, v, w, hedge, rfl, rfl⟩ := (mem_successors_components hg).mp h
  exact Nat.lt_of_le_of_ne (number_le hg hedge) (Ne.symm hne)

/-- **The components of a graph, as they should be.** -/
structure Components.Exact (c : Components) (g : Digraph) : Prop where
  /-- There is a number for each node, that of a component. -/
  length_eq : c.component.length = g.size
  numbered : ∀ v < g.size, ∃ i < c.graph.size, c.component[v]? = some i
  /-- Nodes are in one component if and only if each reaches the other. -/
  same_iff : ∀ v < g.size, ∀ w < g.size, c.component[v]? = c.component[w]? ↔
    Reaches g.successors v w ∧ Reaches g.successors w v
  /-- No component is empty. -/
  inhabited : ∀ i < c.graph.size, ∃ v < g.size, c.component[v]? = some i
  /-- Edges lead between components that are different, -/
  edge_iff : ∀ i j, j ∈ c.graph.successors i ↔ i ≠ j ∧
    ∃ v w, w ∈ g.successors v ∧ c.component[v]? = some i ∧ c.component[w]? = some j
  /-- once each, -/
  once : ∀ i, (c.graph.successors i).Nodup
  /-- and down. -/
  down : ∀ i j, j ∈ c.graph.successors i → j < i
  acyclic : ∀ i, ¬ c.graph.OnCycle i

/-- **The components of every graph are found**, and the graph between them. -/
theorem components_exact (g : Digraph) (hg : g.Closed) : g.components.Exact g where
  length_eq := by rw [component_eq hg, List.length_map, nodes, List.length_range]
  numbered v hv :=
    ⟨g.number v, by rw [size_components hg]; exact number_lt hg hv, component_getElem? hg hv⟩
  same_iff v hv w hw := by
    rw [component_getElem? hg hv, component_getElem? hg hw, Option.some_inj, number_eq_iff hg hv hw]
    rfl
  inhabited i hi := by
    rw [size_components hg] at hi
    obtain ⟨v, hv, rfl⟩ := exists_number_eq hg hi
    exact ⟨v, hv, component_getElem? hg hv⟩
  edge_iff i j := by
    refine (mem_successors_components hg).trans (and_congr_right fun _ => ?_)
    refine exists_congr fun v => exists_congr fun w => and_congr_right fun hedge => ?_
    rw [component_getElem? hg (lt_size_of_successor hedge), component_getElem? hg (hg hedge),
      Option.some_inj, Option.some_inj]
  once := nodup_successors_between g _ _
  down i j := lt_of_mem_successors_components hg
  acyclic i hcycle := by
    have hdown : ∀ k, Relation.TransGen (fun a b => b ∈ g.components.graph.successors a) i k →
        k < i := fun k h => by
      induction h with
      | single hedge => exact lt_of_mem_successors_components hg hedge
      | tail _ hedge ih => exact Nat.lt_trans (lt_of_mem_successors_components hg hedge) ih
    exact Nat.lt_irrefl i (hdown i hcycle)

/-- A ring of three nodes that leads out to a node that leads to itself, and a node that leads to
both, into the ring by two edges. -/
def ring : Digraph := ⟨#[[1], [2, 2], [0, 3], [3], [3, 1, 0]]⟩

/-- The ring is one component, and the two edges into it are one. -/
theorem components_exact_ring : ring.Closed ∧
    ring.components.component = [1, 1, 1, 0, 2] ∧ ring.components.graph.successors 2 = [0, 1] ∧
    Reaches ring.successors 2 1 ∧ ¬ (Reaches ring.successors 0 3 ∧ Reaches ring.successors 3 0) ∧
    ring.components.Exact ring := by
  have hclosed : ring.Closed := by decide
  have hexact := components_exact ring hclosed
  have hnumbers : ring.components.component = [1, 1, 1, 0, 2] := by decide +kernel
  refine ⟨hclosed, hnumbers, by decide +kernel, ?_, ?_, hexact⟩
  · exact ((hexact.same_iff 2 (by decide) 1 (by decide)).mp (by rw [hnumbers]; rfl)).1
  · rw [← hexact.same_iff 0 (by decide) 3 (by decide), hnumbers]
    decide

end Digraph

namespace NamedGraph

variable {α : Type} {g : NamedGraph α}

/-- The values at all positions, in order. -/
theorem filterMap_getElem?_range (as : List α) :
    (List.range as.length).filterMap (as[·]?) = as := by
  induction as with
  | nil => rfl
  | cons a as ih =>
    rw [List.length_cons, List.range_succ_eq_map, List.filterMap_cons_some List.getElem?_cons_zero,
      List.filterMap_map]
    exact congrArg (a :: ·) ih

/-- **The components of a graph on values are in inverse topological order.** -/
theorem Sound.inverseOrder_components (hg : g.Sound) :
    g.components.inverseOrder = .ok g.components.names := by
  have hsize : g.components.graph.size = g.components.names.length := by
    rw [hg.components_names, List.length_map, List.length_range]
    exact Digraph.size_components hg.closed
  have horder : g.components.graph.inverseOrder = .ok g.components.graph.nodes :=
    Digraph.inverseOrder_of_descending fun _ _ => Digraph.lt_of_mem_successors_components hg.closed
  rw [inverseOrder, horder, Digraph.nodes, hsize]
  exact congrArg Except.ok (filterMap_getElem?_range _)

end NamedGraph
end FlowGraph
