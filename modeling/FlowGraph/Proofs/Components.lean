import FlowGraph.Digraph.Named
import FlowGraph.Proofs.LowLinks

/-! # Components are components

The search finds the classes of nodes that reach each other, in an order in which edges lead from a
class to itself and to classes found before (`Tarjan.Grouped`).  The number of a class is its place
in that order.  So nodes have one number if and only if each reaches the other (`number_eq_iff`),
and numbers do not grow along edges (`number_le`).  The components of a graph on values are the same
classes, as lists of values (`Sound.layered_components`).
-/
namespace FlowGraph
namespace Digraph

open DepthFirst (Reaches)

variable {g : Digraph}

/-! ### Numbers of components -/

/-- The number of a node's component. -/
def number (g : Digraph) (v : Nat) : Nat := g.groups.findIdx (v ∈ ·)

theorem number_lt (hg : g.Closed) {v : Nat} (hv : v < g.size) : g.number v < g.groups.length := by
  obtain ⟨ns, hns, hin⟩ := (grouped_groups hg).2 v hv
  exact List.findIdx_lt_length_of_exists ⟨ns, hns, decide_eq_true hin⟩

theorem exists_group (hg : g.Closed) {v : Nat} (hv : v < g.size) :
    ∃ ns, g.groups[g.number v]? = some ns ∧ v ∈ ns :=
  ⟨_, List.getElem?_eq_getElem (number_lt hg hv),
    of_decide_eq_true (List.findIdx_getElem (w := number_lt hg hv))⟩

theorem group_unique (hg : g.Closed) {v i j : Nat} {ns ns' : List Nat}
    (hi : g.groups[i]? = some ns) (hj : g.groups[j]? = some ns') (hv : v ∈ ns) (hv' : v ∈ ns') :
    i = j := by
  have hpair := List.pairwise_iff_getElem.mp (grouped_groups hg).1.disjoint
  obtain ⟨hilt, rfl⟩ := List.getElem?_eq_some_iff.mp hi
  obtain ⟨hjlt, rfl⟩ := List.getElem?_eq_some_iff.mp hj
  rcases Nat.lt_trichotomy i j with h | h | h
  · exact (hpair i j hilt hjlt h hv hv').elim
  · exact h
  · exact (hpair j i hjlt hilt h hv' hv).elim

/-- **Nodes have the same number if and only if each reaches the other.** -/
theorem number_eq_iff (hg : g.Closed) {v w : Nat} (hv : v < g.size) (hw : w < g.size) :
    g.number v = g.number w ↔ Together g.successors v w := by
  obtain ⟨ns, hns, hin⟩ := exists_group hg hv
  obtain ⟨ns', hns', hin'⟩ := exists_group hg hw
  obtain ⟨x, -, hx⟩ := (grouped_groups hg).1.component (List.mem_of_getElem? hns)
  constructor
  · intro h
    rw [← h, hns] at hns'
    obtain rfl := Option.some.inj hns'
    exact ((hx v).mp hin).symm.trans ((hx w).mp hin')
  · intro h
    exact group_unique hg hns hns' ((hx w).mpr (((hx v).mp hin).trans h)) hin'

/-- **Edges lead to components with numbers no greater.** -/
theorem number_le (hg : g.Closed) {v w : Nat} (hedge : w ∈ g.successors v) :
    g.number w ≤ g.number v := by
  obtain ⟨ns, hns, hin⟩ := exists_group hg (lt_size_of_successor hedge)
  obtain ⟨ns', hns', hin'⟩ := exists_group hg (hg hedge)
  obtain ⟨j, hj, ms, hms, hin''⟩ := (grouped_groups hg).1.onward hns hin hedge
  exact group_unique hg hns' hms hin' hin'' ▸ hj

/-- Every number is the number of a node. -/
theorem exists_number_eq (hg : g.Closed) {i : Nat} (hi : i < g.groups.length) :
    ∃ v < g.size, g.number v = i := by
  have hns := List.getElem?_eq_getElem hi
  obtain ⟨v, hv, hmem⟩ := (grouped_groups hg).1.component (List.getElem_mem hi)
  obtain ⟨ns, hns', hin⟩ := exists_group hg hv
  exact ⟨v, hv, group_unique hg hns' hns hin ((hmem v).mpr ⟨.refl, .refl⟩)⟩

/-! ### The table of numbers -/

theorem size_assign (numbers : Array Nat) (group : List Nat × Nat) :
    (assign numbers group).size = numbers.size :=
  List.foldlRecOn (motive := fun a : Array Nat => a.size = numbers.size) _ _ rfl
    fun _ ha _ _ => Array.size_setIfInBounds.trans ha

theorem getElem?_assign (numbers : Array Nat) (ns : List Nat) (i : Nat) {v : Nat}
    (hv : v < numbers.size) :
    (assign numbers (ns, i))[v]? = if v ∈ ns then some i else numbers[v]? := by
  induction ns generalizing numbers with
  | nil => rfl
  | cons w ns ih =>
    have hsize : v < (numbers.setIfInBounds w i).size := by rwa [Array.size_setIfInBounds]
    have hstep : assign numbers (w :: ns, i) = assign (numbers.setIfInBounds w i) (ns, i) := rfl
    rw [hstep, ih _ hsize, Array.getElem?_setIfInBounds]
    by_cases hin : v ∈ ns
    · rw [if_pos hin, if_pos (List.mem_cons_of_mem w hin)]
    · by_cases hw : w = v
      · rw [if_neg hin, if_pos hw, if_pos (hw ▸ hv), if_pos (hw ▸ List.mem_cons_self)]
      · rw [if_neg hin, if_neg hw, if_neg fun h => (List.mem_cons.mp h).elim (Ne.symm hw) hin]

theorem size_foldl_assign (groups : List (List Nat × Nat)) (numbers : Array Nat) :
    (groups.foldl assign numbers).size = numbers.size :=
  List.foldlRecOn (motive := fun a : Array Nat => a.size = numbers.size) _ _ rfl
    fun a ha group _ => (size_assign a group).trans ha

/-- A node that is in no group keeps its number. -/
theorem getElem?_foldl_assign_of_not_mem {groups : List (List Nat)} {v : Nat}
    (h : ∀ ns ∈ groups, v ∉ ns) (k : Nat) {numbers : Array Nat} (hv : v < numbers.size) :
    ((groups.zipIdx k).foldl assign numbers)[v]? = numbers[v]? := by
  induction groups generalizing k numbers with
  | nil => rfl
  | cons ns groups ih =>
    obtain ⟨hns, h⟩ := List.forall_mem_cons.mp h
    rw [List.zipIdx_cons, List.foldl_cons, ih h _ (by rwa [size_assign]), getElem?_assign _ _ _ hv,
      if_neg hns]

/-- A node gets the number of its group, since it is in no other. -/
theorem getElem?_foldl_assign {groups : List (List Nat)} (hdisjoint : groups.Pairwise List.Disjoint)
    {i v : Nat} {ns : List Nat} (hi : groups[i]? = some ns) (hin : v ∈ ns) (k : Nat)
    {numbers : Array Nat} (hv : v < numbers.size) :
    ((groups.zipIdx k).foldl assign numbers)[v]? = some (k + i) := by
  induction groups generalizing i k numbers with
  | nil => cases hi
  | cons ms groups ih =>
    obtain ⟨hfirst, hdisjoint⟩ := List.pairwise_cons.mp hdisjoint
    have hsize : v < (assign numbers (ms, k)).size := by rwa [size_assign]
    rw [List.zipIdx_cons, List.foldl_cons]
    cases i with
    | zero =>
      obtain rfl : ms = ns := Option.some.inj hi
      rw [getElem?_foldl_assign_of_not_mem (fun other hother hmem => hfirst other hother hin hmem) _
        hsize, getElem?_assign _ _ _ hv, if_pos hin]
      rfl
    | succ i =>
      rw [ih hdisjoint (List.getElem?_cons_succ ▸ hi) (k + 1) hsize]
      congr 1
      omega

theorem component_eq (hg : g.Closed) : g.components.component = g.nodes.map g.number := by
  have hsize : (g.groups.zipIdx.foldl assign (Array.replicate g.size 0)).size = g.size :=
    (size_foldl_assign _ _).trans Array.size_replicate
  refine List.ext_getElem? fun v => ?_
  rw [components, nodes, List.getElem?_map, Array.getElem?_toList]
  rcases Nat.lt_or_ge v g.size with hv | hv
  · obtain ⟨ns, hns, hin⟩ := exists_group hg hv
    rw [List.getElem?_range hv, getElem?_foldl_assign (grouped_groups hg).1.disjoint hns hin 0
      (by rwa [Array.size_replicate]), Nat.zero_add]
    rfl
  · rw [Array.getElem?_eq_none (hsize.symm ▸ hv),
      List.getElem?_eq_none (by rwa [List.length_range])]
    rfl

theorem component_getElem? (hg : g.Closed) {v : Nat} (hv : v < g.size) :
    g.components.component[v]? = some (g.number v) := by
  rw [component_eq hg, nodes, List.getElem?_map, List.getElem?_range hv]
  rfl

/-! ### Members of components -/

theorem size_addEdgeOnce {v w : Nat} (hv : v < g.size) (hw : w < g.size) :
    (g.addEdgeOnce v w).size = g.size := by
  rw [addEdgeOnce]
  split
  · rw [size_grow, size_grow, Nat.max_eq_left hv, Nat.max_eq_left hw]
  · rw [size_addEdge, Nat.max_eq_left hv, Nat.max_eq_left hw]

theorem size_between (g : Digraph) {count : Nat} {component : List Nat}
    (h : ∀ v w, w ∈ g.successors v →
      component[v]?.getD 0 < count ∧ component[w]?.getD 0 < count) :
    (g.between count component).size = count := by
  refine List.foldlRecOn (motive := fun q : Digraph => q.size = count) _ _ (size_ofSize count)
    fun q hq e he => ?_
  have he := h e.1 e.2 (mem_edges.mp he)
  simp only
  split
  · exact hq
  · rw [size_addEdgeOnce (hq ▸ he.1) (hq ▸ he.2), hq]

theorem size_components (hg : g.Closed) : g.components.graph.size = g.groups.length := by
  refine size_between g fun v w hedge => ?_
  have hv := component_getElem? hg (lt_size_of_successor hedge)
  have hw := component_getElem? hg (hg hedge)
  simp only [components] at hv hw
  rw [hv, hw]
  exact ⟨number_lt hg (lt_size_of_successor hedge), number_lt hg (hg hedge)⟩

theorem filterMap_zipIdx_range (f : Nat → Nat) (n i : Nat) :
    ((List.range n).map f).zipIdx.filterMap (fun (k, v) => if k = i then some v else none) =
      (List.range n).filter (f · = i) := by
  induction n with
  | zero => rfl
  | succ n ih =>
    rw [List.range_succ, List.map_append, List.zipIdx_append, List.filterMap_append, ih,
      List.filter_append]
    by_cases h : f n = i <;> simp [h]

/-- The members of the components are the nodes of each number. -/
theorem members_eq (hg : g.Closed) :
    g.components.members =
      (List.range g.groups.length).map fun i => g.nodes.filter (g.number · = i) := by
  rw [Components.members, nodes, size_components hg, component_eq hg]
  exact List.map_congr_left fun i _ => filterMap_zipIdx_range g.number g.size i

end Digraph

namespace NamedGraph

open DepthFirst (Reaches)

variable {α : Type} [DecidableEq α] {g : NamedGraph α}

/-- The nodes of a graph on values are the positions of its values, which are different. -/
structure Sound (g : NamedGraph α) : Prop where
  nodup : g.names.Nodup
  size_eq : g.graph.size = g.names.length
  closed : g.graph.Closed

/-- The successors of a value. -/
def next (g : NamedGraph α) (a : α) : List α := g.valuesAt (g.graph.successors (g.names.idxOf a))

omit [DecidableEq α] in
theorem mem_valuesAt {vs : List Nat} {a : α} : a ∈ g.valuesAt vs ↔ ∃ v ∈ vs, g.names[v]? = some a :=
  List.mem_filterMap

namespace Sound

theorem idxOf_eq (hg : g.Sound) {v : Nat} {a : α} (h : g.names[v]? = some a) :
    g.names.idxOf a = v := by
  obtain ⟨hv, rfl⟩ := List.getElem?_eq_some_iff.mp h
  exact hg.nodup.idxOf_getElem v hv

theorem mem_next (hg : g.Sound) {v : Nat} {a b : α} (ha : g.names[v]? = some a) :
    b ∈ g.next a ↔ ∃ w ∈ g.graph.successors v, g.names[w]? = some b := by
  rw [next, mem_valuesAt, hg.idxOf_eq ha]

omit [DecidableEq α] in
theorem lt_size (hg : g.Sound) {v : Nat} {a : α} (h : g.names[v]? = some a) : v < g.graph.size :=
  hg.size_eq ▸ (List.getElem?_eq_some_iff.mp h).1

theorem getElem?_idxOf {a : α} (h : a ∈ g.names) : g.names[g.names.idxOf a]? = some a := by
  have hlt := List.idxOf_lt_length_of_mem h
  rw [List.getElem?_eq_getElem hlt, List.getElem_idxOf hlt]

/-- Edges lead from values of the graph to values of the graph. -/
theorem mem_names_of_next (hg : g.Sound) {a b : α} (h : b ∈ g.next a) :
    a ∈ g.names ∧ b ∈ g.names := by
  obtain ⟨w, hw, hb⟩ := mem_valuesAt.mp h
  have hlt := Digraph.lt_size_of_successor hw
  rw [hg.size_eq] at hlt
  exact ⟨List.idxOf_lt_length_iff.mp hlt, List.mem_of_getElem? hb⟩

/-- Ways between values are ways between their positions. -/
theorem reaches_iff (hg : g.Sound) {v w : Nat} {a b : α} (ha : g.names[v]? = some a)
    (hb : g.names[w]? = some b) : Reaches g.next a b ↔ Reaches g.graph.successors v w := by
  constructor
  · intro h
    induction h generalizing w with
    | refl => rw [← hg.idxOf_eq ha, hg.idxOf_eq hb]
    | @tail c b _ hedge ih =>
      have hc := getElem?_idxOf (hg.mem_names_of_next hedge).1
      obtain ⟨w', hw', hb'⟩ := (hg.mem_next hc).mp hedge
      rw [← hg.idxOf_eq hb, hg.idxOf_eq hb']
      exact (ih hc).tail hw'
  · intro h
    induction h generalizing b with
    | refl =>
      rw [ha] at hb
      rw [Option.some.inj hb]
    | @tail u w _ hedge ih =>
      have hu : u < g.names.length := hg.size_eq ▸ Digraph.lt_size_of_successor hedge
      exact (ih (List.getElem?_eq_getElem hu)).tail
        ((hg.mem_next (List.getElem?_eq_getElem hu)).mpr ⟨w, hedge, hb⟩)

end Sound

/-- **Values in layers**: classes of values that reach each other, such that from each class edges
lead only to itself and to classes before it. -/
structure Layered (next : α → List α) (all : List α) (layers : List (List α)) : Prop where
  nonempty : ∀ ⦃layer⦄, layer ∈ layers → layer ≠ []
  nodup : ∀ ⦃layer⦄, layer ∈ layers → layer.Nodup
  disjoint : layers.Pairwise List.Disjoint
  mem_iff : ∀ a, a ∈ all ↔ ∃ layer ∈ layers, a ∈ layer
  together : ∀ ⦃layer⦄, layer ∈ layers → ∀ ⦃a⦄, a ∈ layer → ∀ b,
    b ∈ layer ↔ Reaches next a b ∧ Reaches next b a
  before : ∀ ⦃front layer rest⦄, layers = front ++ layer :: rest → ∀ ⦃a b⦄, a ∈ layer → b ∈ next a →
    b ∈ layer ∨ ∃ other ∈ front, b ∈ other

/-- **A layer by itself**: from each of its values, the values that it reaches and that reach it. -/
structure IsLayer (next : α → List α) (layer : List α) : Prop where
  nonempty : layer ≠ []
  nodup : layer.Nodup
  mem_iff : ∀ ⦃a⦄, a ∈ layer → ∀ b, b ∈ layer ↔ Reaches next a b ∧ Reaches next b a

omit [DecidableEq α] in
theorem Layered.isLayer {next : α → List α} {all layer : List α} {layers : List (List α)}
    (h : Layered next all layers) (hin : layer ∈ layers) : IsLayer next layer :=
  ⟨h.nonempty hin, h.nodup hin, h.together hin⟩

section
variable (hg : g.Sound)
include hg

omit [DecidableEq α] in
theorem Sound.components_names : g.components.names =
    (List.range g.graph.groups.length).map fun i =>
      g.valuesAt (g.graph.nodes.filter (g.graph.number · = i)) := by
  rw [components, Digraph.members_eq hg.closed, List.map_map]
  rfl

theorem Sound.mem_layer {i : Nat} {a : α} :
    a ∈ g.valuesAt (g.graph.nodes.filter (g.graph.number · = i)) ↔
      a ∈ g.names ∧ g.graph.number (g.names.idxOf a) = i := by
  simp only [mem_valuesAt, List.mem_filter, Digraph.mem_nodes, decide_eq_true_eq]
  constructor
  · rintro ⟨v, ⟨_, hi⟩, ha⟩
    exact ⟨List.mem_of_getElem? ha, by rw [hg.idxOf_eq ha, hi]⟩
  · rintro ⟨ha, hi⟩
    exact ⟨_, ⟨hg.lt_size (getElem?_idxOf ha), hi⟩, getElem?_idxOf ha⟩

theorem Sound.mem_of_reaches {a b : α} (h : Reaches g.next a b) (ha : a ∈ g.names) :
    b ∈ g.names := by
  rcases h.cases_tail with rfl | ⟨_, _, hedge⟩
  · exact ha
  · exact (hg.mem_names_of_next hedge).2

theorem Sound.number_eq_iff {a b : α} (ha : a ∈ g.names) (hb : b ∈ g.names) :
    g.graph.number (g.names.idxOf a) = g.graph.number (g.names.idxOf b) ↔
      Reaches g.next a b ∧ Reaches g.next b a := by
  have ha := getElem?_idxOf ha
  have hb := getElem?_idxOf hb
  rw [Digraph.number_eq_iff hg.closed (hg.lt_size ha) (hg.lt_size hb), hg.reaches_iff ha hb,
    hg.reaches_iff hb ha]
  rfl

omit hg in
/-- Numbers below one stand before it in a range. -/
theorem mem_of_range_eq_append {n i k : Nat} {low high : List Nat}
    (h : List.range n = low ++ i :: high) (hlt : k < i) : k ∈ low := by
  have hi : i < n := List.mem_range.mp (h ▸ List.mem_append_right _ List.mem_cons_self)
  have hk : k ∈ low ++ i :: high := h ▸ List.mem_range.mpr (Nat.lt_trans hlt hi)
  have hsorted : (low ++ i :: high).Pairwise (· < ·) := h ▸ List.pairwise_lt_range
  have habove := (List.pairwise_cons.mp (List.pairwise_append.mp hsorted).2.1).1
  refine (List.mem_append.mp hk).resolve_right fun hin => ?_
  rcases List.mem_cons.mp hin with rfl | hin
  · exact Nat.lt_irrefl k hlt
  · exact Nat.lt_asymm hlt (habove k hin)

/-- **The components of a graph on values are layers.** -/
theorem Sound.layered_components : Layered g.next g.names g.components.names := by
  rw [hg.components_names]
  constructor
  case nonempty =>
    simp only [List.mem_map]
    rintro _ ⟨i, hi, rfl⟩
    obtain ⟨v, hv, hnumber⟩ := Digraph.exists_number_eq hg.closed (List.mem_range.mp hi)
    refine List.ne_nil_of_mem (mem_valuesAt.mpr ⟨v, ?_, List.getElem?_eq_getElem (hg.size_eq ▸ hv)⟩)
    exact List.mem_filter.mpr ⟨Digraph.mem_nodes.mpr hv, decide_eq_true hnumber⟩
  case nodup =>
    simp only [List.mem_map]
    rintro _ ⟨i, _, rfl⟩
    refine List.Nodup.filterMap (fun v w a hv hw => ?_) (List.nodup_range.filter _)
    exact (hg.idxOf_eq hv).symm.trans (hg.idxOf_eq hw)
  case disjoint =>
    refine List.pairwise_map.mpr (List.pairwise_lt_range.imp fun {i j} hlt a hi hj => ?_)
    exact Nat.ne_of_lt hlt (((hg.mem_layer).mp hi).2.symm.trans ((hg.mem_layer).mp hj).2)
  case mem_iff =>
    intro a
    simp only [List.mem_map, List.mem_range, exists_exists_and_eq_and, hg.mem_layer]
    constructor
    · intro ha
      exact ⟨_, Digraph.number_lt hg.closed (hg.lt_size (getElem?_idxOf ha)), ha, rfl⟩
    · rintro ⟨_, _, ha, _⟩
      exact ha
  case together =>
    simp only [List.mem_map]
    rintro _ ⟨i, _, rfl⟩ a ha b
    rw [hg.mem_layer] at ha ⊢
    obtain ⟨ha, rfl⟩ := ha
    constructor
    · rintro ⟨hb, hi⟩
      exact (hg.number_eq_iff ha hb).mp hi.symm
    · intro h
      have hb := hg.mem_of_reaches h.1 ha
      exact ⟨hb, ((hg.number_eq_iff ha hb).mpr h).symm⟩
  case before =>
    -- Numbers do not grow along edges.
    intro front layer rest hsplit a b ha hedge
    obtain ⟨low, high, hrange, rfl, hhigh⟩ := List.map_eq_append_iff.mp hsplit
    obtain ⟨i, high, rfl, rfl, rfl⟩ := List.map_eq_cons_iff.mp hhigh
    obtain ⟨ha', hi⟩ := hg.mem_layer.mp ha
    have hb := (hg.mem_names_of_next hedge).2
    obtain ⟨w, hw, hbw⟩ := (hg.mem_next (getElem?_idxOf ha')).mp hedge
    have hle := Digraph.number_le hg.closed hw
    rw [hi, ← hg.idxOf_eq hbw] at hle
    rcases Nat.lt_or_eq_of_le hle with hlt | heq
    · have hlow := mem_of_range_eq_append hrange hlt
      exact .inr ⟨_, List.mem_map_of_mem hlow, hg.mem_layer.mpr ⟨hb, rfl⟩⟩
    · exact .inl (hg.mem_layer.mpr ⟨hb, heq⟩)

end
end NamedGraph
end FlowGraph
