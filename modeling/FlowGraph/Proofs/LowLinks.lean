import FlowGraph.Digraph.Named
import FlowGraph.Proofs.DepthFirst

/-! # Low links

The search for components keeps its nodes on a stack.  Two facts about the stack carry the proof: an
older node of the stack reaches every newer one (`Sound.climbs`), and a node that stays on the stack
after its visit reaches one that was there before (`Explored.back`).

During the visit of a node `v` everything above `v` on the stack leads back to `v` (`Looping.back`),
and the low link of `v` bounds the places of all nodes on the stack to which an edge leads from
there (`Looping.bound`).  If in the end the low link is the place of `v` itself, no edge leads from
`v` and what is above it to what is below it.  So these nodes, which reach each other, are a
component, and its edges lead into it and into components that were found before.  Otherwise the low
link is the place of a node below `v`, to which `v` and all above it lead.
-/
namespace FlowGraph
namespace Digraph

open DepthFirst (Reaches)

variable {g : Digraph}

/-! ### Tables of successors -/

@[simp] theorem size_ofSize (n : Nat) : (ofSize n).size = n := Array.size_replicate

@[simp] theorem successors_ofSize (n v : Nat) : (ofSize n).successors v = [] := by
  rw [successors, ofSize, Array.getElem?_replicate]
  split <;> rfl

theorem size_grow (g : Digraph) (v : Nat) : (g.grow v).size = max g.size (v + 1) := by
  rw [size, grow, Array.size_append, Array.size_replicate]
  show g.size + (v + 1 - g.size) = _
  omega

@[simp] theorem successors_grow (g : Digraph) (v x : Nat) :
    (g.grow v).successors x = g.successors x := by
  simp only [successors, grow, Array.getElem?_append]
  split
  · rfl
  · rename_i h
    rw [Array.getElem?_eq_none (Nat.le_of_not_lt h), Array.getElem?_replicate]
    split <;> rfl

theorem size_addEdge (g : Digraph) (v w : Nat) :
    (g.addEdge v w).size = max (max g.size (v + 1)) (w + 1) := by
  rw [size, addEdge, Array.size_modify]
  show ((g.grow v).grow w).size = _
  rw [size_grow, size_grow]

theorem successors_addEdge (g : Digraph) (v w x : Nat) :
    (g.addEdge v w).successors x = if x = v then g.successors v ++ [w] else g.successors x := by
  have hv : v < ((g.grow v).grow w).next.size := by
    show v < ((g.grow v).grow w).size
    rw [size_grow, size_grow]
    omega
  have hgrow : ∀ y, (((g.grow v).grow w).next[y]?).getD [] = g.successors y := fun y => by
    rw [← successors_grow g v, ← successors_grow (g.grow v) w]
    rfl
  rw [successors, addEdge, Array.getElem?_modify]
  by_cases hx : x = v
  · subst hx
    rw [if_pos rfl, if_pos rfl, ← hgrow, Array.getElem?_eq_getElem hv]
    rfl
  · rw [if_neg (Ne.symm hx), if_neg hx, hgrow]

/-- **Edges lead to nodes.** -/
def Closed (g : Digraph) : Prop := ∀ ⦃v w⦄, w ∈ g.successors v → w < g.size

theorem lt_size_of_successor {v w : Nat} (h : w ∈ g.successors v) : v < g.size := by
  by_contra hv
  rw [successors, Array.getElem?_eq_none (Nat.le_of_not_lt hv)] at h
  cases h

theorem mem_nodes {v : Nat} : v ∈ g.nodes ↔ v < g.size := List.mem_range

theorem mem_edges {v w : Nat} : (v, w) ∈ g.edges ↔ w ∈ g.successors v := by
  simp only [edges, List.mem_flatMap, List.mem_map, Prod.mk.injEq, mem_nodes]
  constructor
  · rintro ⟨_, _, _, h, rfl, rfl⟩
    exact h
  · exact fun h => ⟨v, lt_size_of_successor h, w, h, rfl, rfl⟩

theorem closed_iff_edges : g.Closed ↔ ∀ e ∈ g.edges, e.2 < g.size :=
  ⟨fun hg _ he => hg (mem_edges.mp he), fun h v w hedge => h (v, w) (mem_edges.mpr hedge)⟩

instance (g : Digraph) : Decidable g.Closed := decidable_of_iff _ closed_iff_edges.symm

/-- Edges that are added one after the other are there in the end, and no others. -/
theorem mem_successors_foldl {f : Digraph → Nat × Nat → Digraph}
    (adds : Nat × Nat → Nat → Nat → Prop)
    (hf : ∀ q e i j, j ∈ (f q e).successors i ↔ j ∈ q.successors i ∨ adds e i j)
    (es : List (Nat × Nat)) (q : Digraph) {i j : Nat} :
    j ∈ (es.foldl f q).successors i ↔ j ∈ q.successors i ∨ ∃ e ∈ es, adds e i j := by
  induction es generalizing q with
  | nil => simp
  | cons e es ih => rw [List.foldl_cons, ih, hf, List.exists_mem_cons_iff, or_assoc]


/-- Each of two nodes reaches the other. -/
def Together (next : Nat → List Nat) (v u : Nat) : Prop := Reaches next v u ∧ Reaches next u v

theorem Together.symm {next : Nat → List Nat} {v u : Nat} (h : Together next v u) :
    Together next u v := ⟨h.2, h.1⟩

theorem Together.trans {next : Nat → List Nat} {v u w : Nat} (h : Together next v u)
    (h' : Together next u w) : Together next v w := ⟨h.1.trans h'.1, h'.2.trans h.2⟩

namespace Tarjan

variable {t t' : Tarjan} {u v w i : Nat}

/-! ### The tables of the search -/

@[simp] theorem place?_new (n v : Nat) : (new n).place? v = none := by
  rw [place?, new, Array.getElem?_replicate]
  split <;> rfl

@[simp] theorem isOnStack_new (n v : Nat) : (new n).isOnStack v = false := by
  rw [isOnStack, new, Array.getElem?_replicate]
  split <;> rfl

theorem place?_enter (hv : v < t.indices.size) :
    (t.enter v).place? u = if u = v then some t.index else t.place? u := by
  rw [place?, enter, Array.getElem?_setIfInBounds]
  by_cases h : u = v
  · rw [if_pos h.symm, if_pos hv, if_pos h]
    rfl
  · rw [if_neg (Ne.symm h), if_neg h]
    rfl

theorem low_enter (hv : v < t.lowlink.size) :
    (t.enter v).low u = if u = v then t.index else t.low u := by
  rw [low, enter, Array.getElem?_setIfInBounds]
  by_cases h : u = v
  · rw [if_pos h.symm, if_pos hv, if_pos h]
    rfl
  · rw [if_neg (Ne.symm h), if_neg h]
    rfl

theorem isOnStack_enter (hv : v < t.onStack.size) :
    (t.enter v).isOnStack u = if u = v then true else t.isOnStack u := by
  rw [isOnStack, enter, Array.getElem?_setIfInBounds]
  by_cases h : u = v
  · rw [if_pos h.symm, if_pos hv, if_pos h]
    rfl
  · rw [if_neg (Ne.symm h), if_neg h]
    rfl

theorem low_lower (hv : v < t.lowlink.size) :
    (t.lower v i).low u = if u = v then min (t.low v) i else t.low u := by
  rw [low, lower, Array.getElem?_modify]
  by_cases h : u = v
  · subst h
    rw [if_pos rfl, if_pos rfl, low, Array.getElem?_eq_getElem hv]
    rfl
  · rw [if_neg (Ne.symm h), if_neg h]
    rfl

/-- Down to a node that is on the stack once. -/
theorem popTo_append {new rest : List Nat} (hv : v ∉ new) :
    popTo v (new ++ v :: rest) = (new ++ [v], rest) := by
  induction new with
  | nil => exact if_pos rfl
  | cons w new ih =>
    have hw : w ≠ v := fun h => hv (h ▸ List.mem_cons_self)
    rw [List.cons_append, popTo, if_neg hw, ih fun h => hv (List.mem_cons_of_mem w h)]
    rfl

theorem getElem?_foldl_clear (nodes : List Nat) (onStack : Array Bool) (u : Nat) :
    (nodes.foldl (·.setIfInBounds · false) onStack)[u]?.getD false =
      if u ∈ nodes then false else onStack[u]?.getD false := by
  induction nodes generalizing onStack with
  | nil => rfl
  | cons w nodes ih =>
    rw [List.foldl_cons, ih, Array.getElem?_setIfInBounds]
    by_cases hu : u ∈ nodes
    · rw [if_pos hu, if_pos (List.mem_cons_of_mem w hu)]
    · by_cases hw : w = u
      · subst hw
        rw [if_neg hu, if_pos rfl, if_pos List.mem_cons_self]
        split <;> rfl
      · rw [if_neg hu, if_neg hw, if_neg (fun h => (List.mem_cons.mp h).elim (Ne.symm hw) hu)]

theorem size_foldl_clear (nodes : List Nat) (onStack : Array Bool) :
    (nodes.foldl (·.setIfInBounds · false) onStack).size = onStack.size :=
  List.foldlRecOn (motive := fun a : Array Bool => a.size = onStack.size) _ _ rfl
    fun _ ha _ _ => Array.size_setIfInBounds.trans ha

/-! ### What holds between two steps -/

/-- **Components, one after the other**, from each of which edges lead only to itself and to those
before it. -/
structure Grouped (g : Digraph) (found : List (List Nat)) : Prop where
  component : ∀ ⦃ns⦄, ns ∈ found → ∃ v < g.size, ∀ u, u ∈ ns ↔ Together g.successors v u
  disjoint : found.Pairwise List.Disjoint
  onward : ∀ ⦃i : Nat⦄ ⦃ns⦄, found[i]? = some ns → ∀ ⦃v w⦄, v ∈ ns → w ∈ g.successors v →
    ∃ j ≤ i, ∃ ns', found[j]? = some ns' ∧ w ∈ ns'

/-- **The state of a search between two steps.** -/
structure Sound (g : Digraph) (t : Tarjan) : Prop where
  size_indices : t.indices.size = g.size
  size_lowlink : t.lowlink.size = g.size
  size_onStack : t.onStack.size = g.size
  place_lt : ∀ ⦃v i⦄, t.place? v = some i → i < t.index
  isOnStack_iff : ∀ v, t.isOnStack v = true ↔ v ∈ t.stack
  /-- Nodes are on the stack in the order in which they were entered. -/
  descending : t.stack.Pairwise fun x y => ∃ i j, t.place? x = some i ∧ t.place? y = some j ∧ j < i
  /-- The nodes that were entered are on the stack or in a component, and not in both. -/
  sorted : ∀ v, (∃ i, t.place? v = some i) ↔ v ∈ t.stack ∨ ∃ ns ∈ t.result, v ∈ ns
  apart : ∀ ⦃v⦄, v ∈ t.stack → ∀ ns ∈ t.result, v ∉ ns
  climbs : t.stack.Pairwise fun x y => Reaches g.successors y x
  grouped : Grouped g t.result

/-- What is in a component leads to what is in a component. -/
theorem Grouped.mem_of_reaches {found : List (List Nat)} (h : Grouped g found) {v u : Nat}
    (hv : ∃ ns ∈ found, v ∈ ns) (hreach : Reaches g.successors v u) : ∃ ns ∈ found, u ∈ ns := by
  induction hreach with
  | refl => exact hv
  | tail _ hedge ih =>
    obtain ⟨ns, hns, hin⟩ := ih
    obtain ⟨i, hi⟩ := List.getElem?_of_mem hns
    obtain ⟨_, _, ms, hms, hw⟩ := h.onward hi hin hedge
    exact ⟨ms, List.mem_of_getElem? hms, hw⟩

theorem sound_new (g : Digraph) : (new g.size).Sound g where
  size_indices := Array.size_replicate
  size_lowlink := Array.size_replicate
  size_onStack := Array.size_replicate
  place_lt v i h := by simp at h
  isOnStack_iff v := by rw [isOnStack_new]; exact iff_of_false nofun nofun
  descending := .nil
  sorted v := by rw [place?_new]; exact iff_of_false nofun nofun
  apart v h := nomatch h
  climbs := .nil
  grouped := ⟨nofun, .nil, nofun⟩

namespace Sound

section
variable (h : t.Sound g)
include h

theorem lt_size (hv : t.place? v = some i) : v < g.size := by
  by_contra hlt
  rw [place?, Array.getElem?_eq_none (by rw [h.size_indices]; omega)] at hv
  cases hv

theorem nodup_stack : t.stack.Nodup :=
  h.descending.imp fun {x y} hxy => by
    rintro rfl
    obtain ⟨i, j, hi, hj, hlt⟩ := hxy
    exact Nat.ne_of_lt hlt (Option.some.inj (hj.symm.trans hi))

theorem exists_place (hv : v ∈ t.stack) : ∃ i, t.place? v = some i := (h.sorted v).mpr (.inl hv)

/-- A node may be entered to which everything on the stack leads. -/
theorem enter (hv : v < g.size) (hnew : t.place? v = none)
    (hreach : ∀ y ∈ t.stack, Reaches g.successors y v) : (t.enter v).Sound g := by
  have hplace : ∀ u, (t.enter v).place? u = if u = v then some t.index else t.place? u := fun u =>
    place?_enter (h.size_indices ▸ hv)
  have hself : (t.enter v).place? v = some t.index := (hplace v).trans (if_pos rfl)
  have hkept : ∀ {u j}, t.place? u = some j → (t.enter v).place? u = some j := fun {u j} hu => by
    rw [hplace, if_neg, hu]
    rintro rfl
    rw [hnew] at hu
    cases hu
  have hout : v ∉ t.stack ∧ ∀ ns ∈ t.result, v ∉ ns := by
    have hnot := mt (h.sorted v).mpr (by simp [hnew])
    exact ⟨fun hin => hnot (.inl hin), fun ns hns hin => hnot (.inr ⟨ns, hns, hin⟩)⟩
  constructor
  case size_indices => exact Array.size_setIfInBounds.trans h.size_indices
  case size_lowlink => exact Array.size_setIfInBounds.trans h.size_lowlink
  case size_onStack => exact Array.size_setIfInBounds.trans h.size_onStack
  case place_lt =>
    intro u j hu
    rw [hplace] at hu
    split at hu
    · exact Option.some.inj hu ▸ Nat.lt_succ_self _
    · exact Nat.lt_succ_of_lt (h.place_lt hu)
  case isOnStack_iff =>
    intro u
    rw [isOnStack_enter (h.size_onStack ▸ hv)]
    by_cases hu : u = v
    · simp [hu, Tarjan.enter]
    · simp [hu, Tarjan.enter, h.isOnStack_iff]
  case descending =>
    refine List.pairwise_cons.mpr ⟨fun y hy => ?_, h.descending.imp fun {x y} hxy => ?_⟩
    · obtain ⟨j, hj⟩ := h.exists_place hy
      exact ⟨_, j, hself, hkept hj, h.place_lt hj⟩
    · obtain ⟨i, j, hi, hj, hlt⟩ := hxy
      exact ⟨i, j, hkept hi, hkept hj, hlt⟩
  case sorted =>
    intro u
    rw [hplace]
    by_cases hu : u = v
    · simp [hu, Tarjan.enter]
    · simp [hu, Tarjan.enter, h.sorted]
  case apart => exact List.forall_mem_cons.mpr ⟨hout.2, h.apart⟩
  case climbs => exact List.pairwise_cons.mpr ⟨hreach, h.climbs⟩
  case grouped => exact h.grouped

theorem lower (v i : Nat) : (t.lower v i).Sound g :=
  { h with size_lowlink := Array.size_modify.trans h.size_lowlink }

end
end Sound

/-! ### The visit of a node -/

/-- The low link of `v` covers an edge to `w`: the target was entered, and if it is on the stack the
low link is no larger than its place. -/
def Covers (t : Tarjan) (v w : Nat) : Prop :=
  ∃ i, t.place? w = some i ∧ (w ∈ t.stack → t.low v ≤ i)

/-- **What the visit of a node does**, after which the nodes `new` are on top of the stack. -/
structure Explored (g : Digraph) (v : Nat) (t t' : Tarjan) (new : List Nat) : Prop where
  sound : t'.Sound g
  stack_eq : t'.stack = new ++ t.stack
  kept : ∀ ⦃u i⦄, t.place? u = some i → t'.place? u = some i
  low_kept : ∀ ⦃u i⦄, t.place? u = some i → t'.low u = t.low u
  entered : t'.place? v = some t.index
  fresh : ∀ ⦃x⦄, x ∈ new → ∀ ⦃i⦄, t'.place? x = some i → t.index ≤ i
  back : ∀ ⦃x⦄, x ∈ new → ∃ y ∈ t.stack, Reaches g.successors x y
  bound : ∀ ⦃x⦄, x ∈ new → ∀ w ∈ g.successors x, t'.Covers v w
  /-- The low link is the place of a node to which `v` leads, or says that there is none. -/
  low : (∃ y ∈ t'.stack, t'.place? y = some (t'.low v) ∧ Reaches g.successors v y) ∨
    t.index ≤ t'.low v

/-- **The visit of `v` under way**, with the edges to `rest` still to follow and the nodes `new`
above `v` on the stack. -/
structure Looping (g : Digraph) (v : Nat) (t : Tarjan) (rest : List Nat) (t' : Tarjan)
    (new : List Nat) : Prop where
  sound : t'.Sound g
  unmet : t.place? v = none
  stack_eq : t'.stack = new ++ v :: t.stack
  kept : ∀ ⦃u i⦄, t.place? u = some i → t'.place? u = some i
  low_kept : ∀ ⦃u i⦄, t.place? u = some i → t'.low u = t.low u
  entered : t'.place? v = some t.index
  fresh : ∀ ⦃x⦄, x ∈ new → ∀ ⦃i⦄, t'.place? x = some i → t.index < i
  back : ∀ ⦃x⦄, x ∈ new → Reaches g.successors x v
  bound : ∀ ⦃x⦄, x ∈ new → ∀ w ∈ g.successors x, t'.Covers v w
  followed : ∀ w ∈ g.successors v, w ∈ rest ∨ t'.Covers v w
  low_le : t'.low v ≤ t.index
  low : ∃ y ∈ t'.stack, t'.place? y = some (t'.low v) ∧ Reaches g.successors v y

theorem looping_enter (h : t.Sound g) (hv : v < g.size) (hnew : t.place? v = none)
    (hreach : ∀ y ∈ t.stack, Reaches g.successors y v) :
    Looping g v t (g.successors v) (t.enter v) [] := by
  have hplace : ∀ u, (t.enter v).place? u = if u = v then some t.index else t.place? u := fun u =>
    place?_enter (h.size_indices ▸ hv)
  have hlow : ∀ u, (t.enter v).low u = if u = v then t.index else t.low u := fun u =>
    low_enter (h.size_lowlink ▸ hv)
  have hne : ∀ {u j}, t.place? u = some j → u ≠ v := fun hu heq => by
    rw [heq, hnew] at hu
    cases hu
  exact {
    sound := h.enter hv hnew hreach
    unmet := hnew
    stack_eq := rfl
    kept := fun u i hu => (hplace u).trans ((if_neg (hne hu)).trans hu)
    low_kept := fun u i hu => (hlow u).trans (if_neg (hne hu))
    entered := (hplace v).trans (if_pos rfl)
    fresh := nofun
    back := nofun
    bound := nofun
    followed := fun w hw => .inl hw
    low_le := Nat.le_of_eq ((hlow v).trans (if_pos rfl))
    low := ⟨v, List.mem_cons_self, by rw [hplace, hlow, if_pos rfl, if_pos rfl], .refl⟩ }

namespace Looping

variable {rest later new new' : List Nat} {t'' : Tarjan}

section
variable (h : Looping g v t rest t' new)
include h

/-- Everything on the stack leads to the node of the visit. -/
theorem reaches {y : Nat} (hy : y ∈ t'.stack) : Reaches g.successors y v := by
  have hclimbs := h.sound.climbs
  rw [h.stack_eq] at hy hclimbs
  rcases List.mem_append.mp hy with hy | hy
  · exact h.back hy
  · rcases List.mem_cons.mp hy with rfl | hy
    · exact .refl
    · exact (List.pairwise_cons.mp (List.pairwise_append.mp hclimbs).2.1).1 y hy

theorem ne_of_entered (hu : t.place? u = some i) : u ≠ v := by
  rintro rfl
  rw [h.unmet] at hu
  cases hu

theorem mem_stack : v ∈ t'.stack := by
  rw [h.stack_eq]
  exact List.mem_append_right _ List.mem_cons_self

/-- The low link of the node of the visit becomes smaller, or stays. -/
theorem low_lower_le (i : Nat) : (t'.lower v i).low v ≤ t'.low v ∧ (t'.lower v i).low v ≤ i := by
  rw [low_lower (h.sound.size_lowlink ▸ h.sound.lt_size h.entered), if_pos rfl]
  omega

/-- An edge to a node on the stack. -/
theorem follow_stack (hedge : w ∈ g.successors v) (hplace : t'.place? w = some i)
    (hin : w ∈ t'.stack) (hrest : ∀ x ∈ rest, x = w ∨ x ∈ later) :
    Looping g v t later (t'.lower v i) new := by
  have hle := h.low_lower_le i
  have hlow : ∀ u, (t'.lower v i).low u = if u = v then min (t'.low v) i else t'.low u := fun u =>
    low_lower (h.sound.size_lowlink ▸ h.sound.lt_size h.entered)
  have hcovers : ∀ {w}, t'.Covers v w → (t'.lower v i).Covers v w := by
    rintro w ⟨j, hj, hbound⟩
    exact ⟨j, hj, fun hw => Nat.le_trans hle.1 (hbound hw)⟩
  exact { h with
    sound := h.sound.lower v i
    low_kept := fun u j hu => by rw [hlow, if_neg (h.ne_of_entered hu), h.low_kept hu]
    bound := fun x hx w hw => hcovers (h.bound hx w hw)
    followed := fun x hx => by
      rcases h.followed x hx with hx | hx
      · rcases hrest x hx with rfl | hx
        · exact .inr ⟨i, hplace, fun _ => hle.2⟩
        · exact .inl hx
      · exact .inr (hcovers hx)
    low_le := Nat.le_trans hle.1 h.low_le
    low := by
      rw [hlow, if_pos rfl]
      rcases Nat.le_total (t'.low v) i with hmin | hmin
      · rw [Nat.min_eq_left hmin]
        exact h.low
      · rw [Nat.min_eq_right hmin]
        exact ⟨w, hin, hplace, .single hedge⟩ }

/-- An edge to a node of a component that is complete. -/
theorem follow_done (hplace : t'.place? w = some i) (hout : w ∉ t'.stack)
    (hrest : ∀ x ∈ rest, x = w ∨ x ∈ later) : Looping g v t later t' new :=
  { h with
    followed := fun x hx => by
      rcases h.followed x hx with hx | hx
      · rcases hrest x hx with rfl | hx
        · exact .inr ⟨i, hplace, fun hin => absurd hin hout⟩
        · exact .inl hx
      · exact .inr hx }

/-- An edge to a new node, which is visited. -/
theorem follow_new (hedge : w ∈ g.successors v) (hvisit : Explored g w t' t'' new')
    (hrest : ∀ x ∈ rest, x = w ∨ x ∈ later) :
    Looping g v t later (t''.lower v (t''.low w)) (new' ++ new) := by
  have hindex : t.index < t'.index := h.sound.place_lt h.entered
  have hentered : t''.place? v = some t.index := hvisit.kept h.entered
  have hlow : ∀ u, (t''.lower v (t''.low w)).low u =
      if u = v then min (t'.low v) (t''.low w) else t''.low u := fun u => by
    rw [low_lower (hvisit.sound.size_lowlink ▸ hvisit.sound.lt_size hentered),
      hvisit.low_kept h.entered]
  have hself := (hlow v).trans (if_pos rfl)
  -- Whatever was entered before the visit is not among the nodes that the visit put on the stack.
  have hold : ∀ {u j}, t'.place? u = some j → u ∈ t''.stack → u ∈ t'.stack := fun {u j} hu hin => by
    rw [hvisit.stack_eq] at hin
    refine (List.mem_append.mp hin).resolve_left fun hnew => ?_
    exact absurd (h.sound.place_lt hu) (Nat.not_lt.mpr (hvisit.fresh hnew (hvisit.kept hu)))
  have hcovers : ∀ {x}, t'.Covers v x → (t''.lower v (t''.low w)).Covers v x := by
    rintro x ⟨j, hj, hbound⟩
    refine ⟨j, hvisit.kept hj, fun hin => ?_⟩
    have := hbound (hold hj hin)
    omega
  constructor
  case sound => exact hvisit.sound.lower v _
  case unmet => exact h.unmet
  case stack_eq =>
    show t''.stack = _
    rw [hvisit.stack_eq, h.stack_eq, List.append_assoc]
  case kept => exact fun u j hu => hvisit.kept (h.kept hu)
  case low_kept =>
    intro u j hu
    rw [hlow, if_neg (h.ne_of_entered hu), hvisit.low_kept (h.kept hu), h.low_kept hu]
  case entered => exact hentered
  case fresh =>
    intro x hx j hj
    rcases List.mem_append.mp hx with hx | hx
    · exact Nat.lt_of_lt_of_le hindex (hvisit.fresh hx hj)
    · obtain ⟨k, hk⟩ := h.sound.exists_place (h.stack_eq ▸ List.mem_append_left _ hx)
      have hjk : j = k := Option.some.inj (hj.symm.trans (hvisit.kept hk))
      exact hjk ▸ h.fresh hx hk
  case back =>
    intro x hx
    rcases List.mem_append.mp hx with hx | hx
    · obtain ⟨y, hy, hreach⟩ := hvisit.back hx
      exact hreach.trans (h.reaches hy)
    · exact h.back hx
  case bound =>
    intro x hx u hu
    rcases List.mem_append.mp hx with hx | hx
    · obtain ⟨j, hj, hbound⟩ := hvisit.bound hx u hu
      refine ⟨j, hj, fun hin => ?_⟩
      have := hbound hin
      omega
    · exact hcovers (h.bound hx u hu)
  case followed =>
    intro x hx
    rcases h.followed x hx with hx | hx
    · rcases hrest x hx with rfl | hx
      · refine .inr ⟨_, hvisit.entered, fun _ => ?_⟩
        have := h.low_le
        omega
      · exact .inl hx
    · exact .inr (hcovers hx)
  case low_le =>
    have := h.low_le
    omega
  case low =>
    rw [hself]
    rcases Nat.le_total (t'.low v) (t''.low w) with hmin | hmin
    · obtain ⟨y, hy, hplace, hreach⟩ := h.low
      rw [Nat.min_eq_left hmin]
      exact ⟨y, hvisit.stack_eq ▸ List.mem_append_right _ hy, hvisit.kept hplace, hreach⟩
    · rw [Nat.min_eq_right hmin]
      rcases hvisit.low with ⟨y, hy, hplace, hreach⟩ | hnone
      · exact ⟨y, hy, hplace, .head hedge hreach⟩
      · have := h.low_le
        omega

end

/-! ### The end of a visit -/

section
variable (ht : t.Sound g) (h : Looping g v t [] t' new)
include h

theorem covers {x : Nat} (hx : x ∈ new ++ [v]) (hedge : w ∈ g.successors x) : t'.Covers v w := by
  rcases List.mem_append.mp hx with hx | hx
  · exact h.bound hx w hedge
  · rw [List.mem_singleton.mp hx] at hedge
    exact (h.followed w hedge).resolve_left List.not_mem_nil

theorem back_last {x : Nat} (hx : x ∈ new ++ [v]) : Reaches g.successors x v := by
  rcases List.mem_append.mp hx with hx | hx
  · exact h.back hx
  · rw [List.mem_singleton.mp hx]

theorem stack_last : t'.stack = (new ++ [v]) ++ t.stack := by
  rw [h.stack_eq, List.append_assoc]
  rfl

/-- A node that stays on the stack leads to one that was there before. -/
theorem explored_stay (hlow : t'.place? v ≠ some (t'.low v)) : Explored g v t t' (new ++ [v]) := by
  constructor
  case sound => exact h.sound
  case stack_eq => exact h.stack_last
  case kept => exact h.kept
  case low_kept => exact h.low_kept
  case entered => exact h.entered
  case fresh =>
    intro x hx i hi
    rcases List.mem_append.mp hx with hx | hx
    · exact Nat.le_of_lt (h.fresh hx hi)
    · rw [List.mem_singleton.mp hx, h.entered] at hi
      exact Nat.le_of_eq (Option.some.inj hi)
  case back =>
    intro x hx
    obtain ⟨y, hy, hplace, hreach⟩ := h.low
    refine ⟨y, ?_, (h.back_last hx).trans hreach⟩
    rw [h.stack_eq] at hy
    rcases List.mem_append.mp hy with hy | hy
    · exact absurd h.low_le (Nat.not_le.mpr (h.fresh hy hplace))
    · refine (List.mem_cons.mp hy).resolve_left ?_
      rintro rfl
      exact hlow hplace
  case bound => exact fun x hx w hw => h.covers hx hw
  case low => exact .inl h.low

theorem leave_eq (hlow : t'.place? v = some (t'.low v)) : t'.leave v = { t' with
    stack := t.stack
    onStack := (new ++ [v]).foldl (·.setIfInBounds · false) t'.onStack
    result := t'.result ++ [new ++ [v]] } := by
  have hnodup := h.sound.nodup_stack
  rw [h.stack_eq] at hnodup
  have hv : v ∉ new := fun hin =>
    (List.nodup_append'.mp hnodup).2.2 hin List.mem_cons_self
  rw [leave, if_pos hlow, h.stack_eq, popTo_append hv]

include ht

/-- If the low link of a node is its place, no edge leads below it on the stack. -/
theorem onward_or_done (hlow : t'.place? v = some (t'.low v)) {x : Nat} (hx : x ∈ new ++ [v])
    (hedge : w ∈ g.successors x) : w ∈ new ++ [v] ∨ ∃ ns ∈ t'.result, w ∈ ns := by
  obtain ⟨i, hi, hbound⟩ := h.covers hx hedge
  rcases (h.sound.sorted w).mp ⟨i, hi⟩ with hin | hin
  · left
    have hle := hbound hin
    rw [h.stack_last] at hin
    refine (List.mem_append.mp hin).resolve_right fun hbelow => ?_
    obtain ⟨j, hj⟩ := ht.exists_place hbelow
    have hij : i = j := Option.some.inj (hi.symm.trans (h.kept hj))
    have htop : t'.low v = t.index := Option.some.inj (hlow.symm.trans h.entered)
    have := ht.place_lt hj
    omega
  · exact .inr hin

/-- **A node whose low link is its place has its component above it on the stack.** -/
theorem component_iff (hlow : t'.place? v = some (t'.low v)) (u : Nat) :
    u ∈ new ++ [v] ↔ Together g.successors v u := by
  constructor
  · intro hu
    refine ⟨?_, h.back_last hu⟩
    have hclimbs := h.sound.climbs
    rw [h.stack_eq] at hclimbs
    rcases List.mem_append.mp hu with hu | hu
    · exact (List.pairwise_append.mp hclimbs).2.2 u hu v List.mem_cons_self
    · rw [List.mem_singleton.mp hu]
  · rintro ⟨hout, hback⟩
    have hin : u ∈ new ++ [v] ∨ ∃ ns ∈ t'.result, u ∈ ns := by
      clear hback
      induction hout with
      | refl => exact .inl (List.mem_append_right _ (List.mem_singleton.mpr rfl))
      | @tail x u _ hedge ih =>
        rcases ih with hx | hx
        · exact h.onward_or_done ht hlow hx hedge
        · exact .inr (h.sound.grouped.mem_of_reaches hx (.single hedge))
    refine hin.resolve_right fun hdone => ?_
    obtain ⟨ns, hns, hv⟩ := h.sound.grouped.mem_of_reaches hdone hback
    exact h.sound.apart h.mem_stack ns hns hv

theorem grouped_append (hlow : t'.place? v = some (t'.low v)) :
    Grouped g (t'.result ++ [new ++ [v]]) := by
  have hold := h.sound.grouped
  constructor
  case component =>
    intro ns hns
    rcases List.mem_append.mp hns with hns | hns
    · exact hold.component hns
    · rw [List.mem_singleton.mp hns]
      exact ⟨v, h.sound.lt_size h.entered, h.component_iff ht hlow⟩
  case disjoint =>
    refine List.pairwise_append.mpr ⟨hold.disjoint,
      List.pairwise_singleton .., fun ns hns ms hms => ?_⟩
    rw [List.mem_singleton.mp hms]
    intro u hu hu'
    exact h.sound.apart (h.stack_last ▸ List.mem_append_left _ hu') ns hns hu
  case onward =>
    intro i ns hi x w hx hedge
    rcases Nat.lt_or_ge i t'.result.length with hlt | hge
    · rw [List.getElem?_append_left hlt] at hi
      obtain ⟨j, hj, ms, hms, hw⟩ := hold.onward hi hx hedge
      exact ⟨j, hj, ms, by rw [List.getElem?_append_left (by omega), hms], hw⟩
    · have hlen : i < (t'.result ++ [new ++ [v]]).length := (List.getElem?_eq_some_iff.mp hi).1
      rw [List.length_append, List.length_singleton] at hlen
      obtain rfl : i = t'.result.length := by omega
      rw [List.getElem?_concat_length] at hi
      obtain rfl := Option.some.inj hi
      rcases h.onward_or_done ht hlow hx hedge with hw | ⟨ms, hms, hw⟩
      · exact ⟨_, Nat.le_refl _, _, List.getElem?_concat_length, hw⟩
      · obtain ⟨j, hj⟩ := List.getElem?_of_mem hms
        have hlt := (List.getElem?_eq_some_iff.mp hj).1
        exact ⟨j, Nat.le_of_lt hlt, ms, by rw [List.getElem?_append_left hlt, hj], hw⟩

/-- A component is taken off the stack. -/
theorem sound_leave (hlow : t'.place? v = some (t'.low v)) : (t'.leave v).Sound g := by
  have hs := h.sound
  have hsplit : ∀ u, u ∈ t'.stack ↔ u ∈ new ++ [v] ∨ u ∈ t.stack := fun u => by
    rw [h.stack_last, List.mem_append]
  have hnodup := hs.nodup_stack
  rw [h.stack_last] at hnodup
  have happart : ∀ u ∈ t.stack, u ∉ new ++ [v] := fun u hu hin =>
    (List.nodup_append'.mp hnodup).2.2 hin hu
  have hsub : t.stack.Sublist t'.stack := h.stack_last ▸ List.sublist_append_right _ _
  rw [h.leave_eq hlow]
  constructor
  case size_indices => exact hs.size_indices
  case size_lowlink => exact hs.size_lowlink
  case size_onStack => exact (size_foldl_clear _ _).trans hs.size_onStack
  case place_lt => exact hs.place_lt
  case isOnStack_iff =>
    intro u
    rw [isOnStack, getElem?_foldl_clear]
    split
    · rename_i hin
      exact iff_of_false nofun fun hu => happart u hu hin
    · rename_i hout
      exact (hs.isOnStack_iff u).trans ((hsplit u).trans (or_iff_right hout))
  case descending => exact hs.descending.sublist hsub
  case sorted =>
    intro u
    have hfound : (∃ ns ∈ t'.result ++ [new ++ [v]], u ∈ ns) ↔
        u ∈ new ++ [v] ∨ ∃ ns ∈ t'.result, u ∈ ns := by
      simp [or_and_right, exists_or, or_comm]
    exact (hs.sorted u).trans ((or_congr_left (hsplit u)).trans
      (or_assoc.trans (or_left_comm.trans (or_congr_right hfound.symm))))
  case apart =>
    intro u hu ns hns
    rcases List.mem_append.mp hns with hns | hns
    · exact hs.apart (hsub.subset hu) ns hns
    · rw [List.mem_singleton.mp hns]
      exact happart u hu
  case climbs => exact hs.climbs.sublist hsub
  case grouped => exact h.grouped_append ht hlow

theorem explored_pop (hlow : t'.place? v = some (t'.low v)) : Explored g v t (t'.leave v) [] := by
  have hsound := h.sound_leave ht hlow
  have heq := h.leave_eq hlow
  rw [heq] at hsound ⊢
  exact {
    sound := hsound
    stack_eq := rfl
    kept := h.kept
    low_kept := h.low_kept
    entered := h.entered
    fresh := nofun
    back := nofun
    bound := nofun
    low := .inr (Nat.le_of_eq (Option.some.inj (h.entered.symm.trans hlow))) }

theorem explored : ∃ new', Explored g v t (t'.leave v) new' := by
  by_cases hlow : t'.place? v = some (t'.low v)
  · exact ⟨[], h.explored_pop ht hlow⟩
  · rw [leave, if_neg hlow]
    exact ⟨_, h.explored_stay hlow⟩

end
end Looping

/-! ### The search -/

/-- The nodes that are still to be entered. -/
def unplaced (g : Digraph) (t : Tarjan) : List Nat := g.nodes.filter fun v => (t.place? v).isNone

theorem unplaced_le (h : ∀ ⦃u i⦄, t.place? u = some i → t'.place? u = some i) :
    (unplaced g t').length ≤ (unplaced g t).length := by
  refine (List.monotone_filter_right g.nodes fun u hu => ?_).length_le
  rw [Option.isNone_iff_eq_none] at hu ⊢
  refine Option.eq_none_iff_forall_ne_some.mpr fun i hi => ?_
  rw [h hi] at hu
  cases hu

theorem unplaced_lt (hv : v < g.size) (hnew : t.place? v = none)
    (h : ∀ ⦃u i⦄, t.place? u = some i → t'.place? u = some i) (hentered : t'.place? v = some i) :
    (unplaced g t').length < (unplaced g t).length := by
  refine DepthFirst.length_filter_lt (fun u hu => ?_) (mem_nodes.mpr hv) (by rw [hnew]; rfl)
    (by rw [hentered]; nofun)
  rw [Option.isNone_iff_eq_none] at hu ⊢
  refine Option.eq_none_iff_forall_ne_some.mpr fun i hi => ?_
  rw [h hi] at hu
  cases hu

/-- What a visit has to do, of a node to which everything on the stack leads. -/
def Connects (g : Digraph) (fuel : Nat) (connect : Tarjan → Nat → Tarjan) : Prop :=
  ∀ t w, t.Sound g → w < g.size → t.place? w = none → (∀ y ∈ t.stack, Reaches g.successors y w) →
    (unplaced g t).length ≤ fuel → ∃ new, Explored g w t (connect t w) new

/-- All edges of a node are followed, if visits do what they have to. -/
theorem Looping.foldl_follow {fuel : Nat} {connect : Tarjan → Nat → Tarjan} (hg : g.Closed)
    (hconnect : Connects g fuel connect) (rest : List Nat) {new : List Nat}
    (h : Looping g v t rest t' new) (hrest : ∀ w ∈ rest, w ∈ g.successors v)
    (hfuel : (unplaced g t').length ≤ fuel) :
    ∃ new', Looping g v t [] (rest.foldl (follow connect v) t') new' := by
  induction rest generalizing t' new with
  | nil => exact ⟨new, h⟩
  | cons w rest ih =>
    obtain ⟨hedge, hrest⟩ := List.forall_mem_cons.mp hrest
    have hlater : ∀ x ∈ w :: rest, x = w ∨ x ∈ rest := fun x hx => List.mem_cons.mp hx
    rw [List.foldl_cons]
    cases hplace : t'.place? w with
    | none =>
      obtain ⟨new', hvisit⟩ := hconnect t' w h.sound (hg hedge) hplace
        (fun y hy => (h.reaches hy).tail hedge) hfuel
      have hstep := h.follow_new hedge hvisit hlater
      rw [follow, hplace]
      exact ih hstep hrest (Nat.le_trans (unplaced_le hvisit.kept) hfuel)
    | some i =>
      rw [follow, hplace]
      by_cases hin : w ∈ t'.stack
      · simp only [(h.sound.isOnStack_iff w).mpr hin, if_true]
        exact ih (h.follow_stack hedge hplace hin hlater) hrest hfuel
      · simp only [mt (h.sound.isOnStack_iff w).mp hin]
        exact ih (h.follow_done hplace hin hlater) hrest hfuel

/-- **Every visit does what it has to**, when the bound covers the nodes still to be entered. -/
theorem connects_strongConnect (hg : g.Closed) (fuel : Nat) :
    Connects g fuel (g.strongConnect fuel) := by
  induction fuel with
  | zero =>
    intro t v _ hv hnew _ hfuel
    have hin : v ∈ unplaced g t := List.mem_filter.mpr ⟨mem_nodes.mpr hv, by rw [hnew]; rfl⟩
    exact absurd (List.length_pos_of_mem hin) (Nat.not_lt.mpr hfuel)
  | succ fuel ih =>
    intro t v ht hv hnew hreach hfuel
    have hstart := looping_enter ht hv hnew hreach
    have hlt := unplaced_lt hv hnew hstart.kept hstart.entered
    obtain ⟨new, hloop⟩ := hstart.foldl_follow hg ih (g.successors v) (fun _ hw => hw) (by omega)
    exact hloop.explored ht

/-- One node after the other is visited from an empty stack. -/
theorem sound_foldl (hg : g.Closed) (vs : List Nat) (hvs : ∀ v ∈ vs, v < g.size) (ht : t.Sound g)
    (hempty : t.stack = []) :
    let t' := vs.foldl
      (fun t v => if (t.place? v).isNone then g.strongConnect g.size t v else t) t
    t'.Sound g ∧ t'.stack = [] ∧ (∀ ⦃u i⦄, t.place? u = some i → t'.place? u = some i) ∧
      ∀ v ∈ vs, ∃ i, t'.place? v = some i := by
  induction vs generalizing t with
  | nil => exact ⟨ht, hempty, fun _ _ h => h, nofun⟩
  | cons v vs ih =>
    obtain ⟨hv, hvs⟩ := List.forall_mem_cons.mp hvs
    rw [List.foldl_cons]
    cases hplace : t.place? v with
    | some i =>
      obtain ⟨hsound, hstack, hkept, hall⟩ := ih hvs ht hempty
      exact ⟨hsound, hstack, hkept, List.forall_mem_cons.mpr ⟨⟨i, hkept hplace⟩, hall⟩⟩
    | none =>
      have hfuel : (unplaced g t).length ≤ g.size :=
        Nat.le_trans (List.length_filter_le ..) (Nat.le_of_eq List.length_range)
      obtain ⟨new, hvisit⟩ := connects_strongConnect hg g.size t v ht hv hplace
        (by rw [hempty]; nofun) hfuel
      have hnew : new = [] := by
        refine List.eq_nil_iff_forall_not_mem.mpr fun x hx => ?_
        obtain ⟨y, hy, -⟩ := hvisit.back hx
        rw [hempty] at hy
        cases hy
      have hstack := hvisit.stack_eq
      rw [hnew, hempty] at hstack
      obtain ⟨hsound, hstack, hkept, hall⟩ := ih hvs hvisit.sound hstack
      exact ⟨hsound, hstack, fun u i hu => hkept (hvisit.kept hu),
        List.forall_mem_cons.mpr ⟨⟨_, hkept hvisit.entered⟩, hall⟩⟩

end Tarjan

/-- **The search finds components**, one after the other, and every node is in one. -/
theorem grouped_groups (hg : g.Closed) :
    Tarjan.Grouped g g.groups ∧ ∀ v < g.size, ∃ ns ∈ g.groups, v ∈ ns := by
  obtain ⟨hsound, hstack, -, hall⟩ :=
    Tarjan.sound_foldl hg g.nodes (fun _ => mem_nodes.mp) (Tarjan.sound_new g) rfl
  refine ⟨hsound.grouped, fun v hv => ?_⟩
  refine ((hsound.sorted v).mp (hall v (mem_nodes.mpr hv))).resolve_left ?_
  rw [hstack]
  nofun

end Digraph
end FlowGraph
