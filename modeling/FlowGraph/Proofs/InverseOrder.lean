import FlowGraph.Proofs.LowLinks
import Mathlib.Data.List.Perm.Subperm

/-! # Inverse topological order

The nodes that the search is done with are kept newest first, each on top of all that it leads to
(`Stacked`).  In such a stack no node is on a cycle, and read from the bottom it is the order asked
for.

The search goes down a path, all nodes of which lead to the node it has come to (`Descends`).
Coming to a node of the path again, it has found a cycle; otherwise the path grows, without a
repetition, so it is no longer than there are nodes, and the bound on the depth of the search is
never met (`settle_outcome`).
-/
namespace FlowGraph
namespace Digraph

variable {g : Digraph}

/-- **A node on a cycle**: one or more edges lead from it back to it. -/
def OnCycle (g : Digraph) (v : Nat) : Prop := Relation.TransGen (fun a b => b ∈ g.successors a) v v

theorem OnCycle.lt_size {v : Nat} (h : g.OnCycle v) : v < g.size := by
  obtain ⟨w, hedge, -⟩ := Relation.TransGen.head'_iff.mp h
  exact lt_size_of_successor hedge

/-! ### Stacks of nodes -/

/-- **Nodes that lie on top of all that they lead to**, each once. -/
inductive Stacked (g : Digraph) : List Nat → Prop
  | nil : Stacked g []
  | cons {v : Nat} {done : List Nat} (node : v < g.size) (fresh : v ∉ done)
      (below : ∀ w ∈ g.successors v, w ∈ done) (rest : Stacked g done) : Stacked g (v :: done)

namespace Stacked

variable {done : List Nat} (h : Stacked g done)
include h

theorem nodup : done.Nodup := by
  induction h with
  | nil => exact .nil
  | cons _ fresh _ _ ih => exact List.nodup_cons.mpr ⟨fresh, ih⟩

theorem lt_size {v : Nat} (hv : v ∈ done) : v < g.size := by
  induction h with
  | nil => cases hv
  | cons node _ _ _ ih =>
    rcases List.mem_cons.mp hv with rfl | hv
    · exact node
    · exact ih hv

/-- A node lies above what it leads to. -/
theorem sublist {v w : Nat} (hv : v ∈ done) (hedge : w ∈ g.successors v) : [v, w].Sublist done := by
  induction h with
  | nil => cases hv
  | cons _ _ below _ ih =>
    rcases List.mem_cons.mp hv with rfl | hv
    · exact (List.singleton_sublist.mpr (below w hedge)).cons_cons v
    · exact (ih hv).cons _

theorem mem_of_reaches {v w : Nat} (hv : v ∈ done)
    (hreach : DepthFirst.Reaches g.successors v w) : w ∈ done := by
  induction hreach with
  | refl => exact hv
  | tail _ hedge ih => exact (h.sublist ih hedge).subset (by simp)

/-- What lies in a stack is on no cycle: a cycle through the topmost node would lead into the rest
of the stack and out of it again. -/
theorem not_onCycle {v : Nat} (hv : v ∈ done) : ¬ g.OnCycle v := by
  induction h with
  | nil => cases hv
  | cons _ fresh below rest ih =>
    rcases List.mem_cons.mp hv with rfl | hv
    · intro hcycle
      obtain ⟨w, hedge, hback⟩ := Relation.TransGen.head'_iff.mp hcycle
      exact fresh (rest.mem_of_reaches (below w hedge) hback)
    · exact ih hv

end Stacked

/-! ### The search -/

/-- **The search has come to `v` by a path**: every node of the path leads to `v`, and none is on it
twice. -/
structure Descends (g : Digraph) (path : List Nat) (v : Nat) : Prop where
  nodup : path.Nodup
  leads : ∀ p ∈ path, Relation.TransGen (fun a b => b ∈ g.successors a) p v

namespace Descends

variable {path : List Nat} {v : Nat} (h : Descends g path v)
include h

theorem length_le : path.length ≤ g.size := by
  have hsub : path ⊆ List.range g.size := fun p hp => by
    obtain ⟨w, hedge, -⟩ := Relation.TransGen.head'_iff.mp (h.leads p hp)
    exact List.mem_range.mpr (lt_size_of_successor hedge)
  have hle := (List.subperm_of_subset h.nodup hsub).length_le
  rwa [List.length_range] at hle

/-- One edge further down. -/
theorem step (hv : v ∉ path) {w : Nat} (hedge : w ∈ g.successors v) : Descends g (v :: path) w := by
  refine ⟨List.nodup_cons.mpr ⟨hv, h.nodup⟩, fun p hp => ?_⟩
  rcases List.mem_cons.mp hp with rfl | hp
  · exact .single hedge
  · exact (h.leads p hp).tail hedge

end Descends

/-- **What comes of settling the nodes `vs`**: they are stacked on what was there, without the nodes
of the path, or a node on a cycle is found. -/
def Outcome (g : Digraph) (path done vs : List Nat) : Except Nat (List Nat) → Prop
  | .ok done' => Stacked g done' ∧ done ⊆ done' ∧ (∀ v ∈ vs, v ∈ done') ∧ ∀ p ∈ path, p ∉ done'
  | .error v => g.OnCycle v

/-- One node after the other is settled, each on top of what is there by then. -/
theorem foldlM_outcome {step : List Nat → Nat → Except Nat (List Nat)} {path done vs : List Nat}
    (hstep : ∀ v ∈ vs, ∀ done, Stacked g done → (∀ p ∈ path, p ∉ done) →
      Outcome g path done [v] (step done v))
    (hdone : Stacked g done) (hpath : ∀ p ∈ path, p ∉ done) :
    Outcome g path done vs (vs.foldlM step done) := by
  induction vs generalizing done with
  | nil => exact ⟨hdone, List.Subset.refl _, nofun, hpath⟩
  | cons v vs ih =>
    obtain ⟨hv, hvs⟩ := List.forall_mem_cons.mp hstep
    have hfirst := hv done hdone hpath
    rw [List.foldlM_cons]
    cases hrun : step done v with
    | error u =>
      rw [hrun] at hfirst
      exact hfirst
    | ok done₁ =>
      rw [hrun] at hfirst
      obtain ⟨hdone₁, hsub₁, hmem₁, hpath₁⟩ := hfirst
      have hrest := ih hvs hdone₁ hpath₁
      show Outcome g path done (v :: vs) (vs.foldlM step done₁)
      cases hrun' : vs.foldlM step done₁ with
      | error u =>
        rw [hrun'] at hrest
        exact hrest
      | ok done₂ =>
        rw [hrun'] at hrest
        obtain ⟨hdone₂, hsub₂, hmem₂, hpath₂⟩ := hrest
        have hv₂ : v ∈ done₂ := hsub₂ (hmem₁ v (List.mem_singleton.mpr rfl))
        exact ⟨hdone₂, List.Subset.trans hsub₁ hsub₂, List.forall_mem_cons.mpr ⟨hv₂, hmem₂⟩, hpath₂⟩

/-- **Settling a node**, with room for the rest of the graph below it. -/
theorem settle_outcome (hg : g.Closed) {fuel : Nat} {path done : List Nat} {v : Nat}
    (hfuel : g.size < fuel + path.length) (hv : v < g.size) (hdescends : Descends g path v)
    (hdone : Stacked g done) (hpath : ∀ p ∈ path, p ∉ done) :
    Outcome g path done [v] (g.settle fuel path done v) := by
  induction fuel generalizing path done v with
  | zero =>
    have := hdescends.length_le
    omega
  | succ fuel ih =>
    rw [settle]
    by_cases hmet : v ∈ done
    · rw [if_pos hmet]
      exact ⟨hdone, List.Subset.refl _, fun w hw => List.mem_singleton.mp hw ▸ hmet, hpath⟩
    rw [if_neg hmet]
    by_cases hloop : v ∈ path
    · rw [if_pos hloop]
      exact hdescends.leads v hloop
    rw [if_neg hloop]
    -- All that `v` leads to is settled with `v` on the path, so `v` itself is not among it.
    have hbelow : Outcome g (v :: path) done (g.successors v)
        ((g.successors v).foldlM (g.settle fuel (v :: path)) done) := by
      refine foldlM_outcome (fun w hw done hdone hpath => ?_) hdone
        (List.forall_mem_cons.mpr ⟨hmet, hpath⟩)
      exact ih (by rw [List.length_cons]; omega) (hg hw) (hdescends.step hloop hw) hdone hpath
    cases hrun : (g.successors v).foldlM (g.settle fuel (v :: path)) done with
    | error u =>
      rw [hrun] at hbelow
      exact hbelow
    | ok done' =>
      rw [hrun] at hbelow
      obtain ⟨hdone', hsub, hmem, hpath'⟩ := hbelow
      obtain ⟨hfresh, hpath'⟩ := List.forall_mem_cons.mp hpath'
      refine ⟨.cons hv hfresh hmem hdone', List.Subset.trans hsub (List.subset_cons_self v done'),
        fun w hw => List.mem_singleton.mp hw ▸ List.mem_cons_self, fun p hp hin => ?_⟩
      rcases List.mem_cons.mp hin with rfl | hin
      · exact hloop hp
      · exact hpath' p hp hin

theorem inverseOrder_outcome (hg : g.Closed) :
    Outcome g [] [] g.nodes (g.nodes.foldlM (g.settle (g.size + 1) []) []) := by
  refine foldlM_outcome (fun v hv done hdone hpath => ?_) .nil nofun
  exact settle_outcome hg (Nat.lt_succ_self _) (mem_nodes.mp hv) ⟨.nil, nofun⟩ hdone hpath

/-- **What comes of the search of all nodes**: a stack of them, or a node on a cycle. -/
theorem inverseOrder_cases (hg : g.Closed) :
    (∃ order, g.inverseOrder = .ok order ∧ Stacked g order.reverse ∧ ∀ v, v ∈ order ↔ v < g.size) ∨
      ∃ v, g.inverseOrder = .error v ∧ g.OnCycle v := by
  have houtcome := inverseOrder_outcome hg
  rw [inverseOrder]
  cases hrun : g.nodes.foldlM (g.settle (g.size + 1) []) [] with
  | error u =>
    rw [hrun] at houtcome
    exact .inr ⟨u, rfl, houtcome⟩
  | ok done =>
    rw [hrun] at houtcome
    obtain ⟨hdone, -, hmem, -⟩ := houtcome
    refine .inl ⟨done.reverse, rfl, (List.reverse_reverse done).symm ▸ hdone, fun v => ?_⟩
    exact List.mem_reverse.trans ⟨hdone.lt_size, fun hv => hmem v (mem_nodes.mpr hv)⟩

/-- A node comes after what it leads to, when a stack is read from the bottom. -/
theorem Stacked.sublist_reverse {order : List Nat} (h : Stacked g order.reverse) {v w : Nat}
    (hv : v ∈ order) (hedge : w ∈ g.successors v) : [w, v].Sublist order :=
  List.reverse_sublist.mp (h.sublist (List.mem_reverse.mpr hv) hedge)

/-- **A graph without a cycle is ordered.** -/
theorem exists_inverseOrder (hg : g.Closed) (hacyclic : ∀ v, ¬ g.OnCycle v) :
    ∃ order, g.inverseOrder = .ok order ∧ order.Nodup ∧ (∀ v, v ∈ order ↔ v < g.size) ∧
      ∀ v w, w ∈ g.successors v → [w, v].Sublist order := by
  rcases inverseOrder_cases hg with ⟨order, hrun, hstack, hmem⟩ | ⟨v, -, hcycle⟩
  · refine ⟨order, hrun, List.nodup_reverse.mp hstack.nodup, hmem, fun v w hedge => ?_⟩
    exact hstack.sublist_reverse ((hmem v).mpr (lt_size_of_successor hedge)) hedge
  · exact absurd hcycle (hacyclic v)

/-- **The inverse topological order is found exactly if there is one.**  A graph without a cycle is
ordered: every node is listed once, after all that it leads to.  In a graph with a cycle the search
names a node on one. -/
theorem inverseOrder_exact (g : Digraph) (hg : g.Closed) :
    ((∃ order, g.inverseOrder = .ok order) ↔ ∀ v, ¬ g.OnCycle v) ∧
    (∀ order, g.inverseOrder = .ok order → order.Nodup ∧ (∀ v, v ∈ order ↔ v < g.size) ∧
      ∀ v w, w ∈ g.successors v → [w, v].Sublist order) ∧
    ∀ v, g.inverseOrder = .error v → v < g.size ∧ g.OnCycle v := by
  rcases inverseOrder_cases hg with ⟨order, hrun, hstack, hmem⟩ | ⟨u, hrun, hcycle⟩
  · have hacyclic : ∀ v, ¬ g.OnCycle v := fun v hcycle =>
      hstack.not_onCycle (List.mem_reverse.mpr ((hmem v).mpr hcycle.lt_size)) hcycle
    obtain ⟨order', hrun', hspec⟩ := exists_inverseOrder hg hacyclic
    rw [hrun'] at hrun ⊢
    refine ⟨iff_of_true ⟨_, rfl⟩ hacyclic, fun _ horder => ?_, nofun⟩
    exact Except.ok.inj horder ▸ hspec
  · rw [hrun]
    refine ⟨iff_of_false nofun fun h => h u hcycle, nofun, fun v hv => ?_⟩
    obtain rfl : u = v := Except.error.inj hv
    exact ⟨hcycle.lt_size, hcycle⟩

/-! ### Numbers that go down -/

theorem settle_of_mem {fuel : Nat} {path done : List Nat} {v : Nat} (hv : v ∈ done) :
    g.settle (fuel + 1) path done v = .ok done := by
  rw [settle, if_pos hv]

theorem foldlM_settle_of_mem {fuel : Nat} {path done vs : List Nat} (h : ∀ v ∈ vs, v ∈ done) :
    vs.foldlM (g.settle (fuel + 1) path) done = .ok done := by
  induction vs with
  | nil => rfl
  | cons v vs ih =>
    obtain ⟨hv, h⟩ := List.forall_mem_cons.mp h
    rw [List.foldlM_cons, settle_of_mem hv]
    exact ih h

/-- The first nodes are settled in their order, if edges lead to smaller numbers. -/
theorem foldlM_settle_range (hdown : ∀ v w, w ∈ g.successors v → w < v)
    {n : Nat} (hn : n ≤ g.size) :
    (List.range n).foldlM (g.settle (g.size + 1) []) [] = .ok (List.range n).reverse := by
  induction n with
  | zero => rfl
  | succ n ih =>
    obtain ⟨fuel, hfuel⟩ : ∃ fuel, g.size = fuel + 1 := ⟨g.size - 1, by omega⟩
    have hbelow : ∀ w ∈ g.successors n, w ∈ (List.range n).reverse := fun w hw =>
      List.mem_reverse.mpr (List.mem_range.mpr (hdown n w hw))
    have hnode : g.settle (g.size + 1) [] (List.range n).reverse n =
        .ok (n :: (List.range n).reverse) := by
      rw [settle, if_neg (by simp), if_neg List.not_mem_nil, hfuel, foldlM_settle_of_mem hbelow]
      rfl
    rw [List.range_succ, List.foldlM_append, ih (Nat.le_of_succ_le hn), List.reverse_append]
    show [n].foldlM (g.settle (g.size + 1) []) (List.range n).reverse = _
    rw [List.foldlM_cons, hnode]
    rfl

/-- **Nodes whose edges lead to smaller numbers are in order already.** -/
theorem inverseOrder_of_descending (hdown : ∀ v w, w ∈ g.successors v → w < v) :
    g.inverseOrder = .ok g.nodes := by
  rw [inverseOrder, nodes, foldlM_settle_range hdown (Nat.le_refl _)]
  exact congrArg Except.ok (List.reverse_reverse _)

/-- Two ways down to the same node, one of them by two edges. -/
def stairs : Digraph := ⟨#[[4], [2, 3, 3], [], [], [3, 1]]⟩

/-- A way into a cycle of two nodes, and a node that leads to itself. -/
def whirl : Digraph := ⟨#[[1], [2, 2], [1], [3]]⟩

/-- Coming down the stairs every node is listed, and the whirl is entered at its first node. -/
theorem inverseOrder_exact_stairs_whirl :
    (stairs.Closed ∧ stairs.inverseOrder = .ok [3, 2, 1, 4, 0] ∧
      (∀ v, ¬ stairs.OnCycle v) ∧ [3, 4].Sublist [3, 2, 1, 4, 0]) ∧
    whirl.Closed ∧ whirl.inverseOrder = .error 1 ∧ whirl.OnCycle 1 := by
  have hstairs : stairs.Closed := by decide
  have hwhirl : whirl.Closed := by decide
  have hdown : stairs.inverseOrder = .ok [3, 2, 1, 4, 0] := by decide
  have hround : whirl.inverseOrder = .error 1 := by decide
  obtain ⟨hok, horder, -⟩ := inverseOrder_exact stairs hstairs
  obtain ⟨-, -, hcycle⟩ := inverseOrder_exact whirl hwhirl
  exact ⟨⟨hstairs, hdown, hok.mp ⟨_, hdown⟩, (horder _ hdown).2.2 4 3 (by decide)⟩,
    hwhirl, hround, (hcycle 1 hround).2⟩

end Digraph
end FlowGraph
