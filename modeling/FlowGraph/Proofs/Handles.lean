import FlowGraph.Proofs.Outline

/-! # Handles are never given out twice

A handle is the number of a slot, and a new block or edge gets a slot behind all that there ever
were.  So a slot that has been given out and is empty stays empty, whatever happens to the graph:
that is what `Follows` says of a graph and a later state of it.
-/
namespace FlowGraph
namespace Graph

/-- **A later state of a graph**: no slot disappears, and one that is empty stays empty. -/
structure Follows (g g' : Graph) : Prop where
  blocks_le : g.blocks.size ≤ g'.blocks.size
  edges_le : g.edges.size ≤ g'.edges.size
  block?_gone : ∀ {b}, b.slot < g.blocks.size → g.block? b = none → g'.block? b = none
  edge?_gone : ∀ {e}, e.slot < g.edges.size → g.edge? e = none → g'.edge? e = none

theorem slot_lt_of_edge? {g : Graph} {e : EdgeId} {edge : Edge} (h : g.edge? e = some edge) :
    e.slot < g.edges.size := by
  apply Nat.lt_of_not_le
  intro hge
  rw [edge?_of_le hge] at h
  cases h

theorem edge?_modifyEdge (g : Graph) (e e' : EdgeId) (f : Edge → Edge) :
    (g.modifyEdge e f).edge? e' = if e' = e then (g.edge? e').map f else g.edge? e' := by
  unfold modifyEdge edge?
  rw [Array.getElem?_modify]
  by_cases h : e' = e
  · subst h
    rw [if_pos rfl, if_pos rfl]
    cases g.edges[e'.slot]? with
    | none => rfl
    | some x => cases x <;> rfl
  · have hs : ¬ e.slot = e'.slot := fun hs => h (EdgeId.ext hs.symm)
    rw [if_neg hs, if_neg h]

namespace Follows

variable {g g' g'' : Graph}

theorem refl (g : Graph) : g.Follows g := ⟨Nat.le_refl _, Nat.le_refl _, fun _ => id, fun _ => id⟩

theorem trans (h : g.Follows g') (h' : g'.Follows g'') : g.Follows g'' where
  blocks_le := Nat.le_trans h.blocks_le h'.blocks_le
  edges_le := Nat.le_trans h.edges_le h'.edges_le
  block?_gone hlt hb := h'.block?_gone (Nat.lt_of_lt_of_le hlt h.blocks_le) (h.block?_gone hlt hb)
  edge?_gone hlt he := h'.edge?_gone (Nat.lt_of_lt_of_le hlt h.edges_le) (h.edge?_gone hlt he)

/-- A block that was in use and is removed does not come back. -/
theorem block?_stale {g₀ : Graph} (h₀ : g₀.Follows g) (h : g.Follows g') {b : BlockId}
    {block : Block}
    (hlive : g₀.block? b = some block) (hgone : g.block? b = none) : g'.block? b = none :=
  h.block?_gone (Nat.lt_of_lt_of_le (slot_lt_of_block? hlive) h₀.blocks_le) hgone

theorem edge?_stale {g₀ : Graph} (h₀ : g₀.Follows g) (h : g.Follows g') {e : EdgeId} {edge : Edge}
    (hlive : g₀.edge? e = some edge) (hgone : g.edge? e = none) : g'.edge? e = none :=
  h.edge?_gone (Nat.lt_of_lt_of_le (slot_lt_of_edge? hlive) h₀.edges_le) hgone

/-! ### Elementary changes -/

theorem of_outline (h : SameOutline g g') : g.Follows g' where
  blocks_le := Nat.le_of_eq h.size_eq.symm
  edges_le := Nat.le_of_eq (congrArg Array.size h.edges_eq.symm)
  block?_gone {b} _ hb := by
    have hmap := h.outline_eq b
    rw [hb] at hmap
    exact Option.map_eq_none_iff.mp hmap
  edge?_gone _ he := (h.edge?_eq _).trans he

theorem modifyBlock (g : Graph) (b : BlockId) (f : Block → Block) :
    g.Follows (g.modifyBlock b f) where
  blocks_le := Nat.le_of_eq (size_modifyBlock ..).symm
  edges_le := Nat.le_refl _
  block?_gone _ hc := by
    rw [block?_modifyBlock, hc]
    split <;> rfl
  edge?_gone _ := id

theorem modifyEdge (g : Graph) (e : EdgeId) (f : Edge → Edge) : g.Follows (g.modifyEdge e f) where
  blocks_le := Nat.le_refl _
  edges_le := Nat.le_of_eq Array.size_modify.symm
  block?_gone _ := id
  edge?_gone _ he := by
    rw [edge?_modifyEdge, he]
    split <;> rfl

theorem clearEdge (g : Graph) (e : EdgeId) : g.Follows (g.clearEdge e) where
  blocks_le := Nat.le_refl _
  edges_le := Nat.le_of_eq Array.size_setIfInBounds.symm
  block?_gone _ := id
  edge?_gone _ he := by
    rw [edge?_clearEdge, he]
    split <;> rfl

theorem clearBlock (g : Graph) (b : BlockId) : g.Follows (g.clearBlock b) where
  blocks_le := Nat.le_of_eq Array.size_setIfInBounds.symm
  edges_le := Nat.le_refl _
  block?_gone _ hc := by
    rw [block?_clearBlock, hc]
    split <;> rfl
  edge?_gone _ := id

theorem addBlock (g : Graph) (k : Kind) : g.Follows (g.addBlock k).2 where
  blocks_le := by
    rw [size_addBlock]
    exact Nat.le_succ _
  edges_le := Nat.le_refl _
  block?_gone {b} hlt hb := by
    have hne : b ≠ ⟨g.blocks.size⟩ := fun h => Nat.lt_irrefl _ (h ▸ hlt)
    rw [block?_addBlock, if_neg hne, hb]
  edge?_gone _ := id

theorem addUnlistedEdge (g : Graph) (edge : Edge) : g.Follows (g.addUnlistedEdge edge).2 where
  blocks_le := Nat.le_refl _
  edges_le := by
    show g.edges.size ≤ (g.edges.push (some edge)).size
    rw [Array.size_push]
    exact Nat.le_succ _
  block?_gone _ := id
  edge?_gone {e} hlt he := by
    have hne : e ≠ ⟨g.edges.size⟩ := fun h => Nat.lt_irrefl _ (h ▸ hlt)
    rw [edge?_addUnlistedEdge, if_neg hne, he]

/-! ### What they are put together to -/

theorem addEdge (g : Graph) (edge : Edge) : g.Follows (g.addEdge edge).2 :=
  ((addUnlistedEdge g edge).trans (modifyBlock ..)).trans (modifyBlock ..)

theorem removeEdge (g : Graph) (e : EdgeId) : g.Follows (g.removeEdge e) := by
  unfold Graph.removeEdge
  cases g.edge? e with
  | none => exact refl g
  | some edge => exact ((modifyBlock ..).trans (modifyBlock ..)).trans (clearEdge ..)

theorem foldl {α : Type} {step : Graph → α → Graph} (hstep : ∀ (g : Graph) x, g.Follows (step g x))
    (xs : List α) (g : Graph) : g.Follows (xs.foldl step g) := by
  induction xs generalizing g with
  | nil => exact refl g
  | cons x xs ih => exact (hstep g x).trans (ih _)

theorem removeBlock (g : Graph) (b : BlockId) : g.Follows (g.removeBlock b) := by
  unfold Graph.removeBlock
  cases g.block? b with
  | none => exact refl g
  | some block => exact (foldl removeEdge _ g).trans (clearBlock ..)

theorem redirect (g : Graph) (e : EdgeId) (edge : Edge) (t : BlockId) :
    g.Follows (g.redirect e edge t).2 :=
  ((((addUnlistedEdge ..).trans (modifyBlock ..)).trans (modifyBlock ..)).trans
    (modifyBlock ..)).trans (clearEdge ..)

theorem splitEdge (g : Graph) (e : EdgeId) (edge : Edge) (k : Kind) :
    g.Follows (g.splitEdge e edge k).graph :=
  ((((((addBlock ..).trans (addUnlistedEdge ..)).trans (addUnlistedEdge ..)).trans
    (modifyBlock ..)).trans (modifyBlock ..)).trans (modifyBlock ..)).trans (clearEdge ..)

theorem extendChain (g : Graph) (last : BlockId) (ks : List Kind) :
    g.Follows (g.extendChain last ks).2 := by
  induction ks generalizing g last with
  | nil => exact refl g
  | cons k ks ih => exact ((addBlock g k).trans (addEdge _ _)).trans (ih _ _)

end Follows
end Graph
end FlowGraph
