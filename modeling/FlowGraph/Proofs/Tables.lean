import FlowGraph.Graph.Tables
import FlowGraph.Graph.Violation
import FlowGraph.Proofs.OrdMap

/-! # What the tables of a graph hold

A graph is read through `block?` and `edge?`.  This module says what these give after each
elementary change, and which blocks and edges the listings of a graph run over.
-/
namespace FlowGraph
namespace Graph

variable {g : Graph}

/-- What a block does, if it is in use. -/
def kind? (g : Graph) (b : BlockId) : Option Kind := (g.block? b).map (·.kind)

theorem kind?_of_block? {b : BlockId} {block : Block} (h : g.block? b = some block) :
    g.kind? b = some block.kind := by
  rw [kind?, h]
  rfl

theorem block?_of_kind? {b : BlockId} {k : Kind} (h : g.kind? b = some k) :
    ∃ block, g.block? b = some block ∧ block.kind = k :=
  Option.map_eq_some_iff.mp h

theorem slot_lt_of_block? {b : BlockId} {block : Block} (h : g.block? b = some block) :
    b.slot < g.blocks.size := by
  unfold block? at h
  rcases Nat.lt_or_ge b.slot g.blocks.size with hlt | hge
  · exact hlt
  · rw [Array.getElem?_eq_none hge] at h
    cases h

/-! ### Elementary changes -/

theorem block?_modifyBlock (g : Graph) (b c : BlockId) (f : Block → Block) :
    (g.modifyBlock b f).block? c = if c = b then (g.block? c).map f else g.block? c := by
  unfold modifyBlock block?
  rw [Array.getElem?_modify]
  by_cases h : c = b
  · subst h
    rw [if_pos rfl, if_pos rfl]
    cases g.blocks[c.slot]? with
    | none => rfl
    | some x => cases x <;> rfl
  · have hs : ¬ b.slot = c.slot := fun hs => h (BlockId.ext hs.symm)
    rw [if_neg hs, if_neg h]

theorem modifyBlock_congr {g : Graph} {b : BlockId} {f f' : Block → Block}
    (h : ∀ {block}, g.block? b = some block → f block = f' block) :
    g.modifyBlock b f = g.modifyBlock b f' := by
  have hblocks : g.blocks.modify b.slot (Option.map f) =
      g.blocks.modify b.slot (Option.map f') := by
    refine Array.ext_getElem? fun i => ?_
    rw [Array.getElem?_modify, Array.getElem?_modify]
    split
    · rename_i hi
      subst hi
      cases hs : g.blocks[b.slot]? with
      | none => rfl
      | some slot =>
        cases slot with
        | none => rfl
        | some block =>
          have hb : g.block? b = some block := by rw [block?, hs]; rfl
          rw [Option.map_some, Option.map_some, Option.map_some, Option.map_some, h hb]
    · rfl
  rw [modifyBlock, hblocks, modifyBlock]

theorem modifyBlock_eq_self {g : Graph} {b : BlockId} {f : Block → Block}
    (h : ∀ {block}, g.block? b = some block → f block = block) : g.modifyBlock b f = g := by
  have hid : g.blocks.modify b.slot (Option.map id) = g.blocks := by
    refine Array.ext_getElem? fun i => ?_
    rw [Array.getElem?_modify, Option.map_id]
    split <;> simp
  have hf : ∀ {block}, g.block? b = some block → f block = id block := h
  rw [modifyBlock_congr hf, modifyBlock, hid]

@[simp] theorem edge?_modifyBlock (g : Graph) (b : BlockId) (f : Block → Block) (e : EdgeId) :
    (g.modifyBlock b f).edge? e = g.edge? e := rfl

@[simp] theorem size_modifyBlock (g : Graph) (b : BlockId) (f : Block → Block) :
    (g.modifyBlock b f).blocks.size = g.blocks.size := Array.size_modify

@[simp] theorem edges_modifyBlock (g : Graph) (b : BlockId) (f : Block → Block) :
    (g.modifyBlock b f).edges = g.edges := rfl

@[simp] theorem block?_clearEdge (g : Graph) (e : EdgeId) (b : BlockId) :
    (g.clearEdge e).block? b = g.block? b := rfl

@[simp] theorem blocks_clearEdge (g : Graph) (e : EdgeId) :
    (g.clearEdge e).blocks = g.blocks := rfl

theorem edge?_clearEdge (g : Graph) (e e' : EdgeId) :
    (g.clearEdge e).edge? e' = if e' = e then none else g.edge? e' := by
  unfold clearEdge edge?
  rw [Array.getElem?_setIfInBounds]
  by_cases h : e' = e
  · subst h
    rw [if_pos rfl, if_pos rfl]
    split <;> rfl
  · have hs : ¬ e.slot = e'.slot := fun hs => h (EdgeId.ext hs.symm)
    rw [if_neg hs, if_neg h]

theorem block?_clearBlock (g : Graph) (b c : BlockId) :
    (g.clearBlock b).block? c = if c = b then none else g.block? c := by
  unfold clearBlock block?
  rw [Array.getElem?_setIfInBounds]
  by_cases h : c = b
  · subst h
    rw [if_pos rfl, if_pos rfl]
    split <;> rfl
  · have hs : ¬ b.slot = c.slot := fun hs => h (BlockId.ext hs.symm)
    rw [if_neg hs, if_neg h]

@[simp] theorem edge?_clearBlock (g : Graph) (b : BlockId) (e : EdgeId) :
    (g.clearBlock b).edge? e = g.edge? e := rfl

theorem block?_addBlock (g : Graph) (k : Kind) (c : BlockId) :
    (g.addBlock k).2.block? c =
      if c = ⟨g.blocks.size⟩ then some { id := ⟨g.blocks.size⟩, kind := k } else g.block? c := by
  unfold addBlock block?
  simp only [Array.getElem?_push]
  by_cases h : c = ⟨g.blocks.size⟩
  · subst h
    simp
  · have hs : ¬ c.slot = g.blocks.size := fun hs => h (BlockId.ext hs)
    rw [if_neg hs, if_neg h]

@[simp] theorem edge?_addBlock (g : Graph) (k : Kind) (e : EdgeId) :
    (g.addBlock k).2.edge? e = g.edge? e := rfl

@[simp] theorem size_addBlock (g : Graph) (k : Kind) :
    (g.addBlock k).2.blocks.size = g.blocks.size + 1 := Array.size_push ..

theorem size_blocks_addEdge (g : Graph) (edge : Edge) :
    (g.addEdge edge).2.blocks.size = g.blocks.size := by
  simp [addEdge, addUnlistedEdge, modifyBlock]

@[simp] theorem block?_addUnlistedEdge (g : Graph) (edge : Edge) (b : BlockId) :
    (g.addUnlistedEdge edge).2.block? b = g.block? b := rfl

theorem edge?_addUnlistedEdge (g : Graph) (edge : Edge) (e : EdgeId) :
    (g.addUnlistedEdge edge).2.edge? e =
      if e = ⟨g.edges.size⟩ then some edge else g.edge? e := by
  unfold addUnlistedEdge edge?
  simp only [Array.getElem?_push]
  by_cases h : e = ⟨g.edges.size⟩
  · subst h
    simp
  · have hs : ¬ e.slot = g.edges.size := fun hs => h (EdgeId.ext hs)
    rw [if_neg hs, if_neg h]

theorem block?_fresh (g : Graph) : g.block? ⟨g.blocks.size⟩ = none := by
  unfold block?
  rw [Array.getElem?_eq_none (Nat.le_refl _)]
  rfl

theorem edge?_of_le {e : EdgeId} (h : g.edges.size ≤ e.slot) : g.edge? e = none := by
  unfold edge?
  rw [Array.getElem?_eq_none h]
  rfl

theorem edge?_fresh (g : Graph) : g.edge? ⟨g.edges.size⟩ = none := edge?_of_le (Nat.le_refl _)

theorem ext_block? {g' : Graph} (hname : g'.name = g.name) (hedges : g'.edges = g.edges)
    (hsize : g'.blocks.size = g.blocks.size) (h : ∀ b, g'.block? b = g.block? b) : g' = g := by
  have hblocks : g'.blocks = g.blocks := by
    refine Array.ext hsize fun i hi hi' => ?_
    have hslot := h ⟨i⟩
    simp only [block?, Array.getElem?_eq_getElem hi, Array.getElem?_eq_getElem hi',
      Option.join_some] at hslot
    exact hslot
  obtain ⟨name, blocks, edges⟩ := g
  obtain ⟨name', blocks', edges'⟩ := g'
  cases hname
  cases hedges
  cases hblocks
  rfl

/-- Changes every block. -/
def mapBlocks (g : Graph) (f : Block → Block) : Graph :=
  { g with blocks := g.blocks.map (Option.map f) }

@[simp] theorem block?_mapBlocks (g : Graph) (f : Block → Block) (b : BlockId) :
    (g.mapBlocks f).block? b = (g.block? b).map f := by
  simp only [mapBlocks, block?, Array.getElem?_map]
  cases g.blocks[b.slot]? <;> rfl

/-! ### Listings -/

theorem isLive_iff {b : BlockId} : g.isLive b = true ↔ ∃ block, g.block? b = some block :=
  Option.isSome_iff_exists

theorem mem_liveBlocks {block : Block} :
    block ∈ g.liveBlocks ↔ ∃ b, g.block? b = some block := by
  simp only [liveBlocks, List.mem_filterMap, id_eq, exists_eq_right, block?]
  rw [Array.mem_toList_iff, Array.mem_iff_getElem?]
  constructor
  · rintro ⟨i, hi⟩
    exact ⟨⟨i⟩, by rw [hi]; rfl⟩
  · rintro ⟨b, hb⟩
    exact ⟨b.slot, Option.join_eq_some_iff.mp hb⟩

theorem mem_zipIdx_toList {α : Type} {xs : Array α} {a : α} {i : Nat} :
    (a, i) ∈ xs.toList.zipIdx ↔ xs[i]? = some a := by
  rw [List.mem_zipIdx_iff_getElem?, Array.getElem?_toList]

theorem mem_liveSlots {block : Block} {slot : Nat} :
    (block, slot) ∈ g.liveSlots ↔ g.block? ⟨slot⟩ = some block := by
  simp only [liveSlots, List.mem_filterMap, Prod.exists, Option.map_eq_some_iff, Prod.mk.injEq]
  constructor
  · rintro ⟨o, i, hmem, block', rfl, rfl, rfl⟩
    rw [block?, mem_zipIdx_toList.mp hmem]
    rfl
  · intro h
    exact ⟨some block, slot, mem_zipIdx_toList.mpr (Option.join_eq_some_iff.mp h), block, rfl, rfl,
      rfl⟩

theorem mem_liveEdges {e : EdgeId} {edge : Edge} :
    (e, edge) ∈ g.liveEdges ↔ g.edge? e = some edge := by
  simp only [liveEdges, List.mem_filterMap, Prod.exists, Option.map_eq_some_iff, Prod.mk.injEq]
  constructor
  · rintro ⟨o, i, hmem, edge', rfl, rfl, rfl⟩
    rw [edge?, mem_zipIdx_toList.mp hmem]
    rfl
  · intro h
    exact ⟨some edge, e.slot, mem_zipIdx_toList.mpr (Option.join_eq_some_iff.mp h), edge, rfl, rfl,
      rfl⟩

end Graph
end FlowGraph
