import FlowGraph.Proofs.Removal

/-! # Parts of a graph

Some blocks of a graph with the edges between them are a graph again, with everything in the slot
where it was and every list in the order it had (`Graph.keeping`).  Removing blocks one after the
other leaves such a part (`Listed.foldl_removeBlock_eq`), so pruning leaves the part that the entry
reaches, with the exit.
-/
namespace FlowGraph

/-- Without phi functions a block loses edges from its lists only. -/
theorem Block.foldl_without_of_bare {x : Block} (hx : x.phis = .empty) (es : List EdgeId) :
    es.foldl (fun x e => x.without e) x =
      { x with preds := x.preds.filter (· ∉ es), succs := x.succs.filter (· ∉ es) } := by
  induction es generalizing x with
  | nil => simp
  | cons e es ih =>
    have hbare : (x.without e).phis = x.phis := by
      simp only [Block.without, hx, Phis.map, OrdMap.mapValues_empty]
    have hfilter : ∀ l : List EdgeId, (l.filter (· ≠ e)).filter (· ∉ es) =
        l.filter (· ∉ e :: es) := by
      intro l
      rw [List.filter_filter]
      refine List.filter_congr fun e' _ => ?_
      simp [Bool.and_comm]
    rw [List.foldl_cons, ih (hbare.trans hx), hbare]
    simp only [Block.without, hfilter]

namespace Graph

variable {g g' : Graph} {keep keep' : BlockId → Bool}

/-! ### Equal tables -/

theorem edges_ext (hsize : g'.edges.size = g.edges.size) (h : ∀ e, g'.edge? e = g.edge? e) :
    g'.edges = g.edges := by
  refine Array.ext hsize fun i hi hi' => ?_
  have hslot := h ⟨i⟩
  simp only [edge?, Array.getElem?_eq_getElem hi, Array.getElem?_eq_getElem hi',
    Option.join_some] at hslot
  exact hslot

/-! ### Parts -/

/-- Whether an edge is there and joins two of the blocks. -/
def joinsKept (g : Graph) (keep : BlockId → Bool) (e : EdgeId) : Bool :=
  (g.edge? e).any fun x => keep x.source && keep x.target

/-- A block with those edges only. -/
def trimmed (g : Graph) (keep : BlockId → Bool) (x : Block) : Block :=
  { x with preds := x.preds.filter (g.joinsKept keep), succs := x.succs.filter (g.joinsKept keep) }

/-- **Part of a graph**: some of its blocks and the edges between them.  Nothing else changes: what
is kept stays in its slot, and the lists of a block stay in their order. -/
def keeping (g : Graph) (keep : BlockId → Bool) : Graph where
  name := g.name
  blocks := g.blocks.map fun slot => (slot.filter (keep ·.id)).map (g.trimmed keep)
  edges := g.edges.map fun slot => slot.filter fun x => keep x.source && keep x.target

@[simp] theorem size_blocks_keeping (g : Graph) (keep : BlockId → Bool) :
    (g.keeping keep).blocks.size = g.blocks.size := Array.size_map

@[simp] theorem size_edges_keeping (g : Graph) (keep : BlockId → Bool) :
    (g.keeping keep).edges.size = g.edges.size := Array.size_map

theorem edge?_keeping (g : Graph) (keep : BlockId → Bool) (e : EdgeId) :
    (g.keeping keep).edge? e = (g.edge? e).filter fun x => keep x.source && keep x.target := by
  simp only [keeping, edge?, Array.getElem?_map]
  cases g.edges[e.slot]? <;> rfl

theorem block?_keeping (g : Graph) (keep : BlockId → Bool) (b : BlockId) :
    (g.keeping keep).block? b = ((g.block? b).filter (keep ·.id)).map (g.trimmed keep) := by
  simp only [keeping, block?, Array.getElem?_map]
  cases g.blocks[b.slot]? <;> rfl

theorem joinsKept_keeping (g : Graph) (keep keep' : BlockId → Bool) (e : EdgeId) :
    ((g.keeping keep).joinsKept keep' e && g.joinsKept keep e) =
      g.joinsKept (fun b => keep b && keep' b) e := by
  rw [joinsKept, joinsKept, joinsKept, edge?_keeping]
  cases g.edge? e with
  | none => rfl
  | some x =>
    simp only [Option.filter_some, Option.any_some]
    cases keep x.source <;> cases keep x.target <;> simp

/-- **A part of a part.** -/
theorem keeping_keeping (g : Graph) (keep keep' : BlockId → Bool) :
    (g.keeping keep).keeping keep' = g.keeping fun b => keep b && keep' b := by
  refine ext_block? rfl (edges_ext ?_ fun e => ?_) ?_ fun b => ?_
  · simp only [size_edges_keeping]
  · rw [edge?_keeping, edge?_keeping, edge?_keeping]
    cases g.edge? e with
    | none => rfl
    | some x =>
      simp only [Option.filter_some]
      cases keep x.source <;> cases keep x.target <;> simp [Option.filter_some]
  · simp only [size_blocks_keeping]
  · rw [block?_keeping, block?_keeping, block?_keeping]
    cases g.block? b with
    | none => rfl
    | some x =>
      simp only [Option.filter_some]
      cases hid : keep x.id with
      | false => rfl
      | true =>
        have htwice : (g.keeping keep).trimmed keep' (g.trimmed keep x) =
            g.trimmed (fun b => keep b && keep' b) x := by
          simp only [trimmed, List.filter_filter, joinsKept_keeping]
        have hsame : (g.trimmed keep x).id = x.id := rfl
        simp only [if_true, Option.map_some, Option.filter_some, hsame, Bool.true_and]
        cases keep' x.id with
        | false => rfl
        | true => exact congrArg some htwice

theorem size_edges_foldl_removeEdge (es : List EdgeId) (g : Graph) :
    (es.foldl Graph.removeEdge g).edges.size = g.edges.size := by
  induction es generalizing g with
  | nil => rfl
  | cons e es ih =>
    rw [List.foldl_cons, ih, Graph.removeEdge]
    split
    · rfl
    · exact Array.size_setIfInBounds

theorem size_edges_removeBlock (g : Graph) (b : BlockId) :
    (g.removeBlock b).edges.size = g.edges.size := by
  rw [Graph.removeBlock]
  split
  · rfl
  · exact size_edges_foldl_removeEdge ..

namespace Listed

variable (hg : g.Listed)
include hg

/-- What becomes of blocks that are not there makes no difference. -/
theorem keeping_congr (h : ∀ {b block}, g.block? b = some block → keep' b = keep b) :
    g.keeping keep' = g.keeping keep := by
  have hedge : ∀ {e x}, g.edge? e = some x →
      (keep' x.source && keep' x.target) = (keep x.source && keep x.target) := by
    intro e x he
    obtain ⟨_, hs⟩ := hg.source_live he
    obtain ⟨_, ht⟩ := hg.target_live he
    rw [h hs, h ht]
  have htrimmed : g.trimmed keep' = g.trimmed keep := by
    have hjoins : g.joinsKept keep' = g.joinsKept keep := by
      funext e
      rw [joinsKept, joinsKept]
      cases he : g.edge? e with
      | none => rfl
      | some x => exact hedge he
    funext x
    rw [trimmed, trimmed, hjoins]
  refine ext_block? rfl (edges_ext ?_ fun e => ?_) ?_ fun b => ?_
  · simp only [size_edges_keeping]
  · rw [edge?_keeping, edge?_keeping]
    cases he : g.edge? e with
    | none => rfl
    | some x => simp only [Option.filter_some, hedge he]
  · simp only [size_blocks_keeping]
  · rw [block?_keeping, block?_keeping]
    cases hb : g.block? b with
    | none => rfl
    | some x =>
      have hid : keep' x.id = keep x.id := by
        rw [hg.id_eq hb]
        exact h hb
      simp only [Option.filter_some, hid, htrimmed]

/-- **The whole** is a part. -/
theorem keeping_eq_self (h : ∀ {b block}, g.block? b = some block → keep b = true) :
    g.keeping keep = g := by
  have hall : g.keeping keep = g.keeping fun _ => true := hg.keeping_congr h
  rw [hall]
  refine ext_block? rfl (edges_ext ?_ fun e => ?_) ?_ fun b => ?_
  · simp only [size_edges_keeping]
  · rw [edge?_keeping]
    cases g.edge? e <;> rfl
  · simp only [size_blocks_keeping]
  · rw [block?_keeping]
    cases hb : g.block? b with
    | none => rfl
    | some x =>
      have hedges : ∀ es : List EdgeId, (∀ e ∈ es, ∃ y, g.edge? e = some y) →
          es.filter (g.joinsKept fun _ => true) = es := by
        intro es hes
        refine List.filter_eq_self.mpr fun e he => ?_
        obtain ⟨y, hy⟩ := hes e he
        rw [joinsKept, hy]
        rfl
      have hpreds := hedges x.preds fun e he => ((hg.mem_preds hb e).mp he).imp fun _ h => h.1
      have hsuccs := hedges x.succs fun e he => ((hg.mem_succs hb e).mp he).imp fun _ h => h.1
      simp only [Option.filter_some, if_true, Option.map_some, trimmed, hpreds, hsuccs]

/-- **Removing a block** leaves all others. -/
theorem removeBlock_eq (hp : g.PhiFree) (b : BlockId) :
    g.removeBlock b = g.keeping fun c => decide (c ≠ b) := by
  cases hb : g.block? b with
  | none =>
    have hself : g.removeBlock b = g := by rw [Graph.removeBlock, hb]
    rw [hself, hg.keeping_eq_self]
    intro c block hc
    refine decide_eq_true ?_
    rintro rfl
    cases hb.symm.trans hc
  | some block =>
    have hres := hg.removeBlock b
    refine ext_block? hres.order.name_eq (edges_ext ?_ fun e => ?_) ?_ fun c => ?_
    · rw [size_edges_removeBlock, size_edges_keeping]
    · rw [edge?_keeping]
      refine Option.ext fun x => ?_
      rw [hres.edge?_iff]
      simp [Option.filter_eq_some_iff]
    · rw [hres.size_eq, size_blocks_keeping]
    · rw [hg.block?_removeBlock hb, block?_keeping]
      cases hc : g.block? c with
      | none => simp
      | some x =>
        -- the edges that are left are those that do not touch the block
        have htouch : ∀ {e}, e ∈ x.preds ∨ e ∈ x.succs →
            decide (e ∉ block.preds ++ block.succs) = g.joinsKept (fun c => decide (c ≠ b)) e := by
          intro e he
          have hlive : ∃ y, g.edge? e = some y := by
            rcases he with he | he
            · exact ((hg.mem_preds hc e).mp he).imp fun _ h => h.1
            · exact ((hg.mem_succs hc e).mp he).imp fun _ h => h.1
          obtain ⟨y, hy⟩ := hlive
          simp [joinsKept, List.mem_append, hg.mem_preds hb, hg.mem_succs hb, hy, and_comm]
        have hpreds := List.filter_congr (l := x.preds) fun e he => htouch (.inl he)
        have hsuccs := List.filter_congr (l := x.succs) fun e he => htouch (.inr he)
        have htrimmed : (block.preds ++ block.succs).foldl (fun x e => x.without e) x =
            g.trimmed (fun c => decide (c ≠ b)) x := by
          rw [Block.foldl_without_of_bare (hp hc), hpreds, hsuccs]
          rfl
        rw [Option.map_some, htrimmed, Option.filter_some, hg.id_eq hc]
        by_cases hcb : c = b
        · simp [hcb]
        · simp [hcb]

/-- **Removing several blocks** leaves all others. -/
theorem foldl_removeBlock_eq (hp : g.PhiFree) (bs : List BlockId) :
    bs.foldl Graph.removeBlock g = g.keeping fun c => decide (c ∉ bs) := by
  induction bs generalizing g with
  | nil =>
    refine (hg.keeping_eq_self fun _ => ?_).symm
    simp
  | cons b bs ih =>
    have hone := hg.removeBlock b
    rw [List.foldl_cons, ih hone.listed (hone.phiFree hp), hg.removeBlock_eq hp, keeping_keeping]
    refine congrArg g.keeping (funext fun c => ?_)
    simp

end Listed

/-- **Pruning** leaves what the entry reaches, and the exit. -/
theorem WellFormed.foldl_unreachable_eq (hg : g.WellFormed) (hp : g.PhiFree)
    (hkeep : ∀ b, keep b = true ↔ b = exit ∨ g.Reachable b) :
    g.unreachable.foldl Graph.removeBlock g = g.keeping keep := by
  rw [hg.listed.foldl_removeBlock_eq hp]
  refine hg.listed.keeping_congr fun {b block} hb => ?_
  rw [Bool.eq_iff_iff, decide_eq_true_eq, hg.mem_unreachable, hkeep]
  constructor
  · intro hnot
    by_contra hout
    exact hnot ⟨⟨block, hb⟩, not_or.mp hout⟩
  · rintro (rfl | hreach) ⟨-, hne, hnot⟩
    · exact hne rfl
    · exact hnot hreach

end Graph
end FlowGraph
