import FlowGraph.Proofs.Removal
import FlowGraph.Ssa.Leaving

/-! # Putting blocks onto edges

A new block on an edge takes the edge out of the graph and two new ones in: the first half leads
from the old source to the block, the second half from the block to the old target.  No block but
these mentions the edge, so the change is the same as giving the edge its new handles everywhere
(`Block.resplit`), and the graph stays well-formed (`WellFormed.splitEdge`).
-/
namespace FlowGraph

/-- A block that mentions an edge by the handles of its two halves. -/
def Block.resplit (e head tail : EdgeId) (b : Block) : Block :=
  { b with
    preds := Graph.renameIn e tail b.preds
    succs := Graph.renameIn e head b.succs
    phis := b.phis.map (·.moveArg e tail) }

theorem Phi.moveArg_eq_self {p : Phi} {e new : EdgeId} (h : p.arg? e = none) :
    p.moveArg e new = p := by
  rw [moveArg, h]

theorem Phi.arg?_moveArg {p : Phi} {e new : EdgeId} (hnew : p.arg? new = none) (e' : EdgeId) :
    (p.moveArg e new).arg? e' =
      if e' = new then p.arg? e else if e' = e then none else p.arg? e' := by
  rw [moveArg]
  cases he : p.arg? e with
  | none =>
    simp only
    split
    · rename_i heq
      rw [heq, hnew]
    · split
      · rename_i heq
        rw [heq, he]
      · rfl
  | some v => rw [arg?_setArg, arg?_dropArg]

namespace Graph

variable {g : Graph}

/-! ### Handles in lists -/

theorem renameIn_eq_self {e new : EdgeId} {es : List EdgeId} (h : e ∉ es) :
    renameIn e new es = es := by
  rw [renameIn]
  refine (List.map_congr_left fun e' he' => ?_).trans (List.map_id es)
  have hne : e' ≠ e := fun heq => h (heq ▸ he')
  rw [if_neg hne, id]

theorem mem_renameIn {e new e' : EdgeId} {es : List EdgeId} :
    e' ∈ renameIn e new es ↔ e' ∈ es ∧ e' ≠ e ∨ e' = new ∧ e ∈ es := by
  simp only [renameIn, List.mem_map]
  constructor
  · rintro ⟨x, hx, rfl⟩
    by_cases heq : x = e
    · exact .inr ⟨if_pos heq, heq ▸ hx⟩
    · rw [if_neg heq]
      exact .inl ⟨hx, heq⟩
  · rintro (⟨hin, hne⟩ | ⟨rfl, hin⟩)
    · exact ⟨e', hin, if_neg hne⟩
    · exact ⟨e, hin, if_pos rfl⟩

theorem nodup_renameIn {e new : EdgeId} {es : List EdgeId} (h : es.Nodup) (hnew : new ∉ es) :
    (renameIn e new es).Nodup := by
  refine h.map_on fun x hx y hy heq => ?_
  by_cases hxe : x = e <;> by_cases hye : y = e
  · exact hxe.trans hye.symm
  · rw [if_pos hxe, if_neg hye] at heq
    exact absurd (heq ▸ hy) hnew
  · rw [if_neg hxe, if_pos hye] at heq
    exact absurd (heq ▸ hx) hnew
  · rwa [if_neg hxe, if_neg hye] at heq

/-! ### What the tables hold -/

/-- The handle of the first half of an edge. -/
def headOf (g : Graph) : EdgeId := ⟨g.edges.size⟩

/-- The handle of the second half of an edge. -/
def tailOf (g : Graph) : EdgeId := ⟨g.edges.size + 1⟩

/-- The handle of the block that is added. -/
def nextBlock (g : Graph) : BlockId := ⟨g.blocks.size⟩

@[simp] theorem splitEdge_block (g : Graph) (e : EdgeId) (edge : Edge) (k : Kind) :
    (g.splitEdge e edge k).block = g.nextBlock := rfl

@[simp] theorem splitEdge_tail (g : Graph) (e : EdgeId) (edge : Edge) (k : Kind) :
    (g.splitEdge e edge k).tail = g.tailOf := by
  simp [splitEdge, addUnlistedEdge, addBlock, tailOf]

theorem edge?_splitEdge (g : Graph) (e : EdgeId) (edge : Edge) (k : Kind) (e' : EdgeId) :
    (g.splitEdge e edge k).graph.edge? e' =
      if e' = e then none
      else if e' = g.tailOf then some ⟨g.nextBlock, edge.target, .always⟩
      else if e' = g.headOf then some ⟨edge.source, g.nextBlock, edge.direction⟩
      else g.edge? e' := by
  have hsize : ((g.addBlock k).2.addUnlistedEdge
      { edge with target := (g.addBlock k).1 }).2.edges.size = g.edges.size + 1 :=
      Array.size_push ..
  rw [splitEdge]
  simp only [edge?_clearEdge, edge?_modifyBlock, edge?_addUnlistedEdge, edge?_addBlock, hsize]
  rfl

theorem Listed.map_moveArg (hg : g.Listed) {b : BlockId} {block : Block}
    (hb : g.block? b = some block) {e new : EdgeId} (h : e ∉ block.preds) :
    block.phis.map (·.moveArg e new) = block.phis := by
  refine Phis.map_eq_self fun {name p} hp => Phi.moveArg_eq_self ?_
  cases ha : p.arg? e with
  | none => rfl
  | some v => exact absurd (hg.args_enter hb hp ha) h

theorem edge?_headOf (g : Graph) : g.edge? g.headOf = none := edge?_fresh g

theorem edge?_tailOf (g : Graph) : g.edge? g.tailOf = none := edge?_of_le (Nat.le_succ _)

theorem headOf_ne_tailOf (g : Graph) : g.headOf ≠ g.tailOf := fun h =>
  Nat.succ_ne_self _ (congrArg EdgeId.slot h).symm

theorem ne_nextBlock {b : BlockId} {block : Block} (hb : g.block? b = some block) :
    b ≠ g.nextBlock := fun heq => by
  rw [heq, nextBlock, block?_fresh] at hb
  cases hb

theorem kind?_nextBlock (g : Graph) : g.kind? g.nextBlock = none := by
  rw [kind?, nextBlock, block?_fresh]
  rfl

/-- No edge of a graph leaves the block that comes next. -/
theorem Listed.source_ne_nextBlock (hg : g.Listed) {e : EdgeId} {edge : Edge}
    (he : g.edge? e = some edge) : edge.source ≠ g.nextBlock :=
  hg.source_ne he (block?_fresh g)

/-- Nor does one enter it. -/
theorem Listed.target_ne_nextBlock (hg : g.Listed) {e : EdgeId} {edge : Edge}
    (he : g.edge? e = some edge) : edge.target ≠ g.nextBlock :=
  hg.target_ne he (block?_fresh g)

/-- **Putting a block onto an edge** gives the edge its new handles everywhere. -/
theorem Listed.block?_splitEdge (hg : g.Listed) {e : EdgeId} {edge : Edge}
    (he : g.edge? e = some edge) (k : Kind) (c : BlockId) :
    (g.splitEdge e edge k).graph.block? c =
      if c = g.nextBlock then
        some { id := g.nextBlock, kind := k, preds := [g.headOf], succs := [g.tailOf] }
      else (g.block? c).map (Block.resplit e g.headOf g.tailOf) := by
  have hnew : (g.addBlock k).1 = g.nextBlock := rfl
  have hslot : (⟨g.blocks.size⟩ : BlockId) = g.nextBlock := rfl
  have hhead : ((g.addBlock k).2.addUnlistedEdge { edge with target := g.nextBlock }).1 =
      g.headOf :=
    rfl
  have htail : (((g.addBlock k).2.addUnlistedEdge
      { edge with target := g.nextBlock }).2.addUnlistedEdge
        ⟨g.nextBlock, edge.target, .always⟩).1 = g.tailOf := g.splitEdge_tail e edge k
  rw [splitEdge]
  simp only [block?_clearEdge, block?_modifyBlock, block?_addUnlistedEdge, block?_addBlock,
    hnew, hslot, hhead, htail]
  by_cases hc : c = g.nextBlock
  · have hcs : c ≠ edge.source := fun h => hg.source_ne_nextBlock he (h.symm.trans hc)
    have hct : c ≠ edge.target := fun h => hg.target_ne_nextBlock he (h.symm.trans hc)
    simp only [if_neg hct, if_pos hc, if_neg hcs]
    rfl
  · simp only [if_neg hc]
    cases hb : g.block? c with
    | none => simp
    | some block =>
      have hsucc : c ≠ edge.source → renameIn e g.headOf block.succs = block.succs := fun hcs =>
        renameIn_eq_self fun hin => hcs (hg.source_eq hb hin he).symm
      have hpred : c ≠ edge.target → e ∉ block.preds := fun hct hin =>
        hct (hg.target_eq hb hin he).symm
      by_cases hcs : c = edge.source <;> by_cases hct : c = edge.target
      · simp only [if_pos hcs, if_pos hct, Option.map_some, Block.resplit]
      · simp only [if_pos hcs, if_neg hct, Option.map_some, Block.resplit,
          renameIn_eq_self (hpred hct), hg.map_moveArg hb (hpred hct)]
      · simp only [if_neg hcs, if_pos hct, Option.map_some, Block.resplit, hsucc hcs]
      · simp only [if_neg hcs, if_neg hct, Option.map_some, Block.resplit, hsucc hcs,
          renameIn_eq_self (hpred hct), hg.map_moveArg hb (hpred hct)]

section
variable {e : EdgeId} {edge : Edge} {k : Kind}

/-- The edges are those of the graph but the one that was split, and its halves. -/
theorem edge?_splitEdge_eq_some (he : g.edge? e = some edge) {e' : EdgeId} {x : Edge} :
    (g.splitEdge e edge k).graph.edge? e' = some x ↔
      e' ≠ e ∧ g.edge? e' = some x ∨
      e' = g.headOf ∧ x = ⟨edge.source, g.nextBlock, edge.direction⟩ ∨
      e' = g.tailOf ∧ x = ⟨g.nextBlock, edge.target, .always⟩ := by
  have hhead : g.headOf ≠ e := fun h => by rw [← h, edge?_headOf] at he; cases he
  have htail : g.tailOf ≠ e := fun h => by rw [← h, edge?_tailOf] at he; cases he
  have hne := g.headOf_ne_tailOf
  rw [edge?_splitEdge]
  by_cases h₀ : e' = e
  · subst h₀
    simp [Ne.symm hhead, Ne.symm htail]
  by_cases h₁ : e' = g.tailOf
  · subst h₁
    simp [htail, edge?_tailOf, Ne.symm hne, eq_comm]
  by_cases h₂ : e' = g.headOf
  · subst h₂
    simp [hhead, edge?_headOf, hne, eq_comm]
  simp [h₀, h₁, h₂]

section
variable (hg : g.Listed) (he : g.edge? e = some edge)
include hg he

theorem Listed.kind?_splitEdge (c : BlockId) : (g.splitEdge e edge k).graph.kind? c =
    if c = g.nextBlock then some k else g.kind? c := by
  rw [kind?, hg.block?_splitEdge he]
  split
  · rfl
  · rw [kind?, Option.map_map]
    rfl

/-- A block after the split is the new one, or one that was there. -/
theorem Listed.block?_splitEdge_eq_some {c : BlockId} {block : Block} :
    (g.splitEdge e edge k).graph.block? c = some block ↔
      c = g.nextBlock ∧
        block = { id := g.nextBlock, kind := k, preds := [g.headOf], succs := [g.tailOf] } ∨
      ∃ old, g.block? c = some old ∧ block = old.resplit e g.headOf g.tailOf := by
  rw [hg.block?_splitEdge he]
  by_cases hc : c = g.nextBlock
  · rw [if_pos hc, Option.some.injEq]
    constructor
    · exact fun h => .inl ⟨hc, h.symm⟩
    · rintro (⟨-, h⟩ | ⟨old, hold, -⟩)
      · exact h.symm
      · exact absurd hc (ne_nextBlock hold)
  · rw [if_neg hc, Option.map_eq_some_iff]
    constructor
    · rintro ⟨old, hold, h⟩
      exact .inr ⟨old, hold, h.symm⟩
    · rintro (⟨h, -⟩ | ⟨old, hold, h⟩)
      · exact absurd h hc
      · exact ⟨old, hold, h.symm⟩

/-- The new block leaves by the second half, and the first half takes the place of the edge. -/
theorem Listed.mem_succs_splitEdge {c : BlockId} {block : Block}
    (hb : (g.splitEdge e edge k).graph.block? c = some block) (e' : EdgeId) :
    e' ∈ block.succs ↔
      ∃ x, (g.splitEdge e edge k).graph.edge? e' = some x ∧ x.source = c := by
  simp only [edge?_splitEdge_eq_some he]
  rcases (hg.block?_splitEdge_eq_some he).mp hb with ⟨rfl, rfl⟩ | ⟨old, hold, rfl⟩
  · rw [List.mem_singleton]
    constructor
    · rintro rfl
      exact ⟨_, .inr (.inr ⟨rfl, rfl⟩), rfl⟩
    · rintro ⟨x, ⟨-, hx⟩ | ⟨-, rfl⟩ | ⟨rfl, -⟩, hsrc⟩
      · exact absurd hsrc (hg.source_ne_nextBlock hx)
      · exact (hg.source_ne_nextBlock he hsrc).elim
      · rfl
  · rw [Block.resplit, mem_renameIn, hg.mem_succs hold, hg.mem_succs hold]
    constructor
    · rintro (⟨⟨x, hx, hsrc⟩, hne⟩ | ⟨rfl, x, hx, hsrc⟩)
      · exact ⟨x, .inl ⟨hne, hx⟩, hsrc⟩
      · rw [he] at hx
        cases hx
        exact ⟨_, .inr (.inl ⟨rfl, rfl⟩), hsrc⟩
    · rintro ⟨x, ⟨hne, hx⟩ | ⟨rfl, rfl⟩ | ⟨rfl, rfl⟩, hsrc⟩
      · exact .inl ⟨⟨x, hx, hsrc⟩, hne⟩
      · exact .inr ⟨rfl, edge, he, hsrc⟩
      · exact absurd hsrc.symm (ne_nextBlock hold)

/-- The new block is entered by the first half, and the second half takes the place of the edge. -/
theorem Listed.mem_preds_splitEdge {c : BlockId} {block : Block}
    (hb : (g.splitEdge e edge k).graph.block? c = some block) (e' : EdgeId) :
    e' ∈ block.preds ↔
      ∃ x, (g.splitEdge e edge k).graph.edge? e' = some x ∧ x.target = c := by
  simp only [edge?_splitEdge_eq_some he]
  rcases (hg.block?_splitEdge_eq_some he).mp hb with ⟨rfl, rfl⟩ | ⟨old, hold, rfl⟩
  · rw [List.mem_singleton]
    constructor
    · rintro rfl
      exact ⟨_, .inr (.inl ⟨rfl, rfl⟩), rfl⟩
    · rintro ⟨x, ⟨-, hx⟩ | ⟨rfl, -⟩ | ⟨-, rfl⟩, htgt⟩
      · exact absurd htgt (hg.target_ne_nextBlock hx)
      · rfl
      · exact (hg.target_ne_nextBlock he htgt).elim
  · rw [Block.resplit, mem_renameIn, hg.mem_preds hold, hg.mem_preds hold]
    constructor
    · rintro (⟨⟨x, hx, htgt⟩, hne⟩ | ⟨rfl, x, hx, htgt⟩)
      · exact ⟨x, .inl ⟨hne, hx⟩, htgt⟩
      · rw [he] at hx
        cases hx
        exact ⟨_, .inr (.inr ⟨rfl, rfl⟩), htgt⟩
    · rintro ⟨x, ⟨hne, hx⟩ | ⟨rfl, rfl⟩ | ⟨rfl, rfl⟩, htgt⟩
      · exact .inl ⟨⟨x, hx, htgt⟩, hne⟩
      · exact absurd htgt.symm (ne_nextBlock hold)
      · exact .inr ⟨rfl, edge, he, htgt⟩

omit he in
/-- Arguments stay with the incoming edges when these get their new handles. -/
theorem Listed.mem_preds_of_arg?_resplit {c : BlockId} {old : Block} (hold : g.block? c = some old)
    {name : String} {p : Phi} (hp : (old.resplit e g.headOf g.tailOf).phis.get? name = some p)
    {e' : EdgeId} {v : Var} (hv : p.arg? e' = some v) :
    e' ∈ (old.resplit e g.headOf g.tailOf).preds := by
  rw [Block.resplit, Phis.map, OrdMap.get?_mapValues] at hp
  obtain ⟨q, hq, rfl⟩ := Option.map_eq_some_iff.mp hp
  have hfresh : q.arg? g.tailOf = none := by
    cases ha : q.arg? g.tailOf with
    | none => rfl
    | some w => exact absurd (hg.args_enter hold hq ha) (hg.notMem_preds hold g.edge?_tailOf)
  rw [Phi.arg?_moveArg hfresh] at hv
  refine mem_renameIn.mpr ?_
  split at hv
  · exact .inr ⟨‹_›, hg.args_enter hold hq hv⟩
  · split at hv
    · cases hv
    · exact .inl ⟨hg.args_enter hold hq hv, ‹_›⟩

theorem Listed.splitEdge : (g.splitEdge e edge k).graph.Listed := by
  have hlive : ∀ {c block}, g.block? c = some block →
      (g.splitEdge e edge k).graph.block? c = some (block.resplit e g.headOf g.tailOf) := fun hb =>
    (hg.block?_splitEdge_eq_some he).mpr (.inr ⟨_, hb, rfl⟩)
  have hnew : (g.splitEdge e edge k).graph.block? g.nextBlock =
      some { id := g.nextBlock, kind := k, preds := [g.headOf], succs := [g.tailOf] } :=
    (hg.block?_splitEdge_eq_some he).mpr (.inl ⟨rfl, rfl⟩)
  constructor
  case id_eq =>
    intro c block hb
    rcases (hg.block?_splitEdge_eq_some he).mp hb with ⟨rfl, rfl⟩ | ⟨old, hold, rfl⟩
    · rfl
    · have hid : old.id = c := hg.id_eq hold
      exact hid
  case mem_succs => exact hg.mem_succs_splitEdge he
  case mem_preds => exact hg.mem_preds_splitEdge he
  case nodup_succs =>
    intro c block hb
    rcases (hg.block?_splitEdge_eq_some he).mp hb with ⟨rfl, rfl⟩ | ⟨old, hold, rfl⟩
    · exact List.nodup_singleton _
    · exact nodup_renameIn (hg.nodup_succs hold) (hg.notMem_succs hold g.edge?_headOf)
  case nodup_preds =>
    intro c block hb
    rcases (hg.block?_splitEdge_eq_some he).mp hb with ⟨rfl, rfl⟩ | ⟨old, hold, rfl⟩
    · exact List.nodup_singleton _
    · exact nodup_renameIn (hg.nodup_preds hold) (hg.notMem_preds hold g.edge?_tailOf)
  case source_live =>
    intro e' x hx
    rcases (edge?_splitEdge_eq_some he).mp hx with ⟨-, hx⟩ | ⟨-, rfl⟩ | ⟨-, rfl⟩
    · obtain ⟨block, hb⟩ := hg.source_live hx
      exact ⟨_, hlive hb⟩
    · obtain ⟨block, hb⟩ := hg.source_live he
      exact ⟨_, hlive hb⟩
    · exact ⟨_, hnew⟩
  case target_live =>
    intro e' x hx
    rcases (edge?_splitEdge_eq_some he).mp hx with ⟨-, hx⟩ | ⟨-, rfl⟩ | ⟨-, rfl⟩
    · obtain ⟨block, hb⟩ := hg.target_live hx
      exact ⟨_, hlive hb⟩
    · exact ⟨_, hnew⟩
    · obtain ⟨block, hb⟩ := hg.target_live he
      exact ⟨_, hlive hb⟩
  case args_enter =>
    intro c block hb name p hp e' v hv
    rcases (hg.block?_splitEdge_eq_some he).mp hb with ⟨rfl, rfl⟩ | ⟨old, hold, rfl⟩
    · cases hp
    · exact hg.mem_preds_of_arg?_resplit hold hp hv

end

/-- An edge after the split leaves the new block, or goes back to one that was there. -/
theorem source_splitEdge (he : g.edge? e = some edge) {e' : EdgeId} {b t : BlockId} {d : Direction}
    (h : (g.splitEdge e edge k).graph.edge? e' = some ⟨b, t, d⟩) :
    b = g.nextBlock ∧ d = .always ∧ e' = g.tailOf ∨
      ∃ e₀ t₀, g.edge? e₀ = some ⟨b, t₀, d⟩ ∧ e' = if e₀ = e then g.headOf else e₀ := by
  rcases (edge?_splitEdge_eq_some he).mp h with ⟨hne, hx⟩ | ⟨rfl, hx⟩ | ⟨rfl, hx⟩
  · exact .inr ⟨e', t, hx, (if_neg hne).symm⟩
  · cases hx
    exact .inr ⟨e, _, he, (if_pos rfl).symm⟩
  · cases hx
    exact .inl ⟨rfl, rfl, rfl⟩

/-- The blocks that were there keep their ways, and the new block has one. -/
theorem WellFormed.ways_splitEdge (hg : g.WellFormed) (he : g.edge? e = some edge)
    (hk : k.directions = [.always]) {b : BlockId} {k' : Kind}
    (hb : (g.splitEdge e edge k).graph.kind? b = some k') (hne : k' ≠ .exit) (d : Direction) :
    (∃ e' t, (g.splitEdge e edge k).graph.edge? e' = some ⟨b, t, d⟩) ↔ d ∈ k'.directions := by
  rw [hg.listed.kind?_splitEdge he] at hb
  split at hb
  · rename_i hbn
    cases hb
    rw [hbn, hk, List.mem_singleton]
    constructor
    · rintro ⟨e', t, hx⟩
      rcases source_splitEdge he hx with ⟨-, hd, -⟩ | ⟨e₀, t₀, h₀, -⟩
      · exact hd
      · exact absurd rfl (hg.listed.source_ne_nextBlock h₀)
    · rintro rfl
      exact ⟨_, _, (edge?_splitEdge_eq_some he).mpr (.inr (.inr ⟨rfl, rfl⟩))⟩
  · rename_i hbn
    rw [← hg.wired.ways hb hne d]
    constructor
    · rintro ⟨e', t, hx⟩
      rcases source_splitEdge he hx with ⟨hb, -⟩ | ⟨e₀, t₀, h₀, -⟩
      · exact absurd hb hbn
      · exact ⟨e₀, t₀, h₀⟩
    · rintro ⟨e', t, hx⟩
      by_cases heq : e' = e
      · rw [heq, he] at hx
        cases hx
        exact ⟨_, _, (edge?_splitEdge_eq_some he).mpr (.inr (.inl ⟨rfl, rfl⟩))⟩
      · exact ⟨e', t, (edge?_splitEdge_eq_some he).mpr (.inl ⟨heq, hx⟩)⟩

/-- **A graph stays well-formed** when a block with one way out is put onto an edge. -/
theorem WellFormed.splitEdge (hg : g.WellFormed) (he : g.edge? e = some edge)
    (hk : k.directions = [.always]) (hentry : k ≠ .entry) :
    (g.splitEdge e edge k).graph.WellFormed := by
  have hexit : k ≠ .exit := by
    rintro rfl
    cases hk
  have hkind := hg.listed.kind?_splitEdge he (k := k)
  have hne : ∀ {c k'}, g.kind? c = some k' → c ≠ g.nextBlock := fun hc => by
    obtain ⟨block, hb, -⟩ := block?_of_kind? hc
    exact ne_nextBlock hb
  have hold : ∀ {c k'}, g.kind? c = some k' → (g.splitEdge e edge k).graph.kind? c = some k' := by
    intro c k' hc
    rw [hkind, if_neg (hne hc), hc]
  have hin : edge.target ≠ entry := hg.wired.entry_closed he
  have hout : edge.source ≠ exit := hg.wired.exit_closed he
  refine ⟨checkWiring_iff.mpr { hg.listed.splitEdge he with
    entry_kind := hold hg.wired.entry_kind, entry_closed := ?entry_closed
    exit_kind := hold hg.wired.exit_kind, exit_closed := ?exit_closed
    ways := hg.ways_splitEdge he hk, one_way := ?one_way }, ?entry_only, ?exit_only⟩
  case entry_closed =>
    intro e' x hx
    rcases (edge?_splitEdge_eq_some he).mp hx with ⟨-, hx⟩ | ⟨-, rfl⟩ | ⟨-, rfl⟩
    · exact hg.wired.entry_closed hx
    · exact (hne hg.wired.entry_kind).symm
    · exact hin
  case exit_closed =>
    intro e' x hx
    rcases (edge?_splitEdge_eq_some he).mp hx with ⟨-, hx⟩ | ⟨-, rfl⟩ | ⟨-, rfl⟩
    · exact hg.wired.exit_closed hx
    · exact hout
    · exact (hne hg.wired.exit_kind).symm
  case one_way =>
    intro b k' _ _ d e₁ e₂ t₁ t₂ h₁ h₂
    rcases source_splitEdge he h₁ with ⟨rfl, -, rfl⟩ | ⟨e₃, t₃, h₃, rfl⟩
    · rcases source_splitEdge he h₂ with ⟨-, -, rfl⟩ | ⟨e₄, t₄, h₄, rfl⟩
      · rfl
      · exact absurd rfl (hg.listed.source_ne_nextBlock h₄)
    · rcases source_splitEdge he h₂ with ⟨rfl, -, rfl⟩ | ⟨e₄, t₄, h₄, rfl⟩
      · exact absurd rfl (hg.listed.source_ne_nextBlock h₃)
      · rw [hg.edge_unique h₃ h₄]
  case entry_only =>
    intro b hb
    rw [hkind] at hb
    split at hb
    · exact absurd (Option.some.inj hb) hentry
    · exact hg.entry_only hb
  case exit_only =>
    intro b hb
    rw [hkind] at hb
    split at hb
    · exact absurd (Option.some.inj hb) hexit
    · exact hg.exit_only hb

end

/-! ### Chains of copies -/

/-- **A chain of copies** on the way from a block in a direction to a target.  The blocks between
are `inner` blocks, each of which makes one of the copies. -/
inductive CopyChain (g : Graph) (inner : BlockId → Prop) :
    BlockId → Direction → List Ssa.Copy → BlockId → Prop where
  | nil {e s d t} (he : g.edge? e = some ⟨s, t, d⟩) : CopyChain g inner s d [] t
  | cons {e s d b c cs t} (he : g.edge? e = some ⟨s, b, d⟩) (hb : inner b)
      (hk : g.kind? b = some (.statement (.copy c.dst c.src)))
      (h : CopyChain g inner b .always cs t) : CopyChain g inner s d (c :: cs) t

/-- A chain is there as long as its blocks and edges are.  Its edges leave inner blocks, except for
the first. -/
theorem CopyChain.mono {g g' : Graph} {inner inner' : BlockId → Prop} {s t : BlockId}
    {d : Direction} {cs : List Ssa.Copy} (h : CopyChain g inner s d cs t)
    (hfirst : ∀ {e t}, g.edge? e = some ⟨s, t, d⟩ → g'.edge? e = some ⟨s, t, d⟩)
    (hedge : ∀ {e b t d}, inner b → g.edge? e = some ⟨b, t, d⟩ → g'.edge? e = some ⟨b, t, d⟩)
    (hkind : ∀ {b k}, inner b → g.kind? b = some k → inner' b ∧ g'.kind? b = some k) :
    CopyChain g' inner' s d cs t := by
  induction h with
  | nil he => exact .nil (hfirst he)
  | cons he hb hk _ ih =>
    exact .cons (hfirst he) (hkind hb hk).1 (hkind hb hk).2 (ih (hedge hb))

/-- **What a graph keeps** while copies are put onto one of its edges. -/
structure CopiesOnto (g : Graph) (e : EdgeId) (g' : Graph) : Prop where
  wellFormed : g'.WellFormed
  edge?_of_ne : ∀ {e' x}, e' ≠ e → g.edge? e' = some x → g'.edge? e' = some x
  block?_of_live : ∀ {b block}, g.block? b = some block → ∃ block', g'.block? b = some block' ∧
    block'.kind = block.kind ∧ (block.phis = .empty → block'.phis = .empty) ∧
    (e ∉ block.preds → block'.preds = block.preds ∧ block'.phis = block.phis)
  block?_inserted : ∀ {b block'}, g'.block? b = some block' → g.block? b = none →
    block'.phis = .empty ∧ ∃ c : Ssa.Copy, block'.kind = .statement (.copy c.dst c.src)

theorem CopiesOnto.refl (hg : g.WellFormed) (e : EdgeId) : CopiesOnto g e g where
  wellFormed := hg
  edge?_of_ne := fun _ h => h
  block?_of_live := fun hb => ⟨_, hb, rfl, id, fun _ => ⟨rfl, rfl⟩⟩
  block?_inserted := fun hb hnone => by
    rw [hb] at hnone
    cases hnone

/-- One copy, and then more behind it. -/
theorem CopiesOnto.splitEdge (hg : g.WellFormed) {e : EdgeId} {edge : Edge}
    (he : g.edge? e = some edge) (c : Ssa.Copy) {g' : Graph}
    (h : CopiesOnto (g.splitEdge e edge (.statement (.copy c.dst c.src))).graph g.tailOf g') :
    CopiesOnto g e g' := by
  refine ⟨h.wellFormed, fun {e' x} hne hx => ?_, fun {b block} hb => ?_,
    fun {b block'} hb hnone => ?_⟩
  · refine h.edge?_of_ne ?_ ((edge?_splitEdge_eq_some he).mpr (.inl ⟨hne, hx⟩))
    rintro rfl
    rw [edge?_tailOf] at hx
    cases hx
  · obtain ⟨block', hb', hkind, hphis, hsame⟩ := h.block?_of_live
      ((hg.listed.block?_splitEdge_eq_some he).mpr (.inr ⟨block, hb, rfl⟩))
    refine ⟨block', hb', hkind, fun hempty => hphis ?_, fun hnot => ?_⟩
    · rw [Block.resplit, hempty]
      rfl
    · simp only [Block.resplit, renameIn_eq_self hnot, hg.listed.map_moveArg hb hnot] at hsame
      exact hsame (hg.listed.notMem_preds hb g.edge?_tailOf)
  · cases hmid : (g.splitEdge e edge (.statement (.copy c.dst c.src))).graph.block? b with
    | none => exact h.block?_inserted hb hmid
    | some mid =>
      obtain ⟨block, hb', hkind, hphis, -⟩ := h.block?_of_live hmid
      rw [hb] at hb'
      cases hb'
      rcases (hg.listed.block?_splitEdge_eq_some he).mp hmid with ⟨-, rfl⟩ | ⟨old, hold, -⟩
      · exact ⟨hphis rfl, c, hkind⟩
      · rw [hnone] at hold
        cases hold

theorem Listed.outcome_splice (hg : g.Listed) {e : EdgeId} {edge : Edge}
    (he : g.edge? e = some edge) {k : Kind} (hk : (k.isBranch || k.isTerminal) = false) :
    (g.splice e k).outcome = .ok (g.splitEdge e edge k) := by
  rw [splice, if_neg (by rw [hk]; exact Bool.false_ne_true),
    Run.outcome_liftM_bind (edge_eq_ok he), Run.outcome_liftM_bind (hg.joined.split_eq he k),
    Run.outcome_bind_of_ok (Run.outcome_report _)]
  rfl

end Graph

namespace Ssa

open FlowGraph.Graph

theorem outcome_spliceNext {g : Graph} (hg : g.Listed) {e : EdgeId} {edge : Edge}
    (he : g.edge? e = some edge) (e₀ : EdgeId) (c : Copy) : (spliceNext e₀ (e, g) c).outcome =
      .ok (g.tailOf, (g.splitEdge e edge (.statement (.copy c.dst c.src))).graph) := by
  rw [← splitEdge_tail g e edge (.statement (.copy c.dst c.src))]
  exact Run.outcome_bind_of_ok (hg.outcome_splice he rfl) _

/-- **Putting copies onto an edge** succeeds, and puts the chain of them there. -/
theorem foldlM_spliceNext {g : Graph} (hg : g.WellFormed) {e : EdgeId} {s t : BlockId}
    {d : Direction} (he : g.edge? e = some ⟨s, t, d⟩) (e₀ : EdgeId) (cs : List Copy) :
    ∃ tail g', (cs.foldlM (spliceNext e₀) (e, g)).outcome = .ok (tail, g') ∧ CopiesOnto g e g' ∧
      CopyChain g' (fun b => g.block? b = none) s d cs t := by
  induction cs generalizing g e s d with
  | nil => exact ⟨e, g, rfl, .refl hg e, .nil he⟩
  | cons c cs ih =>
    have hg₁ := hg.splitEdge he (k := .statement (.copy c.dst c.src)) rfl nofun
    have htail := (edge?_splitEdge_eq_some he (k := .statement (.copy c.dst c.src))).mpr
      (.inr (.inr ⟨rfl, rfl⟩))
    obtain ⟨tail, g', hok, honto, hchain⟩ := ih hg₁ htail
    refine ⟨tail, g', ?_, honto.splitEdge hg he, ?_⟩
    · rw [List.foldlM_cons, Run.outcome_bind_of_ok (outcome_spliceNext hg.listed he e₀ c)]
      exact hok
    · obtain ⟨new, hnew, hkind, -⟩ := honto.block?_of_live
        ((hg.listed.block?_splitEdge_eq_some he).mpr (.inl ⟨rfl, rfl⟩))
      have hhead := (edge?_splitEdge_eq_some he (k := .statement (.copy c.dst c.src))).mpr
        (.inr (.inl ⟨rfl, rfl⟩))
      have hne := g.headOf_ne_tailOf
      refine .cons (honto.edge?_of_ne hne hhead) (block?_fresh g) ?_
        (hchain.mono id (fun _ => id) fun {b k} hb hk => ⟨?_, hk⟩)
      · rw [kind?_of_block? hnew, hkind]
      · cases hold : g.block? b with
        | none => rfl
        | some old =>
          rw [hg.listed.block?_splitEdge he, if_neg (ne_nextBlock hold), hold] at hb
          cases hb

end Ssa
end FlowGraph
