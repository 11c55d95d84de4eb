import FlowGraph.Proofs.Chains
import FlowGraph.Proofs.Conversion

/-! # What a chain changes

Replacing a block by a chain changes the block, its successor and the edge between them, and adds
what the chain needs in slots that were never used.  Nothing else is touched.

The chain and the edge from its end to the successor are added together here, block by block: so
each block of the chain has its way on in the end (`chained`).  Then the old way on is removed.
-/
namespace FlowGraph

/-- What a chain makes of a block: of the one that it stands for, and of the one behind it. -/
def Block.rechain (link lead tail : EdgeId) (k : Kind) (first behind : Bool) (b : Block) : Block :=
  { b with
    kind := if first then k else b.kind
    succs := if first then [lead] else b.succs
    preds := if behind then b.preds.filter (· ≠ link) ++ [tail] else b.preds
    phis := if behind then b.phis.map (·.moveArg link tail) else b.phis }

namespace Graph

/-- The kind that an element of a chain asks for, in place of a block of a given kind. -/
def Replacement.kindFor (own : Kind) : Replacement → Kind
  | .itself => own
  | .block k => k

/-- The blocks of a chain: the first one, and the new ones behind it. -/
def chainOf (g : Graph) (b : BlockId) (added : Nat) : List BlockId :=
  b :: (List.range added).map fun i => ⟨g.blocks.size + i⟩

/-- The edges along a chain, and from its last block to `s`. -/
def hops (s : BlockId) : List BlockId → List Edge
  | [] => []
  | [a] => [⟨a, s, .always⟩]
  | a :: b :: rest => ⟨a, b, .always⟩ :: hops s (b :: rest)

/-- **A graph with a chain of several blocks** in the place of block `b` in front of `s`. -/
structure Chained (g g' : Graph) (b s : BlockId) (link : EdgeId) (k : Kind) (ks : List Kind) :
    Prop where
  name_eq : g'.name = g.name
  /-- The way on is gone, the other edges stay, and the new ones come behind. -/
  edges_eq : g'.edges.toList = g.edges.toList.set link.slot none ++
    (hops s (g.chainOf b ks.length)).map some
  size_blocks : g'.blocks.size = g.blocks.size + ks.length
  block?_old : ∀ {c}, c.slot < g.blocks.size → g'.block? c = (g.block? c).map
    (Block.rechain link ⟨g.edges.size⟩ ⟨g.edges.size + ks.length⟩ k (c = b) (c = s))
  block?_new : ∀ {i k'}, ks[i]? = some k' → g'.block? ⟨g.blocks.size + i⟩ =
    some { id := ⟨g.blocks.size + i⟩, kind := k'
           preds := [⟨g.edges.size + i⟩], succs := [⟨g.edges.size + i + 1⟩] }

/-! ### Adding a chain -/

/-- The graph with a chain behind a block, and with an edge from its end to `s`. -/
def chained (g : Graph) (last s : BlockId) : List Kind → Graph
  | [] => (g.addEdge ⟨last, s, .always⟩).2
  | k :: ks => (g.appended last k).chained g.nextBlock s ks

variable {g : Graph} {last s : BlockId}

@[simp] theorem size_blocks_appended (g : Graph) (last : BlockId) (k : Kind) :
    (g.appended last k).blocks.size = g.blocks.size + 1 := by
  rw [appended, size_blocks_addEdge, size_addBlock]

@[simp] theorem size_edges_appended (g : Graph) (last : BlockId) (k : Kind) :
    (g.appended last k).edges.size = g.edges.size + 1 :=
  Array.size_push ..

theorem chainOf_succ (g : Graph) (last : BlockId) (k : Kind) (n : Nat) :
    g.chainOf last (n + 1) = last :: (g.appended last k).chainOf g.nextBlock n := by
  simp only [chainOf, List.range_succ_eq_map, List.map_cons, List.map_map, size_blocks_appended,
    Nat.add_zero]
  refine congrArg (fun bs => last :: g.nextBlock :: bs) (List.map_congr_left fun i _ => ?_)
  exact congrArg BlockId.mk (Nat.succ_add_eq_add_succ ..).symm

theorem chainOf_eq (g : Graph) (last : BlockId) (ks : List Kind) :
    g.chainOf last ks.length = last :: (g.extendChain last ks).1 := by
  induction ks generalizing g last with
  | nil => rfl
  | cons k ks ih =>
    rw [List.length_cons, chainOf_succ g last k, ih]
    rfl

theorem chained_eq (g : Graph) (last s : BlockId) (ks : List Kind) : g.chained last s ks =
    ((g.extendChain last ks).2.addEdge
      ⟨(g.extendChain last ks).1.getLast?.getD last, s, .always⟩).2 := by
  induction ks generalizing g last with
  | nil => rfl
  | cons k ks ih =>
    rw [chained, ih]
    show _ = (((g.appended last k).extendChain g.nextBlock ks).2.addEdge
      ⟨(g.nextBlock :: ((g.appended last k).extendChain g.nextBlock ks).1).getLast?.getD last, s,
        .always⟩).2
    rw [List.getLast?_cons]
    rfl

theorem size_edges_extendChain (g : Graph) (last : BlockId) (ks : List Kind) :
    (g.extendChain last ks).2.edges.size = g.edges.size + ks.length := by
  induction ks generalizing g last with
  | nil => rfl
  | cons k ks ih =>
    refine (ih (g.appended last k) g.nextBlock).trans ?_
    rw [size_edges_appended, List.length_cons, Nat.add_assoc, Nat.add_comm 1]

theorem edges_chained (g : Graph) (last s : BlockId) (ks : List Kind) :
    (g.chained last s ks).edges.toList =
      g.edges.toList ++ (hops s (g.chainOf last ks.length)).map some := by
  induction ks generalizing g last with
  | nil =>
    have hpush : (g.chained last s []).edges = g.edges.push (some ⟨last, s, .always⟩) := rfl
    rw [hpush, Array.toList_push]
    rfl
  | cons k ks ih =>
    have hpush : (g.appended last k).edges = g.edges.push (some ⟨last, g.nextBlock, .always⟩) := rfl
    have hhops : hops s (g.chainOf last (ks.length + 1)) =
        ⟨last, g.nextBlock, .always⟩ ::
        hops s ((g.appended last k).chainOf g.nextBlock ks.length) := by
      rw [chainOf_succ g last k]
      rfl
    rw [chained, ih, List.length_cons, hhops, hpush, Array.toList_push, List.append_assoc]
    rfl

theorem size_blocks_chained (g : Graph) (last s : BlockId) (ks : List Kind) :
    (g.chained last s ks).blocks.size = g.blocks.size + ks.length := by
  induction ks generalizing g last with
  | nil => exact size_blocks_addEdge ..
  | cons k ks ih =>
    rw [chained, ih, size_blocks_appended, List.length_cons, Nat.add_assoc, Nat.add_comm 1]

theorem edge?_chained_of_some {e : EdgeId} {edge : Edge} (last : BlockId) {ks : List Kind}
    (he : g.edge? e = some edge) : (g.chained last s ks).edge? e = some edge := by
  induction ks generalizing g last with
  | nil => exact edge?_addEdge_eq_some.mpr (.inl he)
  | cons k ks ih => exact ih g.nextBlock (edge?_appended.mpr (.inl he))

theorem name_chained (g : Graph) (last s : BlockId) (ks : List Kind) :
    (g.chained last s ks).name = g.name := by
  induction ks generalizing g last with
  | nil => rfl
  | cons k ks ih => exact ih _ _

/-- The block in front of the chain gets a way on, and `s` a way in. -/
theorem block?_chained_old {c : BlockId} (hc : c.slot < g.blocks.size) (ks : List Kind) :
    (g.chained last s ks).block? c = (g.block? c).map fun block =>
      { block with
        succs := block.succs ++ if c = last then [⟨g.edges.size⟩] else []
        preds := block.preds ++ if c = s then [⟨g.edges.size + ks.length⟩] else [] } := by
  induction ks generalizing g last with
  | nil =>
    rw [chained, block?_addEdge]
    cases g.block? c with
    | none => rfl
    | some block => simp [Block.joined, headOf]
  | cons k ks ih =>
    have hne : c ≠ g.nextBlock := fun heq => Nat.lt_irrefl _ (heq ▸ hc)
    have hlt : c.slot < (g.appended last k).blocks.size := by
      rw [size_blocks_appended]
      exact Nat.lt_succ_of_lt hc
    have hlength : g.edges.size + 1 + ks.length = g.edges.size + (ks.length + 1) := by omega
    rw [chained, ih hlt, block?_appended, if_neg hne, Option.map_map, size_edges_appended, hlength]
    simp [Block.joined, headOf, hne, Function.comp_def]

theorem block?_appended_nextBlock {k : Kind} (h : g.nextBlock ≠ last) :
    (g.appended last k).block? g.nextBlock =
      some { id := g.nextBlock, kind := k, preds := [g.headOf] } := by
  rw [block?_appended, if_pos rfl, Option.map_some, decide_eq_false h, decide_eq_true rfl]
  rfl

/-- Each new block leads on. -/
theorem block?_chained_new (hlast : last.slot < g.blocks.size) (hs : s.slot < g.blocks.size)
    {ks : List Kind} {i : Nat} {k : Kind} (hk : ks[i]? = some k) :
    (g.chained last s ks).block? ⟨g.blocks.size + i⟩ =
      some { id := ⟨g.blocks.size + i⟩, kind := k
             preds := [⟨g.edges.size + i⟩], succs := [⟨g.edges.size + i + 1⟩] } := by
  induction ks generalizing g last i with
  | nil => cases hk
  | cons k' ks ih =>
    have hnext : g.nextBlock.slot < (g.appended last k').blocks.size := by
      rw [size_blocks_appended]
      exact Nat.lt_succ_self _
    cases i with
    | zero =>
      cases hk
      have hnl : g.nextBlock ≠ last := fun heq => Nat.lt_irrefl _ (heq ▸ hlast)
      have hns : g.nextBlock ≠ s := fun heq => Nat.lt_irrefl _ (heq ▸ hs)
      show ((g.appended last k).chained g.nextBlock s ks).block? g.nextBlock = _
      rw [block?_chained_old hnext, block?_appended_nextBlock hnl, Option.map_some, if_pos rfl,
        if_neg hns, size_edges_appended]
      rfl
    | succ i =>
      have hstep := ih hnext (by
        rw [size_blocks_appended]
        exact Nat.lt_succ_of_lt hs) hk
      rw [size_blocks_appended, size_edges_appended] at hstep
      rw [chained]
      simpa only [Nat.add_assoc, Nat.add_comm 1] using hstep

/-! ### In the place of a block -/

/-- The graph with a chain in the place of `b`, before the old way on is removed. -/
def rechaining (g : Graph) (b s : BlockId) (link : EdgeId) (k : Kind) (ks : List Kind) : Graph :=
  ((g.modifyBlock b fun block => { block with kind := k }).chained b s ks).modifyBlock s
    fun block =>
    { block with phis := block.phis.map (·.moveArg link ⟨g.edges.size + ks.length⟩) }

theorem close_extendChain (g : Graph) (b s : BlockId) (link : EdgeId) (k : Kind) (ks : List Kind) :
    ((g.modifyBlock b fun block => { block with kind := k }).extendChain b ks).2.close s
        (((g.modifyBlock b fun block => { block with kind := k }).extendChain b ks).1.getLast?.getD
          b)
        link = (g.rechaining b s link k ks).removeEdge link := by
  have htail : ((g.modifyBlock b fun block => { block with kind := k }).extendChain b ks).2.headOf =
      ⟨g.edges.size + ks.length⟩ := congrArg EdgeId.mk (size_edges_extendChain ..)
  rw [close, rechaining, chained_eq, htail]

theorem edges_removeEdge {e : EdgeId} {edge : Edge} (he : g.edge? e = some edge) :
    (g.removeEdge e).edges.toList = g.edges.toList.set e.slot none := by
  rw [removeEdge, he]
  exact Array.toList_setIfInBounds ..

section
variable (b : BlockId) (link : EdgeId) (k : Kind) (ks : List Kind)

/-- What the blocks of before have become, the old way on not yet removed. -/
theorem block?_rechaining_old {c : BlockId} (hc : c.slot < g.blocks.size) :
    (g.rechaining b s link k ks).block? c = (g.block? c).map fun block => { block with
      kind := if c = b then k else block.kind
      succs := block.succs ++ if c = b then [⟨g.edges.size⟩] else []
      preds := block.preds ++ if c = s then [⟨g.edges.size + ks.length⟩] else []
      phis := if c = s then block.phis.map (·.moveArg link ⟨g.edges.size + ks.length⟩)
        else block.phis } := by
  have hlt : c.slot < (g.modifyBlock b fun block => { block with kind := k }).blocks.size := by
    rwa [size_modifyBlock]
  rw [rechaining, block?_modifyBlock, block?_chained_old hlt, block?_modifyBlock]
  cases g.block? c with
  | none => simp
  | some block =>
    by_cases hcb : c = b <;> by_cases hcs : c = s
    · simp only [if_pos hcb, if_pos hcs]
      rfl
    · simp only [if_pos hcb, if_neg hcs]
      rfl
    · simp only [if_neg hcb, if_pos hcs]
      rfl
    · simp only [if_neg hcb, if_neg hcs, Option.map_some, List.append_nil]

theorem block?_rechaining_new (hb : b.slot < g.blocks.size) (hs : s.slot < g.blocks.size) {i : Nat}
    {k' : Kind} (hk' : ks[i]? = some k') :
    (g.rechaining b s link k ks).block? ⟨g.blocks.size + i⟩ =
      some { id := ⟨g.blocks.size + i⟩, kind := k'
             preds := [⟨g.edges.size + i⟩], succs := [⟨g.edges.size + i + 1⟩] } := by
  have hne : (⟨g.blocks.size + i⟩ : BlockId) ≠ s := by
    rintro rfl
    exact absurd hs (Nat.not_lt.mpr (Nat.le_add_right ..))
  have hsize := g.size_modifyBlock b fun block => { block with kind := k }
  have hnew := block?_chained_new (hsize.symm ▸ hb) (hsize.symm ▸ hs) hk'
  rw [hsize] at hnew
  rw [rechaining, block?_modifyBlock, if_neg hne]
  exact hnew

theorem edges_rechaining : (g.rechaining b s link k ks).edges.toList =
    g.edges.toList ++ (hops s (g.chainOf b ks.length)).map some := by
  have hchain : (g.modifyBlock b fun block => { block with kind := k }).chainOf b ks.length =
      g.chainOf b ks.length := by
    rw [chainOf, chainOf, size_modifyBlock]
  rw [← hchain]
  exact edges_chained ..

end

/-- A moved argument is not there to be dropped. -/
theorem Listed.map_dropArg_moveArg (hg : g.Listed) {c : BlockId} {block : Block}
    (hc : g.block? c = some block) {e new : EdgeId} (hnew : g.edge? new = none) (hne : new ≠ e) :
    Phis.map (·.dropArg e) (block.phis.map (·.moveArg e new)) =
    block.phis.map (·.moveArg e new) := by
  refine Phis.map_eq_self fun {name q} hq => Phi.dropArg_eq_self ?_
  rw [Phis.map, OrdMap.get?_mapValues] at hq
  obtain ⟨p, hp, rfl⟩ := Option.map_eq_some_iff.mp hq
  have hfree : p.arg? new = none := Option.eq_none_iff_forall_ne_some.mpr fun v hv =>
    hg.notMem_preds hc hnew (hg.args_enter hc hp hv)
  rw [Phi.arg?_moveArg hfree, if_neg hne.symm, if_pos rfl]

section
variable (hg : g.WellFormed) {b : BlockId} {link : EdgeId} {old : Block} {k : Kind} {ks : List Kind}
  (hb : g.block? b = some old) (hold : old.kind.Straight)
  (hlink : g.edge? link = some ⟨b, s, .always⟩) (hk : k.Straight) (hks : ∀ k ∈ ks, k.Straight)
include hg hb hold hlink

/-- What a block is when the old way on is removed as well. -/
theorem WellFormed.without_rechaining {c : BlockId} {block : Block} (hc : g.block? c = some block)
    {lead tail : EdgeId} (hlead : g.edge? lead = none) (htail : g.edge? tail = none) :
    ({ block with
        kind := if c = b then k else block.kind
        succs := block.succs ++ if c = b then [lead] else []
        preds := block.preds ++ if c = s then [tail] else []
        phis := if c = s then block.phis.map (·.moveArg link tail) else block.phis }
          : Block).without link =
      block.rechain link lead tail k (c = b) (c = s) := by
  have hl := hg.listed
  have hne : ∀ {e}, g.edge? e = none → e ≠ link := by
    rintro e he rfl
    rw [hlink] at he
    cases he
  have hsuccs : (block.succs ++ if c = b then [lead] else []).filter (· ≠ link) =
      if c = b then [lead] else block.succs := by
    split
    · rename_i heq
      subst heq
      cases hb.symm.trans hc
      have hleft : old.succs = [link] := hg.succs_eq hb hold.directions_eq hlink
      simp [hleft, hne hlead]
    · rename_i hcb
      rw [List.append_nil]
      exact filter_ne_eq_self fun hin => hcb (hl.source_eq hc hin hlink).symm
  have hpreds : (block.preds ++ if c = s then [tail] else []).filter (· ≠ link) =
      if c = s then block.preds.filter (· ≠ link) ++ [tail] else block.preds := by
    split
    · simp [hne htail]
    · rename_i hcs
      rw [List.append_nil]
      exact filter_ne_eq_self fun hin => hcs (hl.target_eq hc hin hlink).symm
  have hphis : Phis.map (·.dropArg link)
      (if c = s then block.phis.map (·.moveArg link tail) else block.phis) =
      if c = s then block.phis.map (·.moveArg link tail) else block.phis := by
    split
    · exact hl.map_dropArg_moveArg hc htail (hne htail)
    · rename_i hcs
      exact hl.map_dropArg hc fun hin => hcs (hl.target_eq hc hin hlink).symm
  simp only [Block.without, Block.rechain, decide_eq_true_eq, hsuccs, hpreds, hphis]

include hk hks

theorem WellFormed.listed_rechaining : (g.rechaining b s link k ks).Listed := by
  have htail : ((g.modifyBlock b fun block => { block with kind := k }).extendChain b ks).2.headOf =
      ⟨g.edges.size + ks.length⟩ := congrArg EdgeId.mk (size_edges_extendChain ..)
  have hmoved := ((hg.open_first hb hold hlink hk).extendChain hks).listed_moved
  rwa [← chained_eq, htail] at hmoved

theorem WellFormed.wellFormed_rechained :
    ((g.rechaining b s link k ks).removeEdge link).WellFormed := by
  rw [← close_extendChain]
  exact ((hg.open_first hb hold hlink hk).extendChain hks).wellFormed_close

/-- **A chain in the place of a block.** -/
theorem WellFormed.chained_rechained :
    Chained g ((g.rechaining b s link k ks).removeEdge link) b s link k ks := by
  obtain ⟨succ, hs⟩ : ∃ succ, g.block? s = some succ := hg.listed.target_live hlink
  have hlisted := hg.listed_rechaining hb hold hlink hk hks
  have hslot : link.slot < g.edges.size := slot_lt_of_edge? hlink
  constructor
  case name_eq =>
    rw [name_removeEdge]
    exact name_chained ..
  case edges_eq =>
    have hlink' : (g.rechaining b s link k ks).edge? link = some ⟨b, s, .always⟩ :=
      edge?_chained_of_some b hlink
    rw [edges_removeEdge hlink', edges_rechaining]
    exact List.set_append_left _ _ hslot
  case size_blocks =>
    rw [size_removeEdge, rechaining, size_modifyBlock, size_blocks_chained, size_modifyBlock]
  case block?_old =>
    intro c hlt
    rw [hlisted.block?_removeEdge, block?_rechaining_old b link k ks hlt]
    cases hc : g.block? c with
    | none => rfl
    | some block =>
      exact congrArg some (hg.without_rechaining hb hold hlink hc g.edge?_fresh
        (edge?_of_le (Nat.le_add_right ..)))
  case block?_new =>
    intro i k' hk'
    have hne : ∀ n, (⟨g.edges.size + n⟩ : EdgeId) ≠ link := by
      rintro n rfl
      exact absurd hslot (Nat.not_lt.mpr (Nat.le_add_right ..))
    rw [hlisted.block?_removeEdge,
      block?_rechaining_new b link k ks (slot_lt_of_block? hb) (slot_lt_of_block? hs) hk',
      Option.map_some]
    have hkept : ∀ n, [(⟨g.edges.size + n⟩ : EdgeId)].filter (· ≠ link) = [⟨g.edges.size + n⟩] :=
      fun n => filter_ne_eq_self fun hin => hne n (List.mem_singleton.mp hin).symm
    simp only [Block.without, hkept, Nat.add_assoc]
    rfl

end

/-! ### The operation -/

section
variable {b : BlockId} {rs : List Replacement} {own : Option Kind} {k : Kind} {ks : List Kind}

theorem chainKinds_eq_map (hown : ∀ k', own = some k' → k' = k) (h : chainKinds b own rs = .ok ks) :
    ks = rs.map (Replacement.kindFor k) := by
  induction rs generalizing own ks with
  | nil =>
    cases h
    rfl
  | cons r rs ih =>
    cases r with
    | block k' =>
      obtain ⟨-, ks', hrest, rfl⟩ := chainFrom_eq_ok (chainKinds_block ▸ h)
      rw [ih hown hrest]
      rfl
    | itself =>
      cases own with
      | none => cases h
      | some k' =>
        obtain ⟨-, ks', hrest, rfl⟩ := chainFrom_eq_ok (chainKinds_itself ▸ h)
        rw [hown k' rfl, ih (fun _ hnone => by cases hnone) hrest]
        rfl

/-- **A chain that is not refused** has the kinds that are asked for. -/
theorem chainKinds_eq_ok (hk : k.Straight) (honce : rs.count .itself ≤ 1)
    (hkinds : ∀ k, .block k ∈ rs → k.isBranch = false ∧ k.isTerminal = false) :
    chainKinds b (some k) rs = .ok (rs.map (Replacement.kindFor k)) := by
  cases h : chainKinds b (some k) rs with
  | ok ks => rw [chainKinds_eq_map (fun _ heq => (Option.some.inj heq).symm) h]
  | error f =>
    exfalso
    rcases chainKinds_error (fun heq => Option.some.inj heq ▸ hk) h with
      ⟨-, hcount⟩ | ⟨-, k', hin, hbranch⟩ | ⟨-, k', hin, hterm⟩
    · have htwice : 2 ≤ rs.count .itself := hcount
      exact absurd (Nat.le_trans htwice honce) (Nat.not_succ_le_self 1)
    · rw [(hkinds k' hin).1] at hbranch
      cases hbranch
    · rw [(hkinds k' hin).2] at hterm
      cases hterm

end

section
variable (hg : g.WellFormed) {b : BlockId} {link : EdgeId} {old : Block} {rs : List Replacement}
  {k : Kind} {ks : List Kind} (hb : g.block? b = some old) (hold : old.kind.Straight)
  (hlink : g.edge? link = some ⟨b, s, .always⟩)
include hg hb hold hlink

/-- **What replacing a block gives**: its own record changes if there is no more than one block to
take its place, and else the chain is added. -/
theorem WellFormed.exists_replaceByChain
    (hchain : chainKinds b (some old.kind) rs = .ok (k :: ks)) :
    ∃ g', (g.replaceByChain b rs).outcome = .ok (g.chainOf b ks.length, g') ∧
      (ks = [] → g' = g.modifyBlock b fun block => { block with kind := k }) ∧
      (ks ≠ [] → g' = (g.rechaining b s link k ks).removeEdge link) := by
  rw [replaceByChain, Run.outcome_liftM_bind (block_eq_ok hb)]
  simp only [hold.isTerminal_eq, hold.isBranch_eq, Bool.or_false, Bool.false_eq_true, if_false]
  rw [Run.outcome_liftM_bind (hg.onwardEdge_eq_ok hb hold.directions_eq hlink),
    Run.outcome_liftM_bind (edge_eq_ok hlink), Run.outcome_liftM_bind hchain]
  obtain ⟨hk, hks⟩ := List.forall_mem_cons.mp (straight_of_chainKinds hchain)
  have hopen := hg.open_first hb hold hlink hk
  dsimp only
  rw [Run.outcome_liftM_bind (hopen.appendChain_eq hks),
    Run.outcome_liftM_bind (hopen.extendChain hks).attachChain_eq]
  cases ks with
  | nil => exact ⟨_, rfl, fun _ => rfl, fun h => absurd rfl h⟩
  | cons k' ks =>
    refine ⟨_, ?_, fun h => absurd h (List.cons_ne_nil _ _), fun _ => rfl⟩
    have hchain : b :: ((g.modifyBlock b fun block => { block with kind := k }).extendChain b
        (k' :: ks)).1 = g.chainOf b (k' :: ks).length := by
      rw [← chainOf_eq, chainOf, chainOf, size_modifyBlock]
    have hclose := close_extendChain g b s link k (k' :: ks)
    obtain ⟨last, hlast⟩ :
        ∃ last, ((g.modifyBlock b fun block => { block with kind := k }).extendChain
        b (k' :: ks)).1.getLast? = some last := ⟨_, List.getLast?_cons⟩
    rw [hlast] at hclose
    rw [← hchain, ← hclose, hlast]
    rfl

end

/-- The blocks of a chain do what was asked for, in order. -/
theorem Chained.map_kind? {g' : Graph} {b : BlockId} {link : EdgeId} {old : Block} {k : Kind}
    {ks : List Kind} (h : Chained g g' b s link k ks) (hb : g.block? b = some old) :
    (g.chainOf b ks.length).map g'.kind? = (k :: ks).map some := by
  have hfirst : g'.kind? b = some k := by
    rw [kind?, h.block?_old (slot_lt_of_block? hb), hb, Option.map_some, Option.map_some,
      decide_eq_true (rfl : b = b)]
    rfl
  have hrest : (List.range ks.length).map (fun i => g'.kind? ⟨g.blocks.size + i⟩) =
      ks.map some := by
    refine List.ext_getElem (by simp) fun i hi hi' => ?_
    have hlt : i < ks.length := by simpa using hi'
    rw [List.getElem_map, List.getElem_map, List.getElem_range]
    exact kind?_of_block? (h.block?_new (List.getElem?_eq_getElem hlt))
  rw [chainOf, List.map_cons, List.map_map, List.map_cons, hfirst]
  exact congrArg _ hrest

end Graph

open FlowGraph.Graph (Replacement)

theorem Routine.outcome_replace (r : Routine) {b : BlockId} {rs : List Replacement} (hnil : rs ≠ [])
    (hne : rs ≠ [.itself]) {chain : List BlockId} {g' : Graph}
    (h : (r.graph.replaceByChain b rs).outcome = .ok (chain, g')) (hg' : g'.WellFormed) :
    (r.replace b rs).outcome = .ok (chain, r.withGraph g') := by
  unfold Routine.replace
  split
  · exact absurd rfl hne
  · exact absurd rfl hnil
  · rw [Run.outcome_bind_of_ok h]
    exact Run.outcome_bind_of_ok (r.settle_spec hg') _

/-- A single block in the place of another does something else, and that is all. -/
theorem Routine.replace_single (r : Routine) (hg : r.graph.WellFormed) {b s : BlockId} {old : Block}
    (hb : r.graph.block? b = some old) (hold : old.kind.Straight) {link : EdgeId}
    (hlink : r.graph.edge? link = some ⟨b, s, .always⟩) {x : Replacement}
    (hx : (x.kindFor old.kind).Straight)
    (hchain : Graph.chainKinds b (some old.kind) [x] = .ok [x.kindFor old.kind]) :
    ∃ r', (r.replace b [x]).outcome = .ok ([b], r') ∧ r'.graph.name = r.graph.name ∧
      r'.graph.edges = r.graph.edges ∧
      ∀ c, r'.graph.block? c =
        if c = b then some { old with kind := x.kindFor old.kind } else r.graph.block? c := by
  cases x with
  | itself =>
    refine ⟨r, rfl, rfl, rfl, fun c => ?_⟩
    split
    · rename_i hc
      rw [hc, hb]
      rfl
    · rfl
  | block k =>
    obtain ⟨g', hok, hsingle, -⟩ := hg.exists_replaceByChain hb hold hlink hchain
    obtain rfl := hsingle rfl
    have hne : [Replacement.block k] ≠ [.itself] := fun heq => by cases heq
    refine ⟨_, r.outcome_replace (List.cons_ne_nil _ _) hne hok
      (hg.grows_first hb hold hx).wellFormed, rfl, rfl, fun c => ?_⟩
    show (r.graph.modifyBlock b _).block? c = _
    rw [Graph.block?_modifyBlock]
    split
    · rename_i hc
      rw [hc, hb]
      rfl
    · rfl

/-- **Replacing a block by a chain is exact.**  A block that leads one way, to whichever block, is
replaced by as many blocks as are asked for: itself with new ones behind it.  If it is to be a
single block, only what it does changes.  Otherwise its way on is removed, the blocks lead one to
the next and the last to the old successor, and all else is as it was. -/
theorem Routine.replace_exact (r : Routine) (hg : r.graph.WellFormed) {b s : BlockId} {old : Block}
    (hb : r.graph.block? b = some old) (hbranch : old.kind.isBranch = false)
    (hterminal : old.kind.isTerminal = false) {link : EdgeId} {d : Direction}
    (hlink : r.graph.edge? link = some ⟨b, s, d⟩) (x : Replacement) (xs : List Replacement)
    (honce : (x :: xs).count .itself ≤ 1)
    (hkinds : ∀ k, .block k ∈ x :: xs → k.isBranch = false ∧ k.isTerminal = false) :
    ∃ r', (r.replace b (x :: xs)).outcome = .ok (r.graph.chainOf b xs.length, r') ∧
      (r.graph.chainOf b xs.length).map r'.graph.kind? =
        ((x :: xs).map (Replacement.kindFor old.kind)).map some ∧
      (xs = [] → r'.graph.name = r.graph.name ∧ r'.graph.edges = r.graph.edges ∧
        ∀ c, r'.graph.block? c = if c = b then some { old with kind := x.kindFor old.kind }
          else r.graph.block? c) ∧
      (xs ≠ [] → Graph.Chained r.graph r'.graph b s link (x.kindFor old.kind)
        (xs.map (Replacement.kindFor old.kind))) := by
  have hold := Kind.straight_of hbranch hterminal
  have hd : d = .always := by
    have hin := (hg.wired.ways (Graph.kind?_of_block? hb) hold.ne_exit d).mp ⟨link, s, hlink⟩
    rwa [hold.directions_eq, List.mem_singleton] at hin
  subst hd
  have hchain := Graph.chainKinds_eq_ok (b := b) hold honce hkinds
  obtain ⟨hx, hxs⟩ := List.forall_mem_cons.mp (Graph.straight_of_chainKinds hchain)
  by_cases hone : xs = []
  · subst hone
    obtain ⟨r', hok, hname, hedges, hblock⟩ := r.replace_single hg hb hold hlink hx hchain
    refine ⟨r', hok, ?_, fun _ => ⟨hname, hedges, hblock⟩, fun h => absurd rfl h⟩
    have hself : r'.graph.kind? b = some (x.kindFor old.kind) := by
      rw [Graph.kind?, hblock, if_pos rfl]
      rfl
    exact congrArg (· :: []) hself
  · obtain ⟨g', hok, -, hseveral⟩ := hg.exists_replaceByChain hb hold hlink hchain
    have hks : xs.map (Replacement.kindFor old.kind) ≠ [] := mt List.map_eq_nil_iff.mp hone
    have hne : x :: xs ≠ [.itself] := fun heq => hone (List.cons.inj heq).2
    obtain rfl := hseveral hks
    have hchained := hg.chained_rechained hb hold hlink hx hxs
    have hwell := hg.wellFormed_rechained hb hold hlink hx hxs
    have hasked := hchained.map_kind? hb
    rw [List.length_map] at hok hasked
    exact ⟨_, r.outcome_replace (List.cons_ne_nil _ _) hne hok hwell, hasked,
      fun h => absurd h hone, fun _ => hchained⟩

/-- A statement that is repeated for ever, with a phi function. -/
def Graph.treadmill : Graph where
  name := "treadmill"
  blocks := #[
    some { id := ⟨0⟩, kind := .entry, succs := [⟨0⟩] },
    some { id := ⟨1⟩, kind := .exit },
    some { id := ⟨2⟩,
           kind := .statement (.assign (.plain "m") false (.unary "-" (.var (.plain "n"))))
           phis := .ofList [("n", ⟨none, .ofList [(⟨0⟩, .plain "a"), (⟨1⟩, .plain "m")]⟩)]
           preds := [⟨0⟩, ⟨1⟩], succs := [⟨1⟩] }]
  edges := #[some ⟨⟨0⟩, ⟨2⟩, .always⟩, some ⟨⟨2⟩, ⟨2⟩, .always⟩]

/-- The block leads to itself, so it is at both ends of the chain. -/
theorem Routine.replace_exact_treadmill : Graph.treadmill.WellFormed ∧
    ∃ r', ((Routine.mk .treadmill .new none none).replace ⟨2⟩ [.block .empty, .itself]).outcome =
        .ok ([⟨2⟩, ⟨3⟩], r') ∧
      r'.graph.edges.toList = [some ⟨⟨0⟩, ⟨2⟩, .always⟩, none, some ⟨⟨2⟩, ⟨3⟩, .always⟩,
        some ⟨⟨3⟩, ⟨2⟩, .always⟩] ∧
      r'.graph.block? ⟨2⟩ = some {
        id := ⟨2⟩, kind := .empty
        phis := .ofList [("n", ⟨none, .ofList [(⟨0⟩, .plain "a"), (⟨3⟩, .plain "m")]⟩)]
        preds := [⟨0⟩, ⟨3⟩], succs := [⟨2⟩] } := by
  have hg : Graph.treadmill.WellFormed := by decide
  have hkinds : ∀ k, .block k ∈ [.block .empty, Replacement.itself] →
      k.isBranch = false ∧ k.isTerminal = false := by
    intro k hk
    obtain rfl : k = .empty := by simpa using hk
    exact ⟨rfl, rfl⟩
  have hlink : Graph.treadmill.edge? ⟨1⟩ = some ⟨⟨2⟩, ⟨2⟩, .always⟩ := rfl
  obtain ⟨r', hok, -, -, hseveral⟩ :=
    (Routine.mk .treadmill .new none none).replace_exact hg rfl rfl
    rfl hlink (.block .empty) [.itself] (by decide) hkinds
  have hchained := hseveral (List.cons_ne_nil _ _)
  refine ⟨hg, r', hok, ?_, ?_⟩
  · rw [hchained.edges_eq]
    rfl
  · rw [hchained.block?_old (by decide)]
    decide

end FlowGraph
