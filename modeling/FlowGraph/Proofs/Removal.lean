import FlowGraph.Proofs.Meaning
import FlowGraph.Proofs.OrdMap
import FlowGraph.Proofs.Routes
import FlowGraph.Graph.Tidy

/-! # Removing blocks

Removing an edge takes it out of the lists of both its end points and out of the phi functions at
its end.  In a graph whose lists agree with its table of edges no other block mentions the edge, so
that is the same as taking it out everywhere (`Block.without`), and in this form removals add up.

Pruning removes the blocks that the entry does not reach.  No walk visits one of them, so the graph
without them has the same walks.
-/
namespace FlowGraph

/-- A block that mentions an edge no more. -/
def Block.without (e : EdgeId) (b : Block) : Block :=
  { b with
    preds := b.preds.filter (· ≠ e)
    succs := b.succs.filter (· ≠ e)
    phis := b.phis.map (·.dropArg e) }

namespace Phi

theorem arg?_dropArg (p : Phi) (e e' : EdgeId) :
    (p.dropArg e).arg? e' = if e' = e then none else p.arg? e' :=
  OrdMap.get?_erase ..

theorem arg?_setArg (p : Phi) (e e' : EdgeId) (v : Var) :
    (p.setArg e v).arg? e' = if e' = e then some v else p.arg? e' :=
  OrdMap.get?_insert ..

theorem dropArg_eq_self {p : Phi} {e : EdgeId} (h : p.arg? e = none) : p.dropArg e = p := by
  have hargs : p.args.erase e = p.args := by
    refine OrdMap.ext_get? fun e' => ?_
    rw [OrdMap.get?_erase]
    split
    · rename_i heq
      rw [heq]
      exact h.symm
    · rfl
  rw [dropArg, hargs]

end Phi

theorem Phis.map_eq_self {ps : Phis} {f : Phi → Phi}
    (h : ∀ {name p}, ps.get? name = some p → f p = p) : ps.map f = ps := by
  refine OrdMap.ext_get? fun name => ?_
  rw [Phis.map, OrdMap.get?_mapValues]
  cases hp : ps.get? name with
  | none => rfl
  | some p => rw [Option.map_some, h hp]

theorem filter_ne_eq_self {es : List EdgeId} {e : EdgeId} (h : e ∉ es) :
    es.filter (· ≠ e) = es := by
  rw [List.filter_eq_self]
  intro e' he'
  simp only [ne_eq, decide_eq_true_eq]
  rintro rfl
  exact h he'

theorem Block.foldl_without (es : List EdgeId) (block : Block) :
    (es.foldl (fun block e => block.without e) block).kind = block.kind ∧
      (es.foldl (fun block e => block.without e) block).phis.keys = block.phis.keys := by
  induction es generalizing block with
  | nil => exact ⟨rfl, rfl⟩
  | cons e es ih =>
    rw [List.foldl_cons]
    obtain ⟨hk, hp⟩ := ih (block.without e)
    exact ⟨hk, hp.trans (OrdMap.keys_mapValues ..)⟩

namespace Graph

variable {g : Graph}

/-! ### Edges -/

@[simp] theorem size_removeEdge (g : Graph) (e : EdgeId) :
    (g.removeEdge e).blocks.size = g.blocks.size := by
  unfold removeEdge
  cases g.edge? e <;> simp

namespace Listed

/-- An edge that does not enter a block is not mentioned by its phi functions. -/
theorem map_dropArg (hg : g.Listed) {b : BlockId} {block : Block} (hb : g.block? b = some block)
    {e : EdgeId} (h : e ∉ block.preds) : block.phis.map (·.dropArg e) = block.phis := by
  refine Phis.map_eq_self fun {name p} hp => Phi.dropArg_eq_self ?_
  cases ha : p.arg? e with
  | none => rfl
  | some v => exact absurd (hg.args_enter hb hp ha) h

/-- **Removing an edge** takes it out of all blocks. -/
theorem block?_removeEdge (hg : g.Listed) (e : EdgeId) (b : BlockId) :
    (g.removeEdge e).block? b = (g.block? b).map (Block.without e) := by
  cases hb : g.block? b with
  | none =>
    unfold removeEdge
    cases g.edge? e with
    | none => simp [hb]
    | some edge => simp [block?_modifyBlock, hb]
  | some block =>
    unfold removeEdge
    cases he : g.edge? e with
    | none =>
      have hpred := hg.notMem_preds hb he
      rw [hb, Option.map_some, Block.without, filter_ne_eq_self (hg.notMem_succs hb he),
        filter_ne_eq_self hpred, hg.map_dropArg hb hpred]
    | some edge =>
      have hsucc : b ≠ edge.source → block.succs.filter (· ≠ e) = block.succs := fun hs =>
        filter_ne_eq_self fun hin => hs (hg.source_eq hb hin he).symm
      have hpred : b ≠ edge.target → e ∉ block.preds := fun ht hin =>
        ht (hg.target_eq hb hin he).symm
      simp only [block?_clearEdge, block?_modifyBlock, hb]
      by_cases hs : b = edge.source <;> by_cases ht : b = edge.target
      · simp only [if_pos hs, if_pos ht, Option.map_some, Block.without]
      · simp only [if_pos hs, if_neg ht, Option.map_some, Block.without,
          filter_ne_eq_self (hpred ht), hg.map_dropArg hb (hpred ht)]
      · simp only [if_neg hs, if_pos ht, Option.map_some, Block.without, hsucc hs]
      · simp only [if_neg hs, if_neg ht, Option.map_some, Block.without, hsucc hs,
          filter_ne_eq_self (hpred ht), hg.map_dropArg hb (hpred ht)]

theorem kind?_removeEdge (hg : g.Listed) (e : EdgeId) (b : BlockId) :
    (g.removeEdge e).kind? b = g.kind? b := by
  rw [kind?, hg.block?_removeEdge, Option.map_map]
  rfl

theorem removeEdge (hg : g.Listed) (e : EdgeId) : (g.removeEdge e).Listed := by
  have inv : ∀ {b block'}, (g.removeEdge e).block? b = some block' →
      ∃ block, g.block? b = some block ∧ block.without e = block' := fun h => by
    rw [hg.block?_removeEdge] at h
    exact Option.map_eq_some_iff.mp h
  have live : ∀ {b}, (∃ block, g.block? b = some block) →
      ∃ block, (g.removeEdge e).block? b = some block := by
    rintro b ⟨block, hb⟩
    exact ⟨_, by rw [hg.block?_removeEdge, hb]; rfl⟩
  constructor
  case id_eq =>
    intro b block' h
    obtain ⟨block, hb, rfl⟩ := inv h
    exact (hg.id_eq hb : block.id = b)
  case mem_succs =>
    intro b block' h e'
    obtain ⟨block, hb, rfl⟩ := inv h
    simp only [Block.without, List.mem_filter, hg.mem_succs hb, edge?_removeEdge_eq_some,
      decide_eq_true_eq]
    grind
  case mem_preds =>
    intro b block' h e'
    obtain ⟨block, hb, rfl⟩ := inv h
    simp only [Block.without, List.mem_filter, hg.mem_preds hb, edge?_removeEdge_eq_some,
      decide_eq_true_eq]
    grind
  case nodup_succs =>
    intro b block' h
    obtain ⟨block, hb, rfl⟩ := inv h
    exact (hg.nodup_succs hb).filter _
  case nodup_preds =>
    intro b block' h
    obtain ⟨block, hb, rfl⟩ := inv h
    exact (hg.nodup_preds hb).filter _
  case source_live => exact fun h => live (hg.source_live (edge?_removeEdge_eq_some.mp h).2)
  case target_live => exact fun h => live (hg.target_live (edge?_removeEdge_eq_some.mp h).2)
  case args_enter =>
    intro b block' h name p' hp e' v hv
    obtain ⟨block, hb, rfl⟩ := inv h
    simp only [Block.without, Phis.map, OrdMap.get?_mapValues, Option.map_eq_some_iff] at hp
    obtain ⟨p, hp, rfl⟩ := hp
    rw [Phi.arg?_dropArg] at hv
    by_cases he : e' = e
    · rw [if_pos he] at hv
      cases hv
    · rw [if_neg he] at hv
      exact List.mem_filter.mpr ⟨hg.args_enter hb hp hv, decide_eq_true he⟩

end Listed

/-- Removing several edges. -/
theorem Listed.foldl_removeEdge (hg : g.Listed) (es : List EdgeId) :
    (es.foldl Graph.removeEdge g).Listed ∧
      (es.foldl Graph.removeEdge g).blocks.size = g.blocks.size ∧
      (∀ e, (es.foldl Graph.removeEdge g).edge? e = if e ∈ es then none else g.edge? e) ∧
      ∀ b, (es.foldl Graph.removeEdge g).block? b =
        (g.block? b).map fun block => es.foldl (fun block e => block.without e) block := by
  induction es generalizing g with
  | nil => exact ⟨hg, rfl, fun _ => rfl, fun b => by simp⟩
  | cons e es ih =>
    obtain ⟨hl, hs, he, hb⟩ := ih (hg.removeEdge e)
    refine ⟨hl, by rw [List.foldl_cons, hs, size_removeEdge], fun e' => ?_, fun b => ?_⟩
    · rw [List.foldl_cons, he, edge?_removeEdge]
      by_cases h : e' = e <;> simp [h]
    · rw [List.foldl_cons, hb, hg.block?_removeEdge, Option.map_map]
      rfl

/-! ### The order of the ways out -/

/-- **Taking things out keeps the name of a graph, and the order of the ways out** of its blocks,
some of them perhaps left out. -/
structure KeepsOrder (g g' : Graph) : Prop where
  name_eq : g'.name = g.name
  outward : ∀ {b block'}, g'.block? b = some block' →
    ∃ block, g.block? b = some block ∧ (g'.outward block').Sublist (g.outward block)

theorem KeepsOrder.refl (g : Graph) : KeepsOrder g g :=
  ⟨rfl, fun {_ block} hb => ⟨block, hb, List.Sublist.refl _⟩⟩

theorem KeepsOrder.trans {g' g'' : Graph} (h : KeepsOrder g g') (h' : KeepsOrder g' g'') :
    KeepsOrder g g'' := by
  refine ⟨h'.name_eq.trans h.name_eq, fun {b block''} hb'' => ?_⟩
  obtain ⟨block', hb', hsub'⟩ := h'.outward hb''
  obtain ⟨block, hb, hsub⟩ := h.outward hb'
  exact ⟨block, hb, hsub'.trans hsub⟩

theorem name_removeEdge (g : Graph) (e : EdgeId) : (g.removeEdge e).name = g.name := by
  unfold Graph.removeEdge
  split <;> rfl

namespace Listed

theorem keepsOrder_removeEdge (hg : g.Listed) (e : EdgeId) : KeepsOrder g (g.removeEdge e) := by
  refine ⟨name_removeEdge g e, fun {b block'} hb' => ?_⟩
  rw [hg.block?_removeEdge] at hb'
  obtain ⟨block, hb, rfl⟩ := Option.map_eq_some_iff.mp hb'
  refine ⟨block, hb, ?_⟩
  have houtward : (g.removeEdge e).outward (block.without e) =
      (block.succs.filter (· ≠ e)).filterMap fun e' => (g.edge? e').map (·.direction) := by
    refine List.filterMap_congr fun e' he' => ?_
    have hne : e' ≠ e := by simpa using (List.mem_filter.mp he').2
    rw [edge?_removeEdge, if_neg hne]
  rw [houtward]
  exact List.filter_sublist.filterMap _

theorem keepsOrder_removeBlock (hg : g.Listed) (b : BlockId) : KeepsOrder g (g.removeBlock b) := by
  unfold Graph.removeBlock
  cases hb : g.block? b with
  | none => exact .refl g
  | some block =>
    have hfold : ∀ {g : Graph}, g.Listed → ∀ es : List EdgeId,
        KeepsOrder g (es.foldl Graph.removeEdge g) := by
      intro g hg es
      induction es generalizing g with
      | nil => exact .refl g
      | cons e es ih => exact (hg.keepsOrder_removeEdge e).trans (ih (hg.removeEdge e))
    refine (hfold hg (block.preds ++ block.succs)).trans ⟨rfl, fun {c block'} hc => ?_⟩
    rw [block?_clearBlock] at hc
    split at hc
    · cases hc
    · exact ⟨block', hc, List.Sublist.refl _⟩

end Listed

/-! ### Blocks -/

/-- **What is left of a graph** when some blocks are removed with all edges that touch them. -/
structure Restricts (g g' : Graph) (gone : BlockId → Prop) : Prop where
  listed : g'.Listed
  size_eq : g'.blocks.size = g.blocks.size
  edge?_iff : ∀ {e edge}, g'.edge? e = some edge ↔
    g.edge? e = some edge ∧ ¬ gone edge.source ∧ ¬ gone edge.target
  block?_of_gone : ∀ {b}, gone b → g'.block? b = none
  /-- A block that is left does the same, and has phi functions for the same variables. -/
  block?_of_left : ∀ {b}, ¬ gone b →
    (g'.block? b).map (fun block => (block.kind, block.phis.keys)) =
      (g.block? b).map (fun block => (block.kind, block.phis.keys))
  order : KeepsOrder g g'

namespace Restricts

variable {g' g'' : Graph} {gone gone' : BlockId → Prop}

theorem refl (hg : g.Listed) : Restricts g g fun _ => False :=
  ⟨hg, rfl, by simp, nofun, fun _ => rfl, .refl g⟩

theorem trans (h : Restricts g g' gone) (h' : Restricts g' g'' gone') :
    Restricts g g'' fun b => gone b ∨ gone' b := by
  refine ⟨h'.listed, h'.size_eq.trans h.size_eq, ?_, ?_, ?_, h.order.trans h'.order⟩
  · intro e edge
    rw [h'.edge?_iff, h.edge?_iff]
    tauto
  · rintro b (hb | hb)
    · by_cases hb' : gone' b
      · exact h'.block?_of_gone hb'
      · have := h'.block?_of_left hb'
        rw [h.block?_of_gone hb] at this
        exact Option.map_eq_none_iff.mp this
    · exact h'.block?_of_gone hb
  · intro b hb
    rw [not_or] at hb
    rw [h'.block?_of_left hb.2, h.block?_of_left hb.1]

theorem kind?_of_left (h : Restricts g g' gone) {b : BlockId} (hb : ¬ gone b) :
    g'.kind? b = g.kind? b := by
  have := congrArg (Option.map Prod.fst) (h.block?_of_left hb)
  rw [Option.map_map, Option.map_map] at this
  exact this

theorem exists_block (h : Restricts g g' gone) {b : BlockId} (hb : ¬ gone b) {block : Block}
    (hlive : g.block? b = some block) : ∃ block', g'.block? b = some block' := by
  obtain ⟨block', hb', -⟩ := block?_of_kind? ((h.kind?_of_left hb).trans (kind?_of_block? hlive))
  exact ⟨block', hb'⟩

theorem kind?_eq_some (h : Restricts g g' gone) {b : BlockId} {k : Kind}
    (hk : g'.kind? b = some k) : ¬ gone b ∧ g.kind? b = some k := by
  by_cases hb : gone b
  · rw [kind?, h.block?_of_gone hb] at hk
    cases hk
  · exact ⟨hb, h.kind?_of_left hb ▸ hk⟩

section
variable (h : Restricts g g' gone) (hentry : ¬ gone entry)
  (hclosed : ∀ {e a b d}, g.edge? e = some ⟨a, b, d⟩ → ¬ gone a → ¬ gone b)
include h hentry hclosed

/-- Where no way leads from what is left to what is gone, the routes are the same. -/
theorem route_iff {p : List BlockId} {b : BlockId} : g'.Route p b ↔ g.Route p b := by
  constructor
  · intro hp
    induction hp with
    | start => exact .start
    | step _ hl ih =>
      obtain ⟨e, d, he⟩ := hl
      exact ih.step ⟨e, d, (h.edge?_iff.mp he).1⟩
  · intro hp
    have hleft : ¬ gone b ∧ g'.Route p b := by
      induction hp with
      | start => exact ⟨hentry, .start⟩
      | step _ hl ih =>
        obtain ⟨e, d, he⟩ := hl
        have hb := hclosed he ih.1
        exact ⟨hb, ih.2.step ⟨e, d, h.edge?_iff.mpr ⟨he, ih.1, hb⟩⟩⟩
    exact hleft.2

theorem reachable_iff {b : BlockId} : g'.Reachable b ↔ g.Reachable b :=
  exists_congr fun _ => h.route_iff hentry hclosed

/-- **What is left is well-formed** then. -/
theorem wellFormed (hg : g.WellFormed) (hexit : ¬ gone exit) : g'.WellFormed := by
  refine ⟨checkWiring_iff.mpr { h.listed with
    entry_kind := ?entry_kind, entry_closed := ?entry_closed, exit_kind := ?exit_kind
    exit_closed := ?exit_closed, ways := ?ways, one_way := ?one_way },
    fun hk => hg.entry_only (h.kind?_eq_some hk).2, fun hk => hg.exit_only (h.kind?_eq_some hk).2⟩
  case entry_kind => exact (h.kind?_of_left hentry).trans hg.wired.entry_kind
  case entry_closed => exact fun he => hg.wired.entry_closed (h.edge?_iff.mp he).1
  case exit_kind => exact (h.kind?_of_left hexit).trans hg.wired.exit_kind
  case exit_closed => exact fun he => hg.wired.exit_closed (h.edge?_iff.mp he).1
  case ways =>
    intro b k hk hne d
    obtain ⟨hb, hk₀⟩ := h.kind?_eq_some hk
    rw [← hg.wired.ways hk₀ hne d]
    constructor
    · rintro ⟨e, t, he⟩
      exact ⟨e, t, (h.edge?_iff.mp he).1⟩
    · rintro ⟨e, t, he⟩
      exact ⟨e, t, h.edge?_iff.mpr ⟨he, hb, hclosed he hb⟩⟩
  case one_way =>
    intro b k hk hne d e e' t t' he he'
    exact hg.wired.one_way (h.kind?_eq_some hk).2 hne (h.edge?_iff.mp he).1 (h.edge?_iff.mp he').1

end

end Restricts

theorem block?_clearBlock_eq_some {b c : BlockId} {block : Block} :
    (g.clearBlock b).block? c = some block ↔ c ≠ b ∧ g.block? c = some block := by
  rw [block?_clearBlock]
  by_cases hc : c = b <;> simp [hc]

/-- A block that no edge leaves or enters may be taken out. -/
theorem Listed.clearBlock (hg : g.Listed) {b : BlockId}
    (hfree : ∀ {e edge}, g.edge? e = some edge → edge.source ≠ b ∧ edge.target ≠ b) :
    (g.clearBlock b).Listed where
  id_eq hc := hg.id_eq (block?_clearBlock_eq_some.mp hc).2
  mem_succs hc := hg.mem_succs (block?_clearBlock_eq_some.mp hc).2
  mem_preds hc := hg.mem_preds (block?_clearBlock_eq_some.mp hc).2
  nodup_succs hc := hg.nodup_succs (block?_clearBlock_eq_some.mp hc).2
  nodup_preds hc := hg.nodup_preds (block?_clearBlock_eq_some.mp hc).2
  source_live he := by
    obtain ⟨block, hs⟩ := hg.source_live he
    exact ⟨block, block?_clearBlock_eq_some.mpr ⟨(hfree he).1, hs⟩⟩
  target_live he := by
    obtain ⟨block, ht⟩ := hg.target_live he
    exact ⟨block, block?_clearBlock_eq_some.mpr ⟨(hfree he).2, ht⟩⟩
  args_enter hc := hg.args_enter (block?_clearBlock_eq_some.mp hc).2

/-- **Removing a block** leaves all else. -/
theorem Listed.removeBlock (hg : g.Listed) (b : BlockId) :
    Restricts g (g.removeBlock b) (· = b) := by
  have horder := hg.keepsOrder_removeBlock b
  unfold Graph.removeBlock at horder ⊢
  cases hb : g.block? b with
  | none =>
    refine ⟨hg, rfl, ?_, by rintro _ rfl; exact hb, fun _ => rfl, .refl g⟩
    intro e edge
    exact ⟨fun he => ⟨he, hg.source_ne he hb, hg.target_ne he hb⟩, fun he => he.1⟩
  | some block =>
    -- With the edges around it removed, the block may be taken out.
    obtain ⟨hl, hsize, hedge, hblock⟩ := hg.foldl_removeEdge (block.preds ++ block.succs)
    rw [hb] at horder
    simp only at horder ⊢
    generalize (block.preds ++ block.succs).foldl Graph.removeEdge g = h
      at hl hsize hedge hblock horder ⊢
    have hiff : ∀ {e edge}, h.edge? e = some edge ↔
        g.edge? e = some edge ∧ ¬ edge.source = b ∧ ¬ edge.target = b := by
      intro e edge
      rw [hedge]
      simp only [List.mem_append, hg.mem_preds hb, hg.mem_succs hb]
      grind
    refine ⟨hl.clearBlock fun he => (hiff.mp he).2, ?_, hiff, ?_, ?_, horder⟩
    · rw [← hsize]
      exact Array.size_setIfInBounds
    · rintro _ rfl
      rw [block?_clearBlock, if_pos rfl]
    · intro c hc
      rw [block?_clearBlock, if_neg hc, hblock, Option.map_map]
      refine congrArg (Option.map · _) (funext fun block' => ?_)
      exact Prod.ext (Block.foldl_without ..).1 (Block.foldl_without ..).2

/-- A block that is left mentions the edges of the removed one no more. -/
theorem Listed.block?_removeBlock (hg : g.Listed) {b : BlockId} {block : Block}
    (hb : g.block? b = some block) (c : BlockId) : (g.removeBlock b).block? c =
      if c = b then none else (g.block? c).map fun block' =>
        (block.preds ++ block.succs).foldl (fun block' e => block'.without e) block' := by
  obtain ⟨-, -, -, hblock⟩ := hg.foldl_removeEdge (block.preds ++ block.succs)
  rw [Graph.removeBlock, hb]
  show (Graph.clearBlock _ b).block? c = _
  rw [block?_clearBlock, hblock]

/-- **Removing several blocks.** -/
theorem Listed.foldl_removeBlock (hg : g.Listed) (bs : List BlockId) :
    Restricts g (bs.foldl Graph.removeBlock g) (· ∈ bs) := by
  induction bs generalizing g with
  | nil => simpa using Restricts.refl hg
  | cons b bs ih =>
    have h := hg.removeBlock b
    simpa using h.trans (ih h.listed)

/-! ### Look-ups -/

/-- Blocks in use are removed one after the other. -/
theorem Listed.foldlM_discard_eq (hg : g.Listed) {bs : List BlockId} (hnodup : bs.Nodup)
    (hlive : ∀ b ∈ bs, ∃ block, g.block? b = some block) :
    bs.foldlM discard g = .ok (bs.foldl Graph.removeBlock g) := by
  induction bs generalizing g with
  | nil => rfl
  | cons b bs ih =>
    obtain ⟨hfresh, hnodup⟩ := List.nodup_cons.mp hnodup
    obtain ⟨⟨block, hb⟩, hlive⟩ := List.forall_mem_cons.mp hlive
    have hrest := hg.removeBlock b
    rw [List.foldlM_cons, bind_of_ok (hg.joined.discard_eq hb)]
    refine ih hrest.listed hnodup fun c hc => ?_
    obtain ⟨block', hc'⟩ := hlive c hc
    exact hrest.exists_block (fun heq => hfresh (heq ▸ hc)) hc'

/-! ### Unreachable blocks -/

/-- No block has phi functions. -/
def PhiFree (g : Graph) : Prop := ∀ ⦃b block⦄, g.block? b = some block → block.phis = .empty

theorem phiFree_iff_forall_blocks : g.PhiFree ↔ ∀ block ∈ g.liveBlocks, block.phis = .empty := by
  constructor
  · intro h block hblock
    obtain ⟨b, hb⟩ := mem_liveBlocks.mp hblock
    exact h hb
  · exact fun h b block hb => h block (mem_liveBlocks.mpr ⟨b, hb⟩)

instance (g : Graph) : Decidable g.PhiFree := decidable_of_iff _ phiFree_iff_forall_blocks.symm

theorem Restricts.phiFree {g' : Graph} {gone : BlockId → Prop} (h : Restricts g g' gone)
    (hg : g.PhiFree) : g'.PhiFree := by
  intro b block' hb'
  have hleft : ¬ gone b := fun hgone => by
    rw [h.block?_of_gone hgone] at hb'
    cases hb'
  have hmap := h.block?_of_left hleft
  rw [hb', Option.map_some] at hmap
  obtain ⟨block, hb, heq⟩ := Option.map_eq_some_iff.mp hmap.symm
  have hkeys := congrArg Prod.snd heq
  simp only [hg hb] at hkeys
  exact OrdMap.ext (List.map_eq_nil_iff.mp hkeys.symm)

/-- Without phi functions there is nothing to simplify. -/
theorem simplifySolo_of_bare {b : BlockId} {block : Block} (hb : g.block? b = some block)
    (hbare : block.phis = .empty) : (g.simplifySolo b).outcome = .ok g := by
  have hself : g.modifyBlock b (fun block => { block with phis := .empty }) = g := by
    refine modifyBlock_eq_self fun {block'} hb' => ?_
    cases hb.symm.trans hb'
    rw [← hbare]
  have hlook : g.block b = .ok block := by rw [Graph.block, hb]
  simp only [Graph.simplifySolo, Run.outcome_bind]
  rw [Run.outcome_liftM, bind_of_ok hlook]
  split
  · rw [hbare, hself]
    rfl
  · rfl

theorem PhiFree.simplifySolo (hp : g.PhiFree) {b : BlockId} {block : Block}
    (hb : g.block? b = some block) : (g.simplifySolo b).outcome = .ok g :=
  simplifySolo_of_bare hb (hp hb)

/-- The blocks that the entry does not reach, the terminal ones left out. -/
def unreachable (g : Graph) : List BlockId := g.outside g.reachable

theorem Listed.nodup_unreachable (hg : g.Listed) : g.unreachable.Nodup :=
  hg.nodup_blockIds.sublist (List.filter_sublist.map _)

namespace WellFormed

variable (hg : g.WellFormed)
include hg

theorem mem_unreachable {b : BlockId} :
    b ∈ g.unreachable ↔ (∃ block, g.block? b = some block) ∧ b ≠ exit ∧ ¬ g.Reachable b := by
  simp only [unreachable, outside, List.mem_map, List.mem_filter, mem_liveBlocks, Bool.and_eq_true,
    Bool.not_eq_true', decide_eq_true_eq]
  constructor
  · rintro ⟨block, ⟨⟨c, hc⟩, hterm, hreach⟩, rfl⟩
    rw [hg.listed.id_eq hc] at hreach ⊢
    refine ⟨⟨block, hc⟩, ?_, fun h => hreach (hg.mem_reachable.mpr h)⟩
    refine hg.ne_exit (kind?_of_block? hc) fun hx => ?_
    rw [hx] at hterm
    cases hterm
  · rintro ⟨⟨block, hb⟩, hne, hreach⟩
    have hid := hg.listed.id_eq hb
    refine ⟨block, ⟨⟨b, hb⟩, ?_, fun h => hreach (hg.mem_reachable.mp (hid ▸ h))⟩, hid⟩
    cases hk : block.kind with
    | entry =>
      have := hg.entry_only (kind?_of_block? hb |>.trans (congrArg some hk))
      exact absurd (this ▸ Reachable.entry) hreach
    | exit => exact absurd (hg.exit_only (kind?_of_block? hb |>.trans (congrArg some hk))) hne
    | _ => rfl

theorem notMem_unreachable {b : BlockId} (hb : g.Reachable b) : b ∉ g.unreachable := fun hmem =>
  (hg.mem_unreachable.mp hmem).2.2 hb

/-- No way leads from a block that stays to an unreachable one. -/
theorem closed_unreachable {e : EdgeId} {a b : BlockId} {d : Direction}
    (he : g.edge? e = some ⟨a, b, d⟩) (ha : a ∉ g.unreachable) : b ∉ g.unreachable := by
  obtain ⟨block, hlive⟩ := hg.listed.source_live he
  have hreach : g.Reachable a := by
    by_contra hnot
    exact ha (hg.mem_unreachable.mpr ⟨⟨block, hlive⟩, hg.wired.exit_closed he, hnot⟩)
  exact hg.notMem_unreachable (hreach.step ⟨e, d, he⟩)

/-- **What is left after pruning.** -/
theorem restricts_unreachable {g' : Graph} (h : Restricts g g' (· ∈ g.unreachable)) :
    g'.WellFormed ∧ (∀ b, g'.Reachable b ↔ g.Reachable b) ∧ g'.Reached := by
  have hentry : entry ∉ g.unreachable := hg.notMem_unreachable .entry
  have hexit : exit ∉ g.unreachable := fun hmem => (hg.mem_unreachable.mp hmem).2.1 rfl
  have hreach := fun b => h.reachable_iff (b := b) hentry hg.closed_unreachable
  refine ⟨h.wellFormed hentry hg.closed_unreachable hg hexit, hreach, fun b block' hb' => ?_⟩
  obtain ⟨hb, hk⟩ := h.kind?_eq_some (kind?_of_block? hb')
  obtain ⟨block, hlive, -⟩ := block?_of_kind? hk
  rw [hreach]
  by_contra hnot
  rw [not_or] at hnot
  exact hb (hg.mem_unreachable.mpr ⟨⟨block, hlive⟩, hnot⟩)

theorem mapM_successors_unreachable :
    (g.unreachable.mapM g.successors : Answer _) = .ok (g.unreachable.map g.targets) := by
  refine mapM_eq_ok fun b hb => ?_
  obtain ⟨⟨block, hb⟩, -⟩ := hg.mem_unreachable.mp hb
  exact hg.listed.successors_eq hb

/-- No look-up fails while blocks are removed, so only phi functions are left to attend to. -/
theorem outcome_pruneUnreachable_bind : g.pruneUnreachable.outcome =
    (((g.unreachable.foldl Graph.removeBlock g).blockIds.filter
      (· ∈ (g.unreachable.map g.targets).flatten)).foldlM Graph.simplifySolo
        (g.unreachable.foldl Graph.removeBlock g) >>= fun rest =>
          (pure (g.unreachable.length, rest) : Run _)).outcome := by
  have hremove : (g.unreachable.foldlM (fun g b => do
      Run.report (.removingUnreachable b)
      g.discard b) g : Run Graph).outcome = .ok (g.unreachable.foldl Graph.removeBlock g) := by
    rw [Run.outcome_foldlM]
    exact hg.listed.foldlM_discard_eq hg.listed.nodup_unreachable
      fun b hb => (hg.mem_unreachable.mp hb).1
  rw [Graph.pruneUnreachable, Run.outcome_liftM_bind hg.reachableFromEntry_eq]
  exact (Run.outcome_liftM_bind hg.mapM_successors_unreachable _).trans
    (Run.outcome_bind_of_ok hremove _)

/-- **Pruning a graph without phi functions** removes the blocks and does nothing else. -/
theorem outcome_pruneUnreachable (hp : g.PhiFree) : g.pruneUnreachable.outcome =
    .ok (g.unreachable.length, g.unreachable.foldl Graph.removeBlock g) := by
  have hr := hg.listed.foldl_removeBlock g.unreachable
  have hsolo : ∀ bs : List BlockId,
      (∀ b ∈ bs, ∃ block, (g.unreachable.foldl Graph.removeBlock g).block? b = some block) →
      bs.foldlM (fun g b => (Graph.simplifySolo g b).outcome)
        (g.unreachable.foldl Graph.removeBlock g) =
          .ok (g.unreachable.foldl Graph.removeBlock g) := by
    intro bs hbs
    induction bs with
    | nil => rfl
    | cons b bs ih =>
      obtain ⟨⟨block, hb⟩, hbs⟩ := List.forall_mem_cons.mp hbs
      rw [List.foldlM_cons, (hr.phiFree hp).simplifySolo hb]
      exact ih hbs
  rw [hg.outcome_pruneUnreachable_bind, Run.outcome_bind, Run.outcome_foldlM,
    hsolo _ fun b hb => hr.listed.mem_blockIds.mp (List.mem_of_mem_filter hb)]
  rfl

/-- What it leaves is what the entry reaches, and the exit. -/
theorem pruneUnreachable (hp : g.PhiFree) :
    ∃ g', g.pruneUnreachable.outcome = .ok (g.unreachable.length, g') ∧
      Restricts g g' (· ∈ g.unreachable) ∧ (g.unreachable.length = 0 → g' = g) := by
  refine ⟨_, hg.outcome_pruneUnreachable hp,
    hg.listed.foldl_removeBlock g.unreachable, fun h0 => ?_⟩
  rw [List.eq_nil_of_length_eq_zero h0]
  rfl

end WellFormed

/-! ### Walks -/

section Walks
variable {V : Type} {I : Interpretation V}

theorem PhiFree.phiCopies (hp : g.PhiFree) (e : EdgeId) : g.phiCopies e = [] := by
  unfold Graph.phiCopies
  cases h : (g.edge? e).bind fun edge => g.block? edge.target with
  | none => rfl
  | some block =>
    obtain ⟨edge, -, hb⟩ := Option.bind_eq_some_iff.mp h
    simp only [hp hb]
    rfl

theorem PhiFree.advance (hp : g.PhiFree) : g.advance I = g.advanceBy I fun _ σ => σ := by
  unfold Graph.advance
  simp only [hp.phiCopies]
  rfl

/-- A walk visits reachable blocks only. -/
theorem WellFormed.reachable_of_walk (hg : g.WellFormed) {σ : Store V} {n : Nat} {v : Visit V}
    (h : g.walk I σ n = some v) : g.Reachable v.block := by
  induction n generalizing v with
  | zero =>
    cases h
    exact .entry
  | succ n ih =>
    obtain ⟨u, hu, hstep⟩ := Option.bind_eq_some_iff.mp h
    obtain ⟨k, e, -, he, -⟩ := hg.advanceBy_eq_some_iff.mp hstep
    exact (ih hu).step ⟨e, _, he⟩

/-- **Pruning keeps all walks.** -/
theorem WellFormed.walk_of_restricts (hg : g.WellFormed) (hp : g.PhiFree) {g' : Graph}
    (h : Restricts g g' (· ∈ g.unreachable)) (σ : Store V) (n : Nat) :
    g'.walk I σ n = g.walk I σ n := by
  obtain ⟨hg', -, -⟩ := hg.restricts_unreachable h
  induction n with
  | zero => rfl
  | succ n ih =>
    rw [walk, walk, ih]
    cases hv : g.walk I σ n with
    | none => rfl
    | some v =>
      have hleft : ∀ {b}, g.Reachable b → b ∉ g.unreachable := fun hb hmem =>
        (hg.mem_unreachable.mp hmem).2.2 hb
      have hreach := hg.reachable_of_walk hv
      rw [Option.bind_some, Option.bind_some, hp.advance, (h.phiFree hp).advance]
      refine Option.ext fun w => ?_
      rw [hg.advanceBy_eq_some_iff, hg'.advanceBy_eq_some_iff, h.kind?_of_left (hleft hreach)]
      refine exists_congr fun k => exists_congr fun e => and_congr_right fun _ =>
        and_congr_left fun _ => ?_
      rw [h.edge?_iff]
      exact ⟨fun he => he.1, fun he => ⟨he, hleft hreach, hleft (hreach.step ⟨e, _, he⟩)⟩⟩

end Walks
end Graph
end FlowGraph
