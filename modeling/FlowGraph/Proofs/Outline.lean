import FlowGraph.Proofs.Routes

/-! # Graphs with the same outline

What a block does, and the phi functions that it has, can change while its edges stay.  Routes and
dominators are the same then, and the graph stays well-formed as long as every block remains of its
kind and has phi arguments for its incoming edges only.
-/
namespace FlowGraph

/-- What a block says of itself and its edges. -/
def Block.outline (b : Block) : BlockId × List EdgeId × List EdgeId := (b.id, b.preds, b.succs)

/-- A block without phi functions. -/
def Block.withoutPhis (x : Block) : Block := { x with phis := .empty }

/-- As much of a kind as the structural rules speak of: whether it is terminal, and the directions
in which control leaves it. -/
def Kind.shape (k : Kind) : Bool × List Direction := (k.isTerminal, k.directions)

theorem Kind.shape_of_name {k k' : Kind} (h : k.name = k'.name) : k.shape = k'.shape := by
  cases k <;> cases k' <;> simp_all [name, shape, directions, isTerminal]

theorem Kind.eq_entry_of_shape {k : Kind} (h : k.shape = entry.shape) : k = .entry := by
  cases k <;> simp_all [shape, directions, isTerminal]

theorem Kind.eq_exit_of_shape {k : Kind} (h : k.shape = exit.shape) : k = .exit := by
  cases k <;> simp_all [shape, directions, isTerminal]

theorem Kind.map_shape_of_name {o o' : Option Kind} (h : o.map name = o'.map name) :
    o.map shape = o'.map shape := by
  cases o with
  | none =>
    rw [Option.map_eq_none_iff.mp h.symm]
  | some k =>
    obtain ⟨k', rfl, hname⟩ := Option.map_eq_some_iff.mp h.symm
    exact congrArg some (shape_of_name hname.symm)

namespace Graph

/-- **Two graphs with the same blocks and edges.** -/
structure SameOutline (g g' : Graph) : Prop where
  edges_eq : g'.edges = g.edges
  size_eq : g'.blocks.size = g.blocks.size
  outline_eq : ∀ b, (g'.block? b).map Block.outline = (g.block? b).map Block.outline

namespace SameOutline

variable {g g' g'' : Graph}

theorem refl (g : Graph) : SameOutline g g := ⟨rfl, rfl, fun _ => rfl⟩

theorem symm (h : SameOutline g g') : SameOutline g' g :=
  ⟨h.edges_eq.symm, h.size_eq.symm, fun b => (h.outline_eq b).symm⟩

theorem trans (h : SameOutline g g') (h' : SameOutline g' g'') : SameOutline g g'' :=
  ⟨h'.edges_eq.trans h.edges_eq, h'.size_eq.trans h.size_eq,
    fun b => (h'.outline_eq b).trans (h.outline_eq b)⟩

theorem modifyBlock (g : Graph) (b : BlockId) {f : Block → Block}
    (hf : ∀ block, (f block).outline = block.outline) : SameOutline g (g.modifyBlock b f) := by
  refine ⟨rfl, size_modifyBlock .., fun c => ?_⟩
  rw [block?_modifyBlock]
  split
  · rw [Option.map_map]
    exact congrArg (Option.map · _) (funext hf)
  · rfl

theorem edge?_eq (h : SameOutline g g') (e : EdgeId) : g'.edge? e = g.edge? e := by
  rw [edge?, edge?, h.edges_eq]

/-- A block of one graph and the block of the other at the same place. -/
theorem exists_block (h : SameOutline g g') {b : BlockId} {block' : Block}
    (hb : g'.block? b = some block') :
    ∃ block, g.block? b = some block ∧ block'.id = block.id ∧ block'.preds = block.preds ∧
      block'.succs = block.succs := by
  have := h.outline_eq b
  rw [hb, Option.map_some] at this
  obtain ⟨block, hb, heq⟩ := Option.map_eq_some_iff.mp this.symm
  simp only [Block.outline, Prod.mk.injEq] at heq
  exact ⟨block, hb, heq.1.symm, heq.2.1.symm, heq.2.2.symm⟩

theorem block?_eq_none (h : SameOutline g g') {b : BlockId} (hb : g'.block? b = none) :
    g.block? b = none :=
  Option.map_eq_none_iff.mp ((h.outline_eq b).symm.trans (Option.map_eq_none_iff.mpr hb))

theorem targets_eq (h : SameOutline g g') : g'.targets = g.targets := by
  funext b
  rw [targets, targets]
  cases hb' : g'.block? b with
  | none => rw [h.block?_eq_none hb']
  | some block' =>
    obtain ⟨block, hb, -, -, hsuccs⟩ := h.exists_block hb'
    simp only [hb, hsuccs, h.edge?_eq]

theorem edge_eq (h : SameOutline g g') (e : EdgeId) : g'.edge e = g.edge e := by
  rw [edge, edge, h.edge?_eq]

theorem successorEdges_eq (h : SameOutline g g') (b : BlockId) :
    g'.successorEdges b = g.successorEdges b := by
  rw [successorEdges, successorEdges, block, block]
  cases hb' : g'.block? b with
  | none => rw [h.block?_eq_none hb']
  | some block' =>
    obtain ⟨block, hb, -, -, hsuccs⟩ := h.exists_block hb'
    rw [hb]
    exact congrArg Except.ok hsuccs

theorem demandLive_eq (h : SameOutline g g') (bs : List BlockId) :
    g'.demandLive bs = g.demandLive bs := by
  refine congrArg bs.forM (funext fun b => ?_)
  rw [block, block]
  cases hb' : g'.block? b with
  | none => rw [h.block?_eq_none hb']
  | some block' =>
    obtain ⟨block, hb, -⟩ := h.exists_block hb'
    rw [hb]
    rfl

theorem successors_eq (h : SameOutline g g') : g'.successors = g.successors := by
  funext b
  rw [successors, successors, funext h.edge_eq, block, block]
  cases hb' : g'.block? b with
  | none => rw [h.block?_eq_none hb']
  | some block' =>
    obtain ⟨block, hb, -, -, hsuccs⟩ := h.exists_block hb'
    rw [hb]
    exact congrArg (List.mapM _) hsuccs

theorem predecessors_eq (h : SameOutline g g') : g'.predecessors = g.predecessors := by
  funext b
  rw [predecessors, predecessors, funext h.edge_eq, block, block]
  cases hb' : g'.block? b with
  | none => rw [h.block?_eq_none hb']
  | some block' =>
    obtain ⟨block, hb, -, hpreds, -⟩ := h.exists_block hb'
    rw [hb]
    exact congrArg (List.mapM _) hpreds

theorem isLive_eq (h : SameOutline g g') : g'.isLive = g.isLive := by
  funext b
  rw [isLive, isLive, ← Option.isSome_map (f := Block.outline), h.outline_eq, Option.isSome_map]

theorem blockIds_eq (h : SameOutline g g') : g'.blockIds = g.blockIds := by
  have hslots : g'.blocks.toList.map (Option.map Block.id) =
      g.blocks.toList.map (Option.map Block.id) := by
    refine List.ext_getElem (by simp [h.size_eq]) fun slot hslot' hslot => ?_
    have hout := congrArg (Option.map Prod.fst) (h.outline_eq ⟨slot⟩)
    simp only [List.length_map, Array.length_toList] at hslot hslot'
    simpa [block?, hslot, hslot', Function.comp_def, Block.outline] using hout
  have hids : ∀ g : Graph, g.blockIds =
      (g.blocks.toList.map (Option.map Block.id)).filterMap id := by
    intro g
    rw [blockIds, liveBlocks, List.map_filterMap, List.filterMap_map]
    rfl
  rw [hids, hids, hslots]

theorem leads_iff (h : SameOutline g g') {a b : BlockId} : g'.Leads a b ↔ g.Leads a b := by
  simp only [Leads, h.edge?_eq]

theorem route_iff (h : SameOutline g g') {p : List BlockId} {b : BlockId} :
    g'.Route p b ↔ g.Route p b := by
  constructor
  · intro hp
    induction hp with
    | start => exact .start
    | step _ hl ih => exact ih.step (h.leads_iff.mp hl)
  · intro hp
    induction hp with
    | start => exact .start
    | step _ hl ih => exact ih.step (h.leads_iff.mpr hl)

theorem dominates_iff (h : SameOutline g g') {a b : BlockId} :
    g'.Dominates a b ↔ g.Dominates a b := by
  simp only [Dominates, h.route_iff]

end SameOutline

/-- **The lists stay in order** while the outline stays. -/
theorem Listed.of_outline {g g' : Graph} (hg : g.Listed) (h : SameOutline g g')
    (hargs : ∀ {b block}, g'.block? b = some block → ∀ {name p}, block.phis.get? name = some p →
      ∀ {e v}, p.arg? e = some v → e ∈ block.preds) : g'.Listed := by
  have live : ∀ {b}, (∃ block, g.block? b = some block) → ∃ block, g'.block? b = some block := by
    rintro b ⟨block, hb⟩
    obtain ⟨block', hb', -⟩ := h.symm.exists_block hb
    exact ⟨block', hb'⟩
  constructor
  case id_eq =>
    intro b block' hb
    obtain ⟨block, hb, hid, -⟩ := h.exists_block hb
    rw [hid, hg.id_eq hb]
  case mem_succs =>
    intro b block' hb e
    obtain ⟨block, hb, -, -, hs⟩ := h.exists_block hb
    rw [hs, h.edge?_eq, hg.mem_succs hb]
  case mem_preds =>
    intro b block' hb e
    obtain ⟨block, hb, -, hp, -⟩ := h.exists_block hb
    rw [hp, h.edge?_eq, hg.mem_preds hb]
  case nodup_succs =>
    intro b block' hb
    obtain ⟨block, hb, -, -, hs⟩ := h.exists_block hb
    exact hs ▸ hg.nodup_succs hb
  case nodup_preds =>
    intro b block' hb
    obtain ⟨block, hb, -, hp, -⟩ := h.exists_block hb
    exact hp ▸ hg.nodup_preds hb
  case source_live =>
    intro e edge he
    rw [h.edge?_eq] at he
    exact live (hg.source_live he)
  case target_live =>
    intro e edge he
    rw [h.edge?_eq] at he
    exact live (hg.target_live he)
  case args_enter => exact hargs

/-- **A graph stays well-formed** while its outline and the shapes of its blocks stay. -/
theorem WellFormed.of_outline {g g' : Graph} (hg : g.WellFormed) (h : SameOutline g g')
    (hkind : ∀ b, (g'.kind? b).map Kind.shape = (g.kind? b).map Kind.shape)
    (hargs : ∀ {b block}, g'.block? b = some block → ∀ {name p}, block.phis.get? name = some p →
      ∀ {e v}, p.arg? e = some v → e ∈ block.preds) : g'.WellFormed := by
  -- All that is asked of a kind depends on its shape.
  have kind_inv : ∀ {b k'}, g'.kind? b = some k' → ∃ k, g.kind? b = some k ∧
      k.shape = k'.shape := by
    intro b k' hk
    have := hkind b
    rw [hk, Option.map_some] at this
    exact Option.map_eq_some_iff.mp this.symm
  have entry_inv : ∀ {b}, g'.kind? b = some .entry → g.kind? b = some .entry := by
    intro b hk
    obtain ⟨k, hk, hshape⟩ := kind_inv hk
    rw [hk, Kind.eq_entry_of_shape hshape]
  have exit_inv : ∀ {b}, g'.kind? b = some .exit → g.kind? b = some .exit := by
    intro b hk
    obtain ⟨k, hk, hshape⟩ := kind_inv hk
    rw [hk, Kind.eq_exit_of_shape hshape]
  refine ⟨checkWiring_iff.mpr { hg.listed.of_outline h hargs with
    entry_kind := ?entry_kind, entry_closed := ?entry_closed, exit_kind := ?exit_kind
    exit_closed := ?exit_closed, ways := ?ways, one_way := ?one_way },
    fun hk => hg.entry_only (entry_inv hk), fun hk => hg.exit_only (exit_inv hk)⟩
  case entry_kind =>
    have := hkind entry
    rw [hg.wired.entry_kind] at this
    obtain ⟨k, hk, hshape⟩ := Option.map_eq_some_iff.mp this
    rw [hk, Kind.eq_entry_of_shape hshape]
  case entry_closed =>
    intro e edge he
    rw [h.edge?_eq] at he
    exact hg.wired.entry_closed he
  case exit_kind =>
    have := hkind exit
    rw [hg.wired.exit_kind] at this
    obtain ⟨k, hk, hshape⟩ := Option.map_eq_some_iff.mp this
    rw [hk, Kind.eq_exit_of_shape hshape]
  case exit_closed =>
    intro e edge he
    rw [h.edge?_eq] at he
    exact hg.wired.exit_closed he
  case ways =>
    intro b k' hk' hne d
    obtain ⟨k, hk, hshape⟩ := kind_inv hk'
    simp only [h.edge?_eq]
    have hdirections : k.directions = k'.directions := congrArg Prod.snd hshape
    rw [← hdirections, hg.wired.ways hk]
    rintro rfl
    exact hne (Kind.eq_exit_of_shape hshape.symm)
  case one_way =>
    intro b k' hk' hne d e e' t t' he he'
    rw [h.edge?_eq] at he he'
    exact hg.edge_unique he he'

/-! ### Without phi functions -/

/-- **The graph without phi functions.** -/
def withoutPhis (g : Graph) : Graph := g.mapBlocks Block.withoutPhis

theorem block?_withoutPhis (g : Graph) (b : BlockId) :
    g.withoutPhis.block? b = (g.block? b).map Block.withoutPhis := block?_mapBlocks ..

theorem size_withoutPhis (g : Graph) : g.withoutPhis.blocks.size = g.blocks.size := Array.size_map

theorem Listed.withoutPhis {g : Graph} (hg : g.Listed) : g.withoutPhis.Listed := by
  refine hg.of_outline ⟨rfl, g.size_withoutPhis, fun b => ?_⟩ fun hb _ p hp => ?_
  · rw [block?_withoutPhis, Option.map_map]
    rfl
  · rw [block?_withoutPhis] at hb
    obtain ⟨block, -, rfl⟩ := Option.map_eq_some_iff.mp hb
    cases hp

theorem withoutPhis_modifyBlock (g : Graph) (b : BlockId) (f f' : Block → Block)
    (hf : ∀ x, (f x).withoutPhis = f' x.withoutPhis) :
    (g.modifyBlock b f).withoutPhis = g.withoutPhis.modifyBlock b f' := by
  refine ext_block? rfl rfl ?_ fun c => ?_
  · rw [size_withoutPhis, size_modifyBlock, size_modifyBlock, size_withoutPhis]
  · rw [block?_withoutPhis, block?_modifyBlock, block?_modifyBlock, block?_withoutPhis]
    split
    · rw [Option.map_map, Option.map_map]
      exact congrArg (Option.map · _) (funext hf)
    · rfl

theorem withoutPhis_modifyPhis (g : Graph) (b : BlockId) {f : Block → Block}
    (hf : ∀ x, (f x).withoutPhis = x.withoutPhis) :
    (g.modifyBlock b f).withoutPhis = g.withoutPhis := by
  rw [withoutPhis_modifyBlock g b f id hf]
  exact modifyBlock_eq_self fun _ => rfl

theorem withoutPhis_addBlock (g : Graph) (k : Kind) :
    (g.addBlock k).2.withoutPhis = (g.withoutPhis.addBlock k).2 := by
  refine ext_block? rfl rfl ?_ fun c => ?_
  · rw [size_withoutPhis, size_addBlock, size_addBlock, size_withoutPhis]
  · rw [block?_withoutPhis, block?_addBlock, block?_addBlock, size_withoutPhis, block?_withoutPhis]
    split <;> rfl

theorem withoutPhis_addEdge (g : Graph) (edge : Edge) :
    (g.addEdge edge).2.withoutPhis = (g.withoutPhis.addEdge edge).2 := by
  simp only [addEdge]
  rw [withoutPhis_modifyBlock, withoutPhis_modifyBlock]
  · rfl
  · exact fun _ => rfl
  · exact fun _ => rfl

theorem withoutPhis_removeEdge (g : Graph) (e : EdgeId) :
    (g.removeEdge e).withoutPhis = g.withoutPhis.removeEdge e := by
  have hedge : g.withoutPhis.edge? e = g.edge? e := rfl
  rw [removeEdge, removeEdge, hedge]
  cases g.edge? e with
  | none => rfl
  | some edge =>
    simp only
    rw [← withoutPhis_modifyBlock, ← withoutPhis_modifyBlock]
    · rfl
    · exact fun _ => rfl
    · exact fun _ => rfl

theorem withoutPhis_clearBlock (g : Graph) (b : BlockId) :
    (g.clearBlock b).withoutPhis = g.withoutPhis.clearBlock b := by
  refine ext_block? rfl rfl (by simp [withoutPhis, mapBlocks, clearBlock]) fun c => ?_
  rw [block?_withoutPhis, block?_clearBlock, block?_clearBlock, block?_withoutPhis]
  split <;> rfl

theorem withoutPhis_removeBlock (g : Graph) (b : BlockId) :
    (g.removeBlock b).withoutPhis = g.withoutPhis.removeBlock b := by
  rw [removeBlock, removeBlock, block?_withoutPhis]
  cases g.block? b with
  | none => rfl
  | some block =>
    show _ = ((block.preds ++ block.succs).foldl removeEdge g.withoutPhis).clearBlock b
    rw [List.foldl_hom withoutPhis fun g e => (withoutPhis_removeEdge g e).symm,
      withoutPhis_clearBlock]

end Graph
end FlowGraph
