import FlowGraph.Proofs.Handles
import FlowGraph.Proofs.Leaving
import FlowGraph.Proofs.Outcomes
import FlowGraph.Proofs.Tidying

/-! # Changes that keep a graph sound

What every operation keeps of a graph is said by `Evolves`: the graph stays well-formed, and no
handle is given out twice.  Most operations also leave complete phi functions complete
(`Maintains`).  An operation that only puts blocks onto edges keeps more (`Grows`): all blocks stay,
and so does what the entry reaches.  Turning the phi functions of a block with a single predecessor
into copies is of that kind, and never fails.
-/
namespace FlowGraph

/-! ### Complete blocks -/

/-- Every phi function of the block has an argument for every edge that enters it. -/
def Block.Complete (b : Block) : Prop :=
  ∀ ⦃name p⦄, b.phis.get? name = some p → ∀ e ∈ b.preds, ∃ v, p.arg? e = some v

theorem Block.complete_of_empty {b : Block} (h : b.phis = .empty) : b.Complete := by
  intro name p hp
  rw [h] at hp
  cases hp

/-- Some edges are mentioned no more: arguments for the others make the block complete. -/
theorem Block.complete_foldl_without {es : List EdgeId} {b : Block}
    (h : ∀ ⦃name p⦄, b.phis.get? name = some p → ∀ e ∈ b.preds, e ∉ es → ∃ v, p.arg? e = some v) :
    (es.foldl (fun b e => b.without e) b).Complete := by
  induction es generalizing b with
  | nil => exact fun name p hp e he => h hp e he List.not_mem_nil
  | cons e es ih =>
    rw [List.foldl_cons]
    apply ih
    intro name p' hp' e' he' hnotin
    simp only [Block.without, Phis.map, OrdMap.get?_mapValues, Option.map_eq_some_iff] at hp'
    obtain ⟨p, hp, rfl⟩ := hp'
    obtain ⟨hin, hne⟩ := List.mem_filter.mp he'
    have hne : e' ≠ e := of_decide_eq_true hne
    obtain ⟨v, hv⟩ := h hp e' hin (List.not_mem_cons_of_ne_of_not_mem hne hnotin)
    exact ⟨v, by rw [Phi.arg?_dropArg, if_neg hne, hv]⟩

/-- The edge that takes the place of another takes its argument. -/
theorem Phi.exists_arg?_moveArg {p : Phi} {es : List EdgeId} {e new : EdgeId}
    (h : ∀ e ∈ es, ∃ v, p.arg? e = some v) :
    ∀ e' ∈ Graph.renameIn e new es, ∃ v, (p.moveArg e new).arg? e' = some v := by
  intro e' he'
  rw [Phi.moveArg]
  cases hmoved : p.arg? e with
  | none =>
    rcases Graph.mem_renameIn.mp he' with ⟨hin, -⟩ | ⟨-, hin⟩
    · exact h e' hin
    · obtain ⟨v, hv⟩ := h e hin
      rw [hmoved] at hv
      cases hv
  | some v =>
    simp only [Phi.arg?_setArg, Phi.arg?_dropArg]
    rcases Graph.mem_renameIn.mp he' with ⟨hin, hne⟩ | ⟨heq, -⟩
    · rw [if_neg hne]
      split
      · exact ⟨v, rfl⟩
      · exact h e' hin
    · exact ⟨v, if_pos heq⟩

theorem Block.Complete.resplit {b : Block} (h : b.Complete) (e head tail : EdgeId) :
    (b.resplit e head tail).Complete := by
  intro name p' hp'
  simp only [Block.resplit, Phis.map, OrdMap.get?_mapValues, Option.map_eq_some_iff] at hp'
  obtain ⟨p, hp, rfl⟩ := hp'
  exact Phi.exists_arg?_moveArg (h hp)

/-! ### Kinds that lead one way -/

/-- A kind that control leaves one way and that is not terminal. -/
def Kind.Straight (k : Kind) : Prop := k.shape = (false, [.always])

theorem Kind.straight_of {k : Kind} (hb : k.isBranch = false) (ht : k.isTerminal = false) :
    k.Straight := by
  cases k with
  | entry => cases ht
  | exit => cases ht
  | branch => cases hb
  | statement => rfl
  | empty => rfl

namespace Kind.Straight

variable {k : Kind} (h : k.Straight)
include h

theorem directions_eq : k.directions = [.always] := congrArg Prod.snd h

theorem isTerminal_eq : k.isTerminal = false := congrArg Prod.fst h

theorem isBranch_eq : k.isBranch = false := by
  cases k with
  | branch => cases congrArg Prod.snd h
  | _ => rfl

theorem ne_entry : k ≠ .entry := by
  rintro rfl
  cases congrArg Prod.fst h

theorem ne_exit : k ≠ .exit := by
  rintro rfl
  cases congrArg Prod.fst h

end Kind.Straight

namespace Graph

variable {g g' g'' : Graph}

/-! ### What operations keep -/

/-- **A later state of a graph that is well-formed.** -/
structure Evolves (g g' : Graph) : Prop where
  wellFormed : g'.WellFormed
  follows : g.Follows g'

theorem Evolves.refl (hg : g.WellFormed) : Evolves g g := ⟨hg, .refl g⟩

theorem Evolves.trans (h : Evolves g g') (h' : Evolves g' g'') : Evolves g g'' :=
  ⟨h'.wellFormed, h.follows.trans h'.follows⟩

/-- **A change that keeps a graph sound**, and complete if it is. -/
structure Maintains (g g' : Graph) : Prop where
  wellFormed : g'.WellFormed
  follows : g.Follows g'
  complete : g.PhisComplete → g'.PhisComplete

theorem Maintains.refl (hg : g.WellFormed) : Maintains g g := ⟨hg, .refl g, id⟩

theorem Maintains.trans (h : Maintains g g') (h' : Maintains g' g'') : Maintains g g'' :=
  ⟨h'.wellFormed, h.follows.trans h'.follows, fun hc => h'.complete (h.complete hc)⟩

theorem Maintains.evolves (h : Maintains g g') : Evolves g g' := ⟨h.wellFormed, h.follows⟩

/-- **A change that only puts blocks onto edges.** -/
structure Grows (g g' : Graph) : Prop extends Maintains g g' where
  live : ∀ {b block}, g.block? b = some block → ∃ block', g'.block? b = some block'
  reached : g.Reached → g'.Reached

theorem Grows.refl (hg : g.WellFormed) : Grows g g := ⟨.refl hg, fun hb => ⟨_, hb⟩, id⟩

theorem Grows.trans (h : Grows g g') (h' : Grows g' g'') : Grows g g'' := by
  refine ⟨h.toMaintains.trans h'.toMaintains, fun hb => ?_, fun hr => h'.reached (h.reached hr)⟩
  obtain ⟨block', hb'⟩ := h.live hb
  exact h'.live hb'

/-! ### Changes of blocks in themselves -/

theorem SameOutline.reachable_iff (h : SameOutline g g') {b : BlockId} :
    g'.Reachable b ↔ g.Reachable b := exists_congr fun _ => h.route_iff

theorem SameOutline.reached (h : SameOutline g g') (hr : g.Reached) : g'.Reached := by
  intro b block' hb'
  obtain ⟨block, hb, -⟩ := h.exists_block hb'
  exact (hr hb).imp_right h.reachable_iff.mpr

/-- A change that leaves all edges alone grows the graph by nothing. -/
theorem SameOutline.grows (h : SameOutline g g') (hg : g'.WellFormed)
    (hc : g.PhisComplete → g'.PhisComplete) : Grows g g' := by
  refine ⟨⟨hg, .of_outline h, hc⟩, fun hb => ?_, h.reached⟩
  obtain ⟨block', hb', -⟩ := h.symm.exists_block hb
  exact ⟨block', hb'⟩

/-- A block after one block is changed: as it was, or the changed one. -/
theorem block?_modifyBlock_eq_some {b c : BlockId} {f : Block → Block} {block' : Block}
    (h : (g.modifyBlock b f).block? c = some block') :
    c ≠ b ∧ g.block? c = some block' ∨
      ∃ block, c = b ∧ g.block? b = some block ∧ f block = block' := by
  rw [block?_modifyBlock] at h
  split at h
  · rename_i hcb
    obtain ⟨block, hb, heq⟩ := Option.map_eq_some_iff.mp h
    exact .inr ⟨block, hcb, hcb ▸ hb, heq⟩
  · rename_i hcb
    exact .inl ⟨hcb, h⟩

section
variable (hg : g.WellFormed) (b : BlockId) {f : Block → Block}
  (hout : ∀ block, (f block).outline = block.outline)
  (hkind : ∀ {block}, g.block? b = some block → (f block).kind.shape = block.kind.shape)
  (hargs : ∀ {block}, g.block? b = some block → ∀ {name p}, (f block).phis.get? name = some p →
    ∀ {e v}, p.arg? e = some v → e ∈ (f block).preds)
include hg hout hkind hargs

/-- **One block is changed in itself**: it keeps its shape and has arguments for its incoming edges
only. -/
theorem WellFormed.modifyBlock : (g.modifyBlock b f).WellFormed := by
  refine hg.of_outline (.modifyBlock g b hout) (fun c => ?_) fun {c block'} hc' {name p} hp => ?_
  · rw [kind?, block?_modifyBlock]
    split
    · rename_i hcb
      subst hcb
      cases hb : g.block? c with
      | none => rw [kind?, hb]; rfl
      | some block =>
        rw [kind?_of_block? hb]
        exact congrArg some (hkind hb)
    · rfl
  · rcases block?_modifyBlock_eq_some hc' with ⟨-, hc'⟩ | ⟨block, -, hb, rfl⟩
    · exact hg.listed.args_enter hc' hp
    · exact hargs hb hp

theorem Grows.modifyBlock
    (hc : ∀ {block}, g.block? b = some block → block.Complete → (f block).Complete) :
    Grows g (g.modifyBlock b f) := by
  refine (SameOutline.modifyBlock g b hout).grows (hg.modifyBlock b hout hkind hargs)
    fun hcomp c block' hc' => ?_
  rcases block?_modifyBlock_eq_some hc' with ⟨-, hc'⟩ | ⟨block, -, hb, rfl⟩
  · exact hcomp hc'
  · exact hc hb (hcomp hb)

end

/-- The graph without the phi functions of a block. -/
def forget (g : Graph) (b : BlockId) : Graph :=
  g.modifyBlock b fun block => { block with phis := .empty }

theorem Grows.forget (hg : g.WellFormed) (b : BlockId) : Grows g (g.forget b) :=
  .modifyBlock hg b (fun _ => rfl) (fun _ => rfl) (fun _ _ _ h => by cases h)
    fun _ _ => Block.complete_of_empty rfl

/-! ### Blocks on edges -/

section
variable {e : EdgeId} {edge : Edge} {k : Kind}

theorem reachable_splitEdge (he : g.edge? e = some edge) {b : BlockId} (hb : g.Reachable b) :
    (g.splitEdge e edge k).graph.Reachable b := by
  obtain ⟨p, hp⟩ := hb
  induction hp with
  | start => exact .entry
  | @step p c b _ hl ih =>
    obtain ⟨e', d, he'⟩ := hl
    by_cases heq : e' = e
    · -- the two halves of the edge, one after the other
      subst heq
      rw [he] at he'
      cases he'
      have hhead := (edge?_splitEdge_eq_some he (k := k)).mpr (.inr (.inl ⟨rfl, rfl⟩))
      have htail := (edge?_splitEdge_eq_some he (k := k)).mpr (.inr (.inr ⟨rfl, rfl⟩))
      exact (ih.step ⟨_, _, hhead⟩).step ⟨_, _, htail⟩
    · exact ih.step ⟨e', d, (edge?_splitEdge_eq_some he).mpr (.inl ⟨heq, he'⟩)⟩

theorem WellFormed.reached_splitEdge (hg : g.WellFormed) (he : g.edge? e = some edge)
    (hr : g.Reached) : (g.splitEdge e edge k).graph.Reached := by
  intro b block hb
  rcases (hg.listed.block?_splitEdge_eq_some he).mp hb with ⟨rfl, -⟩ | ⟨old, hold, -⟩
  · right
    obtain ⟨source, hs⟩ := hg.listed.source_live he
    have hreach := (hr hs).resolve_left (hg.wired.exit_closed he)
    have hhead := (edge?_splitEdge_eq_some he (k := k)).mpr (.inr (.inl ⟨rfl, rfl⟩))
    exact (reachable_splitEdge he hreach).step ⟨_, _, hhead⟩
  · exact (hr hold).imp_right (reachable_splitEdge he)

theorem Listed.phisComplete_splitEdge (hg : g.Listed) (he : g.edge? e = some edge)
    (hc : g.PhisComplete) : (g.splitEdge e edge k).graph.PhisComplete := by
  intro b block hb
  rcases (hg.block?_splitEdge_eq_some he).mp hb with ⟨-, rfl⟩ | ⟨old, hold, rfl⟩
  · exact Block.complete_of_empty rfl
  · exact Block.Complete.resplit (hc hold) ..

/-- **Putting a block onto an edge.** -/
theorem Grows.splitEdge (hg : g.WellFormed) (he : g.edge? e = some edge)
    (hk : k.Straight) : Grows g (g.splitEdge e edge k).graph where
  wellFormed := hg.splitEdge he hk.directions_eq hk.ne_entry
  follows := .splitEdge ..
  complete := hg.listed.phisComplete_splitEdge he
  live hb := ⟨_, (hg.listed.block?_splitEdge_eq_some he).mpr (.inr ⟨_, hb, rfl⟩)⟩
  reached := hg.reached_splitEdge he

end

/-! ### Solo phi functions -/

theorem Listed.ends_spliceCopy (hg : g.Listed) {e : EdgeId} {edge : Edge}
    (he : g.edge? e = some edge) (lhs rhs : Var) {good : EdgeId × Graph → Prop} {bad : Fault → Prop}
    (h : good (g.tailOf, (g.splitEdge e edge (.statement (.copy lhs rhs))).graph)) :
    (g.spliceCopy e lhs rhs).Ends good bad := by
  unfold spliceCopy splice
  rw [if_neg (by simp [Kind.isBranch, Kind.isTerminal]), bind_assoc]
  apply Run.Ends.bind_ok (edge_eq_ok he)
  rw [bind_assoc]
  apply Run.Ends.bind_ok (hg.joined.split_eq he _)
  rw [bind_assoc]
  apply Run.Ends.report
  rw [pure_bind, splitEdge_tail]
  exact .pure h

/-- **Solo phi functions become copies**, whatever block that is asked of. -/
theorem WellFormed.grows_simplifySolo (hg : g.WellFormed) {b : BlockId} {block : Block}
    (hb : g.block? b = some block) : ∃ g', (g.simplifySolo b).outcome = .ok g' ∧ Grows g g' := by
  apply Run.Ends.exists_ok
  unfold Graph.simplifySolo
  apply Run.Ends.bind_ok (block_eq_ok hb)
  split
  · rename_i e hpreds
    have hforget := Grows.forget hg b
    obtain ⟨edge, he, -⟩ := (hg.listed.mem_preds hb e).mp (hpreds ▸ List.mem_singleton.mpr rfl)
    refine Run.Ends.bind (.foldlM (fun _ (s : EdgeId × Graph) =>
      Grows g s.2 ∧ ∃ edge, s.2.edge? s.1 = some edge) ?_ ?_) fun _ hs => .pure hs.1
    · rintro ⟨lhs, arg⟩ rest ⟨e', g'⟩ ⟨hgrows, edge', he'⟩
      apply Run.Ends.report
      apply hgrows.wellFormed.listed.ends_spliceCopy he'
      exact ⟨hgrows.trans (.splitEdge hgrows.wellFormed he' rfl), _,
        (edge?_splitEdge_eq_some he').mpr (.inr (.inr ⟨rfl, rfl⟩))⟩
    · exact ⟨hforget, edge, he⟩
  · exact .pure (.refl hg)

end Graph
end FlowGraph
