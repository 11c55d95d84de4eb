import FlowGraph.Proofs.DefinitionsKept
import FlowGraph.Proofs.SteppingOver

/-! # An edge with a new handle

An empty block that is put onto an edge and taken out again leaves the graph as it was, but for the
handle of the edge.  The edge keeps its direction and its place among the ways out of its source,
comes last among those into its target, and the phi functions there have their arguments for it
under the new handle (`Renewed`).

On the way an argument is moved to the second half of the edge, passed on to the new edge and
dropped with the second half; together that is one move.
-/
namespace FlowGraph

namespace Phi

theorem ext_arg? {p q : Phi} (hversion : p.version = q.version) (h : ∀ e, p.arg? e = q.arg? e) :
    p = q := by
  obtain ⟨version, args⟩ := p
  obtain ⟨version', args'⟩ := q
  cases hversion
  exact congrArg (Phi.mk version) (OrdMap.ext_get? h)

theorem version_moveArg (p : Phi) (e new : EdgeId) : (p.moveArg e new).version = p.version := by
  unfold moveArg
  cases p.arg? e <;> rfl

/-- An argument that is moved to an edge, passed on to another and dropped there has moved to the
other. -/
theorem dropArg_mergedPhi {p : Phi} {e tail new : EdgeId} (htail : p.arg? tail = none)
    (hnew : p.arg? new = none) (hne : new ≠ tail) (name : String) (head : EdgeId) :
    (Graph.mergedPhi name (p.moveArg e tail) none tail [(head, new)]).dropArg tail =
      p.moveArg e new := by
  have hmoved : (p.moveArg e tail).arg? tail = p.arg? e := by rw [arg?_moveArg htail, if_pos rfl]
  have hpassed : Graph.passedValue name (p.moveArg e tail) none tail head = p.arg? e := by
    unfold Graph.passedValue
    rw [hmoved]
    cases p.arg? e <;> rfl
  refine ext_arg? ?_ fun e' => ?_
  · rw [version_moveArg, Graph.mergedPhi_eq]
    exact (Graph.version_foldl_passArg ..).trans (version_moveArg ..)
  · rw [arg?_dropArg, Graph.mergedPhi_eq, List.foldl_cons, List.foldl_nil, arg?_passArg, hpassed,
      arg?_moveArg hnew, arg?_moveArg htail]
    grind

end Phi

/-- A block once an edge has a new handle: one that the edge leaves, or enters, or neither. -/
def Block.renew (e new : EdgeId) (leaves enters : Bool) (b : Block) : Block :=
  { b with
    succs := if leaves then Graph.renameIn e new b.succs else b.succs
    preds := if enters then b.preds.filter (· ≠ e) ++ [new] else b.preds
    phis := if enters then b.phis.map (·.moveArg e new) else b.phis }

namespace Graph

/-- **A graph in which an edge has a new handle**, one that was never used. -/
structure Renewed (g g' : Graph) (e new : EdgeId) (edge : Edge) : Prop where
  name_eq : g'.name = g.name
  fresh : g.edges.size ≤ new.slot
  edge?_eq : ∀ e', g'.edge? e' =
    if e' = new then some edge else if e' = e then none else g.edge? e'
  block?_eq : ∀ b, g'.block? b =
    (g.block? b).map (Block.renew e new (b = edge.source) (b = edge.target))

/-! ### Handles in lists -/

section
variable {e head tail new : EdgeId} {es : List EdgeId}

theorem renameIn_renameIn (h : head ∉ es) :
    renameIn head new (renameIn e head es) = renameIn e new es := by
  rw [renameIn, renameIn, List.map_map, renameIn]
  refine List.map_congr_left fun e' he' => ?_
  have hne : e' ≠ head := fun heq => h (heq ▸ he')
  by_cases heq : e' = e <;> simp [heq, hne]

theorem filter_renameIn (h : tail ∉ es) :
    (renameIn e tail es).filter (· ≠ tail) = es.filter (· ≠ e) := by
  induction es with
  | nil => rfl
  | cons e' es ih =>
    obtain ⟨hne, hnot⟩ := not_or.mp (mt List.mem_cons.mpr h)
    have hcons :
        renameIn e tail (e' :: es) = (if e' = e then tail else e') :: renameIn e tail es := rfl
    rw [hcons, List.filter_cons, List.filter_cons, ih hnot]
    by_cases heq : e' = e <;> simp [heq, Ne.symm hne]

/-- The first half of an edge gives way to the new edge, and the second half is gone. -/
theorem filter_renameIn_renameIn (hhead : head ∉ es) (htail : tail ∉ es) (hne : new ≠ tail) :
    (renameIn head new (renameIn e head es)).filter (· ≠ tail) = renameIn e new es := by
  rw [renameIn_renameIn hhead]
  refine filter_ne_eq_self fun hin => ?_
  rcases mem_renameIn.mp hin with ⟨hin, -⟩ | ⟨heq, -⟩
  · exact htail hin
  · exact hne heq.symm

/-- Neither half is left. -/
theorem filter_filter_renameIn (hhead : head ∉ es) (htail : tail ∉ es) (hne : head ≠ tail) :
    ((renameIn e tail es).filter (· ≠ head)).filter (· ≠ tail) = es.filter (· ≠ e) := by
  have hnot : head ∉ renameIn e tail es := fun hin => by
    rcases mem_renameIn.mp hin with ⟨hin, -⟩ | ⟨heq, -⟩
    · exact hhead hin
    · exact hne heq
  rw [filter_ne_eq_self hnot, filter_renameIn htail]

/-- The phi functions at the target get the arguments for the edge under its new handle. -/
theorem map_dropArg_bypassedPhis {ps : Phis}
    (htail : ∀ name p, ps.get? name = some p → p.arg? tail = none)
    (hnew : ∀ name p, ps.get? name = some p → p.arg? new = none) (hne : new ≠ tail) (head : EdgeId)
    (others : List EdgeId) :
    Phis.map (·.dropArg tail)
        (bypassedPhis (ps.map (·.moveArg e tail)) .empty tail [(head, new)] others) =
      ps.map (·.moveArg e new) := by
  have hnone : ∀ name, (.empty : Phis).get? name = none := fun _ => rfl
  refine OrdMap.ext_get? fun name => ?_
  simp only [Phis.map, OrdMap.get?_mapValues, get?_bypassedPhis, hnone, Option.map_none,
    Option.or_none]
  cases hp : ps.get? name with
  | none => rfl
  | some p =>
    simp only [Option.map_some]
    rw [Phi.dropArg_mergedPhi (htail name p hp) (hnew name p hp) hne]

end

/-! ### A block with one edge into it -/

variable {g : Graph}

section
variable {x s a : BlockId} {link o : EdgeId} {d : Direction} {old succ : Block}

theorem redirectAll_singleton (ho : g.edge? o = some ⟨a, x, d⟩) :
    g.redirectAll s [o] = ([(o, g.headOf)], (g.redirect o ⟨a, x, d⟩ s).2) := by
  rw [redirectAll, ho]
  rfl

theorem Listed.edge?_removeBlock (hg : g.Listed) (hx : g.block? x = some old) (e : EdgeId) :
    (g.removeBlock x).edge? e = if e ∈ old.preds ++ old.succs then none else g.edge? e := by
  obtain ⟨-, -, hedge, -⟩ := hg.foldl_removeEdge (old.preds ++ old.succs)
  rw [Graph.removeBlock, hx]
  exact hedge e

variable (hx : g.EmptyBefore x s link old succ) (hpreds : old.preds = [o])
  (ho : g.edge? o = some ⟨a, x, d⟩)
include hx hpreds ho

theorem EmptyBefore.block?_detour {c : BlockId} (hc : c ≠ x) :
    (g.detour x s link old succ).block? c = (g.block? c).map fun block =>
      if c = s then passOn old link [(o, g.headOf)] (succ.preds.filter (· ≠ link))
        (block.reroute o g.headOf true)
      else block.reroute o g.headOf false := by
  rw [detour, hpreds, redirectAll_singleton ho, block?_modifyBlock, block?_forget_of_ne hc,
    hx.wellFormed.listed.block?_redirect ho]
  by_cases hcs : c = s
  · rw [if_pos hcs, Option.map_map]
    simp only [hcs, decide_true, if_true]
    rfl
  · simp only [hcs, if_false, decide_false]

/-- Before it is removed, the block has its way out only. -/
theorem EmptyBefore.exists_block?_detour :
    ∃ block, (g.detour x s link old succ).block? x = some block ∧
      block.preds ++ block.succs = [link] := by
  have hd : old.kind.directions = [.always] := by rw [hx.empty]; rfl
  have hsuccs : old.succs = [link] := hx.wellFormed.succs_eq hx.block_eq hd hx.link_eq
  have hne : link ≠ o := (hx.ne_link ho (hx.source_ne ho)).symm
  have hredirected : (g.redirect o ⟨a, x, d⟩ s).2.block? x =
      some (old.reroute o g.headOf false) := by
    rw [hx.wellFormed.listed.block?_redirect ho, hx.block_eq, Option.map_some,
      decide_eq_false hx.ne.symm]
  refine ⟨{ old.reroute o g.headOf false with phis := .empty }, ?_, ?_⟩
  · rw [detour, hpreds, redirectAll_singleton ho, block?_modifyBlock, if_neg hx.ne.symm]
    exact block?_forget_self hredirected
  · simp [Block.reroute, hpreds, hsuccs, renameIn, hne]

theorem EmptyBefore.name_leadPast_of_single : (g.leadPast x s link old succ).name = g.name := by
  have hkeeps := hx.wellFormed_detour.listed.keepsOrder_removeBlock x
  have hdetour : (g.detour x s link old succ).name = (g.redirectAll s old.preds).2.name := rfl
  have hredirect : (g.redirect o ⟨a, x, d⟩ s).2.name = g.name := rfl
  rw [leadPast_eq hx.ne, hkeeps.name_eq, hdetour, hpreds, redirectAll_singleton ho, hredirect]

/-- **A block with one edge into it is taken out**: the edges. -/
theorem EmptyBefore.edge?_leadPast_of_single (e : EdgeId) :
    (g.leadPast x s link old succ).edge? e =
      if e = link ∨ e = o then none else if e = g.headOf then some ⟨a, s, d⟩ else g.edge? e := by
  obtain ⟨block, hblock, hmentions⟩ := hx.exists_block?_detour hpreds ho
  have hedge : (g.detour x s link old succ).edge? e = if e = o then none
      else if e = g.headOf then some ⟨a, s, d⟩ else g.edge? e := by
    rw [detour, hpreds, redirectAll_singleton ho, edge?_modifyBlock, edge?_forget, redirect]
    simp only [edge?_clearEdge, edge?_modifyBlock, edge?_addUnlistedEdge]
    rfl
  rw [leadPast_eq hx.ne, hx.wellFormed_detour.listed.edge?_removeBlock hblock, hmentions, hedge]
  by_cases hl : e = link <;> simp [hl]

/-- **A block with one edge into it is taken out**: the blocks that are left. -/
theorem EmptyBefore.block?_leadPast_of_single (c : BlockId) :
    (g.leadPast x s link old succ).block? c = if c = x then none else (g.block? c).map fun block =>
      (if c = s then passOn old link [(o, g.headOf)] (succ.preds.filter (· ≠ link))
        (block.reroute o g.headOf true)
      else block.reroute o g.headOf false).without link := by
  obtain ⟨block, hblock, hmentions⟩ := hx.exists_block?_detour hpreds ho
  rw [leadPast_eq hx.ne, hx.wellFormed_detour.listed.block?_removeBlock hblock, hmentions]
  by_cases hc : c = x
  · rw [if_pos hc, if_pos hc]
  · rw [if_neg hc, if_neg hc, hx.block?_detour hpreds ho hc, Option.map_map]
    rfl

end

/-! ### Putting a block onto an edge -/

/-- The handle that an edge gets when a block on it is taken out again. -/
def renewedOf (g : Graph) : EdgeId := ⟨g.edges.size + 2⟩

theorem edge?_renewedOf (g : Graph) : g.edge? g.renewedOf = none :=
  edge?_of_le (Nat.le_add_right ..)

theorem renewedOf_ne_tailOf (g : Graph) : g.renewedOf ≠ g.tailOf := fun h =>
  Nat.succ_ne_self _ (congrArg EdgeId.slot h)

theorem renewedOf_ne_headOf (g : Graph) : g.renewedOf ≠ g.headOf := fun h => by
  have hslot : g.edges.size + 2 = g.edges.size := congrArg EdgeId.slot h
  omega

theorem headOf_splitEdge (g : Graph) (e : EdgeId) (edge : Edge) (k : Kind) :
    (g.splitEdge e edge k).graph.headOf = g.renewedOf := by
  simp [splitEdge, headOf, renewedOf, addUnlistedEdge, addBlock, modifyBlock, clearEdge]

/-- The empty block on an edge. -/
def stopover (g : Graph) : Block :=
  { id := g.nextBlock, kind := .empty, preds := [g.headOf], succs := [g.tailOf] }

section
variable {e : EdgeId} {edge : Edge}

theorem edge?_headOf_splitEdge (he : g.edge? e = some edge) :
    (g.splitEdge e edge .empty).graph.edge? g.headOf =
      some ⟨edge.source, g.nextBlock, edge.direction⟩ :=
  (edge?_splitEdge_eq_some he).mpr (.inr (.inl ⟨rfl, rfl⟩))

theorem WellFormed.emptyBefore_splitEdge (hg : g.WellFormed) (he : g.edge? e = some edge)
    {succ : Block} (hs : g.block? edge.target = some succ) :
    (g.splitEdge e edge .empty).graph.EmptyBefore g.nextBlock edge.target g.tailOf g.stopover
      (succ.resplit e g.headOf g.tailOf) where
  wellFormed := hg.splitEdge he rfl Kind.noConfusion
  block_eq := (hg.listed.block?_splitEdge_eq_some he).mpr (.inl ⟨rfl, rfl⟩)
  empty := rfl
  link_eq := (edge?_splitEdge_eq_some he).mpr (.inr (.inr ⟨rfl, rfl⟩))
  succ_eq := (hg.listed.block?_splitEdge_eq_some he).mpr (.inr ⟨succ, hs, rfl⟩)
  ne := ne_nextBlock hs

/-- The graph in which the edge is led past the block again. -/
def restored (g : Graph) (e : EdgeId) (edge : Edge) (succ : Block) : Graph :=
  (g.splitEdge e edge .empty).graph.leadPast g.nextBlock edge.target g.tailOf g.stopover
    (succ.resplit e g.headOf g.tailOf)

section
variable (hg : g.WellFormed) (he : g.edge? e = some edge) {succ : Block}
  (hs : g.block? edge.target = some succ)
include hg he hs

theorem WellFormed.edge?_restored (e' : EdgeId) : (g.restored e edge succ).edge? e' =
    if e' = g.renewedOf then some edge else if e' = e then none else g.edge? e' := by
  have htail := g.edge?_tailOf
  have hhead := g.edge?_headOf
  have hnew := g.edge?_renewedOf
  have hne := g.renewedOf_ne_tailOf
  have hne' := g.renewedOf_ne_headOf
  rw [restored, (hg.emptyBefore_splitEdge he hs).edge?_leadPast_of_single rfl
    (edge?_headOf_splitEdge he), headOf_splitEdge, edge?_splitEdge]
  cases edge
  grind

omit hs in
/-- What is done to a block on the way there and back. -/
theorem WellFormed.without_resplit {c : BlockId} {block : Block} (hb : g.block? c = some block)
    (others : List EdgeId) :
    (if c = edge.target then passOn g.stopover g.tailOf [(g.headOf, g.renewedOf)] others
        ((block.resplit e g.headOf g.tailOf).reroute g.headOf g.renewedOf true)
      else (block.resplit e g.headOf g.tailOf).reroute g.headOf g.renewedOf false).without
        g.tailOf =
      block.renew e g.renewedOf (c = edge.source) (c = edge.target) := by
  have hl := hg.listed
  have hfresh : ∀ {e'}, g.edge? e' = none → ∀ name p, block.phis.get? name = some p →
      p.arg? e' = none := fun he' name p hp =>
    Option.eq_none_iff_forall_ne_some.mpr fun v hv =>
      hl.notMem_preds hb he' (hl.args_enter hb hp hv)
  have hsuccs : (renameIn g.headOf g.renewedOf (renameIn e g.headOf block.succs)).filter
      (· ≠ g.tailOf) =
        if c = edge.source then renameIn e g.renewedOf block.succs else block.succs := by
    rw [filter_renameIn_renameIn (hl.notMem_succs hb g.edge?_headOf)
      (hl.notMem_succs hb g.edge?_tailOf) g.renewedOf_ne_tailOf]
    split
    · rfl
    · rename_i hne
      exact renameIn_eq_self fun hin => hne (hl.source_eq hb hin he).symm
  have hpreds := filter_filter_renameIn (e := e) (hl.notMem_preds hb g.edge?_headOf)
    (hl.notMem_preds hb g.edge?_tailOf) g.headOf_ne_tailOf
  by_cases hc : c = edge.target
  · have hphis := map_dropArg_bypassedPhis (e := e) (hfresh g.edge?_tailOf)
      (hfresh g.edge?_renewedOf) g.renewedOf_ne_tailOf g.headOf others
    have hlast : [g.renewedOf].filter (· ≠ g.tailOf) = [g.renewedOf] := by
      simp [g.renewedOf_ne_tailOf]
    simp only [hc, decide_true, if_true, Block.renew, Block.without, passOn, Block.reroute,
      Block.resplit, stopover, List.filter_append, hpreds, hlast, hphis]
    rw [← hc, hsuccs]
    simp only [decide_eq_true_eq]
  · -- The edge does not enter the block, so nothing was renamed among what does.
    have hnot : e ∉ block.preds := fun hin => hc (hl.target_eq hb hin he).symm
    have hphis : (block.phis.map (·.moveArg e g.tailOf)).map (·.dropArg g.tailOf) = block.phis := by
      rw [hl.map_moveArg hb hnot, hl.map_dropArg hb (hl.notMem_preds hb g.edge?_tailOf)]
    simp only [hc, decide_false, if_false, Bool.false_eq_true, Block.renew, Block.without,
      Block.reroute, Block.resplit, List.append_nil, hpreds, hphis, hsuccs,
      filter_ne_eq_self hnot, decide_eq_true_eq]

theorem WellFormed.block?_restored (c : BlockId) : (g.restored e edge succ).block? c =
    (g.block? c).map (Block.renew e g.renewedOf (c = edge.source) (c = edge.target)) := by
  rw [restored, (hg.emptyBefore_splitEdge he hs).block?_leadPast_of_single rfl
    (edge?_headOf_splitEdge he), headOf_splitEdge, hg.listed.block?_splitEdge he]
  by_cases hc : c = g.nextBlock
  · rw [if_pos hc, hc, nextBlock, block?_fresh]
    rfl
  · rw [if_neg hc, if_neg hc, Option.map_map]
    cases hb : g.block? c with
    | none => rfl
    | some block => exact congrArg some (hg.without_resplit he hb _)

/-- **Putting an empty block onto an edge and taking it out again** renews the edge. -/
theorem WellFormed.renewed_restored : Renewed g (g.restored e edge succ) e g.renewedOf edge where
  name_eq :=
    (hg.emptyBefore_splitEdge he hs).name_leadPast_of_single rfl (edge?_headOf_splitEdge he)
  fresh := Nat.le_add_right ..
  edge?_eq := hg.edge?_restored he hs
  block?_eq := hg.block?_restored he hs

theorem WellFormed.wellFormed_restored : (g.restored e edge succ).WellFormed := by
  have hx := hg.emptyBefore_splitEdge he hs
  exact (hx.wellFormed.takesOut_rerouted hx.block_eq hx.isTerminal_eq hx.link_eq hx.ne
    hx.succ_eq).wellFormed

/-- No phi function at the target becomes a copy, if there is none or if other edges enter it. -/
theorem WellFormed.outcome_bypass_splitEdge
    (hphis : succ.phis = .empty ∨ 2 ≤ succ.preds.length) :
    ((g.splitEdge e edge .empty).graph.bypass g.nextBlock).outcome =
      .ok (g.restored e edge succ) := by
  have hx := hg.emptyBefore_splitEdge he hs
  have hs' : (g.restored e edge succ).block? edge.target =
      some (succ.renew e g.renewedOf (edge.target = edge.source) true) := by
    rw [hg.block?_restored he hs, hs, Option.map_some,
      decide_eq_true (rfl : edge.target = edge.target)]
  rw [hx.outcome_bypass (List.cons_ne_nil _ _)]
  rcases hphis with hbare | hmany
  · refine simplifySolo_of_bare hs' ?_
    rw [Block.renew, if_pos rfl, hbare]
    rfl
  · refine simplifySolo_of_ne hs' fun e' heq => ?_
    have hnone : succ.preds.filter (· ≠ e) = [] := by
      have hlength := congrArg List.length heq
      simpa [Block.renew] using hlength
    have hall : succ.preds ⊆ [e] := fun e' he' => by
      simpa using List.filter_eq_nil_iff.mp hnone e' he'
    have hle := (List.subperm_of_subset (hg.listed.nodup_preds hs) hall).length_le
    exact absurd (Nat.le_trans hmany hle) (Nat.not_succ_le_self 1)

end

end

end Graph

/-- **Taking out an empty block that was put onto an edge undoes it.**  The edge, from whichever
block to whichever, gets a new handle; all else is as it was, provided that the target has no phi
functions or more than one edge enters it. -/
theorem Routine.replace_putOnEdge (r : Routine) (hg : r.graph.WellFormed) {e : EdgeId} {edge : Edge}
    (he : r.graph.edge? e = some edge) {succ : Block} (hs : r.graph.block? edge.target = some succ)
    (hphis : succ.phis = .empty ∨ 2 ≤ succ.preds.length) :
    ∃ n r₁ g' new, (r.putOnEdge e .empty).outcome = .ok (n, r₁) ∧
      (r₁.replace n []).outcome = .ok ([], r.withGraph g') ∧
      Graph.Renewed r.graph g' e new edge := by
  have hsplit : (r.graph.splitEdge e edge .empty).graph.WellFormed :=
    hg.splitEdge he rfl Kind.noConfusion
  refine ⟨r.graph.nextBlock, r.withGraph (r.graph.splitEdge e edge .empty).graph,
    r.graph.restored e edge succ, r.graph.renewedOf, ?_, ?_, hg.renewed_restored he hs⟩
  · rw [putOnEdge, Run.outcome_bind_of_ok (hg.listed.outcome_splice he rfl),
      Run.outcome_bind_of_ok (r.settle_spec hsplit)]
    rfl
  · have hbypass : ((r.withGraph (r.graph.splitEdge e edge .empty).graph).graph.bypass
        r.graph.nextBlock).outcome = .ok (r.graph.restored e edge succ) :=
      hg.outcome_bypass_splitEdge he hs hphis
    rw [replace, Run.outcome_bind_of_ok hbypass,
      Run.outcome_bind_of_ok (Routine.settle_spec _ (hg.wellFormed_restored he hs))]
    rfl

/-- A block that leads to itself and merges a variable. -/
def Graph.spinning : Graph where
  name := "spinning"
  blocks := #[
    some { id := ⟨0⟩, kind := .entry, succs := [⟨0⟩] },
    some { id := ⟨1⟩, kind := .exit, preds := [⟨4⟩] },
    some { id := ⟨2⟩, kind := .branch ⟨.plain "on", "", ""⟩
           phis := .ofList [("n", ⟨none, .ofList [(⟨0⟩, .plain "a"), (⟨1⟩, .plain "b"),
             (⟨3⟩, .plain "c")]⟩)]
           preds := [⟨0⟩, ⟨1⟩, ⟨3⟩], succs := [⟨1⟩, ⟨2⟩] },
    some { id := ⟨3⟩,
           kind := .branch ⟨.plain "back", "", ""⟩, preds := [⟨2⟩], succs := [⟨3⟩, ⟨4⟩] }]
  edges := #[some ⟨⟨0⟩, ⟨2⟩, .always⟩, some ⟨⟨2⟩, ⟨2⟩, .onTrue⟩, some ⟨⟨2⟩, ⟨3⟩, .onFalse⟩,
    some ⟨⟨3⟩, ⟨2⟩, .onTrue⟩, some ⟨⟨3⟩, ⟨1⟩, .onFalse⟩]

/-- The edge from the block to itself comes first on the one side and last on the other. -/
theorem Routine.replace_putOnEdge_spinning : Graph.spinning.WellFormed ∧
    ∃ n r₁ g' new, ((Routine.mk .spinning .new none none).putOnEdge ⟨1⟩ .empty).outcome =
        .ok (n, r₁) ∧
      (r₁.replace n []).outcome = .ok ([], Routine.mk g' .new none none) ∧
      g'.edge? new = some ⟨⟨2⟩, ⟨2⟩, .onTrue⟩ ∧
      (g'.block? ⟨2⟩).map (fun block => (block.preds, block.succs)) =
        some ([⟨0⟩, ⟨3⟩, new], [new, ⟨2⟩]) := by
  have hg : Graph.spinning.WellFormed := by decide
  obtain ⟨n, r₁, g', new, hput, htaken, hnew⟩ :=
    (Routine.mk .spinning .new none none).replace_putOnEdge hg (e := ⟨1⟩) rfl rfl (.inr (by decide))
  refine ⟨hg, n, r₁, g', new, hput, htaken, ?_, ?_⟩
  · rw [hnew.edge?_eq, if_pos rfl]
  · rw [hnew.block?_eq]
    rfl

end FlowGraph
