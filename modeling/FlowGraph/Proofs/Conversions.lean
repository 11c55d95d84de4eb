import FlowGraph.Proofs.Dominators
import FlowGraph.Proofs.Turns
import FlowGraph.Proofs.Upkeep

/-! # Conversions keep a graph sound

Both conversions can be asked of any graph, also of one with phi functions that were put there by
hand.  On the way into single assignment form the blocks are only changed in themselves (`Recasts`):
nothing fails but the check at the end, and that only if there were phi functions before.  On the
way out an argument of a phi function may be missing; apart from that nothing fails either, whatever
the phi functions are.
-/
namespace FlowGraph
namespace Graph

variable {g g' g'' : Graph}

/-- **A graph whose blocks have changed in themselves.** -/
structure Recasts (g g' : Graph) : Prop where
  wellFormed : g'.WellFormed
  outline : SameOutline g g'

namespace Recasts

theorem refl (hg : g.WellFormed) : Recasts g g := ⟨hg, .refl g⟩

theorem trans (h : Recasts g g') (h' : Recasts g' g'') : Recasts g g'' :=
  ⟨h'.wellFormed, h.outline.trans h'.outline⟩

theorem evolves (h : Recasts g g') : Evolves g g' := ⟨h.wellFormed, .of_outline h.outline⟩

theorem modifyBlock (hg : g.WellFormed) (b : BlockId) {f : Block → Block}
    (hout : ∀ block, (f block).outline = block.outline)
    (hkind : ∀ {block}, g.block? b = some block → (f block).kind.shape = block.kind.shape)
    (hargs : ∀ {block}, g.block? b = some block → ∀ {name p}, (f block).phis.get? name = some p →
      ∀ {e v}, p.arg? e = some v → e ∈ (f block).preds) : Recasts g (g.modifyBlock b f) :=
  ⟨hg.modifyBlock b hout hkind hargs, .modifyBlock g b hout⟩

end Recasts
end Graph

open FlowGraph.Graph (Recasts Evolves Maintains)

/-! ### Placing phi functions -/

namespace Ssa

variable {g : Graph} {bad : Fault → Prop} {d : Dominance} {w : Web}

section
variable (hlive : ∀ x, ∀ y ∈ d.frontierOf x, ∃ block, g.block? y = some block)

theorem recasts_addPhi {s : Nat × Graph} (h : Recasts g s.2) {y : BlockId}
    (hy : ∃ block, g.block? y = some block) (name : String) :
    (addPhi y s name).Ends (fun s' => Recasts g s'.2) bad := by
  obtain ⟨count, g'⟩ := s
  obtain ⟨block, hy⟩ := hy
  obtain ⟨block', hy', -⟩ := h.outline.symm.exists_block hy
  apply Run.Ends.bind_ok (Graph.block_eq_ok hy')
  split
  · exact .pure h
  · apply Run.Ends.report
    apply Run.Ends.pure
    refine h.trans (.modifyBlock h.wellFormed y (fun _ => rfl) (fun _ => rfl) ?_)
    intro block hb name' p hp e v hv
    rw [OrdMap.get?_insert] at hp
    split at hp
    · cases hp
      cases hv
    · exact h.wellFormed.listed.args_enter hb hp hv

/-- **A placement under way**: the blocks that are left to look at are in use. -/
def RecastsPending (g : Graph) (s : Placing) : Prop :=
  Recasts g s.graph ∧ ∀ x ∈ s.pending, ∃ block, g.block? x = some block

theorem recasts_placeOn {s : Placing} (h : RecastsPending g s) (names : List String) {y : BlockId}
    (hy : ∃ block, g.block? y = some block) : (placeOn names s y).Ends (RecastsPending g) bad := by
  have hadd : (addPhis y names s.graph).Ends (fun s' => Recasts g s'.2) bad :=
    .foldlM (fun _ (s' : Nat × Graph) => Recasts g s'.2)
      (fun name _ s' hs' => recasts_addPhi hs' hy name) h.1
  refine hadd.bind fun s' h' => .pure ⟨h', fun x hx => ?_⟩
  dsimp only at hx
  split at hx
  · exact h.2 x hx
  · rcases List.mem_append.mp hx with hx | hx
    · exact h.2 x hx
    · exact List.mem_singleton.mp hx ▸ hy

include hlive

theorem recasts_placeAt {s : Placing} (h : RecastsPending g s) {x : BlockId}
    (hx : ∃ block, g.block? x = some block) :
    (placeAt d w x s).Ends (RecastsPending g) bad := by
  obtain ⟨block, hx⟩ := hx
  obtain ⟨block', hx', -⟩ := h.1.outline.symm.exists_block hx
  apply Run.Ends.bind_ok (Dominance.frontierIn_of_live hx')
  refine .imp (.foldlM (fun ys s' => RecastsPending g s' ∧
    ∀ y ∈ ys, ∃ block, g.block? y = some block) ?_ ⟨h, hlive x⟩) (fun _ h' => h'.1) fun _ hf => hf
  rintro y ys s' ⟨h', hys⟩
  obtain ⟨hy, hys⟩ := List.forall_mem_cons.mp hys
  exact (recasts_placeOn h' _ hy).imp (fun _ h'' => ⟨h'', hys⟩) fun _ hf => hf

theorem recasts_placeAll (fuel : Nat) {s : Placing} (h : RecastsPending g s) :
    (placeAll d w fuel s).Ends (fun s' => Recasts g s'.2) bad := by
  induction fuel generalizing s with
  | zero => exact .pure h.1
  | succ fuel ih =>
    rw [placeAll]
    split
    · exact .pure h.1
    · rename_i x rest hpending
      obtain ⟨hrecasts, hpending_live⟩ := h
      rw [hpending, List.forall_mem_cons] at hpending_live
      have hrest : RecastsPending g { s with pending := rest } := ⟨hrecasts, hpending_live.2⟩
      exact (recasts_placeAt hlive hrest hpending_live.1).bind fun _ h' => ih h'

end

/-- **Placing phi functions** never fails. -/
theorem recasts_place (hg : g.WellFormed) (hd : d.Describes g) :
    (place d w g).Ends (fun s => Recasts g s.2) bad := by
  obtain ⟨order, horder, hmem, -⟩ := hg.topDown_spec
  unfold place
  apply Run.Ends.bind_ok horder
  exact recasts_placeAll (hd.frontierOf_live hg) _ ⟨.refl hg, fun x hx => (hmem x).mp hx⟩

/-! ### Renaming -/

theorem recasts_fillArgs (hg : g.WellFormed) (env : Versions) (es : List EdgeId) :
    Recasts g (es.foldl (fillArgs env) g) := by
  induction es generalizing g with
  | nil => exact .refl hg
  | cons e es ih =>
    have hone : Recasts g (fillArgs env g e) := by
      unfold fillArgs
      split
      · exact .refl hg
      · rename_i edge he
        refine .modifyBlock hg edge.target (fun _ => rfl) (fun _ => rfl) ?_
        intro block hb name p' hp' e' v hv
        simp only [OrdMap.get?_mapValues, Option.map_eq_some_iff] at hp'
        obtain ⟨p, hp, rfl⟩ := hp'
        rw [Phi.arg?_setArg] at hv
        split at hv
        · rename_i heq
          exact (hg.listed.mem_preds hb e').mpr ⟨edge, heq ▸ he, rfl⟩
        · exact hg.listed.args_enter hb hp hv
    exact hone.trans (ih hone.wellFormed)

/-- A stop changes blocks in themselves only. -/
theorem Stop.Renames.recasts {a : Stop} {block : Block} {s s' : NameSupply × Graph}
    (h : a.Renames block s s') (hg : s.2.WellFormed) : Recasts s.2 s'.2 := by
  have hrenamed : Recasts s.2 (s.2.modifyBlock a.block a.renamed) := by
    refine .modifyBlock hg a.block (fun _ => rfl)
      (fun _ => Kind.shape_of_name (Kind.name_rename _)) ?_
    intro block hb name p' hp' e v hv
    simp only [Stop.renamed, OrdMap.get?_mapValues, Option.map_eq_some_iff] at hp'
    obtain ⟨p, hp, rfl⟩ := hp'
    exact hg.listed.args_enter hb hp hv
  rw [h.graph_eq]
  exact hrenamed.trans (recasts_fillArgs hrenamed.wellFormed ..)

theorem Trek.recasts {s s' : NameSupply × Graph} {stops : List Stop} (h : Trek s stops s')
    (hg : s.2.WellFormed) : Recasts s.2 s'.2 := by
  induction h with
  | nil => exact .refl hg
  | cons ha _ ih =>
    have hone := ha.recasts hg
    exact hone.trans (ih hone.wellFormed)

/-- **Renaming** never fails. -/
theorem recasts_rename (hg : g.WellFormed) (hd : d.Describes g) (names : NameSupply) {g' : Graph}
    (h : Recasts g g') : (rename d names g').Ends (fun s => Recasts g s.2) bad := by
  obtain ⟨stops, s', hok, htrek, -⟩ := rename_spec hg hd names h.outline
  exact .of_ok hok (h.trans (htrek.recasts h.wellFormed))

end Ssa

/-! ### Into single assignment form -/

/-- The check for versions names a variable that has none. -/
theorem Graph.checkVersions_error {g : Graph} {v : Violation} (h : g.checkVersions = .error v) :
    ∃ b block x, g.block? b = some block ∧ x ∈ block.occurrences ∧ x.isVersioned = false ∧
      v = .missingVersion block.id x := by
  obtain ⟨block, hblock, h⟩ := Graph.forM_eq_error h
  obtain ⟨x, hx, h⟩ := Graph.forM_eq_error h
  obtain ⟨b, hb⟩ := mem_liveBlocks.mp hblock
  refine ⟨b, block, x, hb, hx, ?_⟩
  cases hver : x.isVersioned with
  | true => rw [hver] at h; cases h
  | false => rw [hver] at h; cases h; exact ⟨rfl, rfl⟩

/-- **What was derived from the graph is not out of date.** -/
structure Routine.Fresh (r : Routine) : Prop where
  dominance : ∀ d, r.dominance = some d → Dominance.ofGraph r.graph = .ok d
  web : ∀ w, r.web = some w → w = Web.ofGraph r.graph

namespace Routine

variable {bad : Fault → Prop}

/-- **Removing unreachable blocks.** -/
theorem ends_prune (r : Routine) (hg : r.graph.WellFormed) :
    r.prune.Ends (fun r' => Evolves r.graph r'.graph) bad := by
  refine hg.ends_prune.bind ?_
  rintro ⟨count, g⟩ ⟨-, h⟩
  dsimp only
  split
  · exact .of_ok (r.settle_spec h.wellFormed) h.evolves
  · exact .pure (.refl hg)

/-- **Conversion into single assignment form** fails for want of a version only.  It derives the
dominators before it places phi functions, and the web when all is done. -/
theorem ends_toSsa (r : Routine) (hg : r.graph.WellFormed)
    (hmissing : ∀ {g b block v}, g.block? b = some block → v ∈ block.occurrences →
      v.isVersioned = false → bad (.notInSsa g (.missingVersion b v))) :
    r.toSsa.Ends (fun r' => Evolves r.graph r'.graph ∧ r'.Fresh) bad := by
  refine (r.ends_prune hg).bind fun r₁ h₁ => ?_
  obtain ⟨d, hd, hdescribes⟩ := Dominance.ofGraph_spec h₁.wellFormed
  have hdom : r₁.refreshDominance.Ends (· = (d, { r₁ with dominance := some d })) bad :=
    .of_ok (refreshDominance_eq hd) rfl
  refine hdom.bind ?_
  rintro _ rfl
  have hweb : (buildWeb r₁.graph).Ends (fun _ => True) bad := .of_ok rfl trivial
  refine hweb.bind fun w _ => ?_
  refine (Ssa.recasts_place h₁.wellFormed hdescribes).bind fun s h₂ => ?_
  apply Run.Ends.report
  refine (Ssa.recasts_rename h₁.wellFormed hdescribes _ h₂).bind ?_
  rintro ⟨names, g⟩ h₃
  cases hversions : g.checkVersions with
  | error v =>
    obtain ⟨b, block, x, hb, hx, hver, rfl⟩ := Graph.checkVersions_error hversions
    simp only [hversions]
    exact .fail (h₃.wellFormed.listed.id_eq hb ▸ hmissing hb hx hver)
  | ok u =>
    simp only [hversions]
    apply Run.Ends.bind_ok h₃.wellFormed.wired.demandConsistent
    refine .of_ok rfl ⟨h₁.trans h₃.evolves, fun d' hd' => ?_, fun w hw => (Option.some.inj hw).symm⟩
    obtain rfl : d = d' := Option.some.inj hd'
    exact (Dominance.ofGraph_of_outline h₃.outline).trans hd

end Routine

/-! ### Out of single assignment form -/

namespace Ssa

variable {g : Graph} {bad : Fault → Prop}

/-- **Copies onto an edge.** -/
theorem ends_spliceCopies (hg : g.WellFormed) {e : EdgeId} {edge : Edge}
    (he : g.edge? e = some edge) (cs : List Copy) :
    (spliceCopies e cs g).Ends (fun g' => g.Follows g' ∧ g.CopiesOnto e g') bad := by
  obtain ⟨tail, g', hok, honto, -⟩ := foldlM_spliceNext hg he e cs
  have hgrows : (cs.foldlM (spliceNext e) (e, g)).Ends (fun s => g.Follows s.2) bad := by
    refine .imp (.foldlM
      (fun _ (s : EdgeId × Graph) => g.Grows s.2 ∧ ∃ edge, s.2.edge? s.1 = some edge)
      ?_ ⟨.refl hg, edge, he⟩) (fun _ h => h.1.follows) fun _ h => h
    rintro c rest ⟨e', g'⟩ ⟨hgrows, edge', he'⟩
    apply Run.Ends.report
    apply hgrows.wellFormed.listed.ends_spliceCopy he'
    exact ⟨hgrows.trans (.splitEdge hgrows.wellFormed he' rfl), _,
      (Graph.edge?_splitEdge_eq_some he').mpr (.inr (.inr ⟨rfl, rfl⟩))⟩
  have hput : (spliceCopies e cs g).outcome = .ok g' := Run.outcome_bind_of_ok hok _
  exact .of_ok hput ⟨hgrows.ok hok, honto⟩

/-- **One edge**: copies are put onto it, unless a phi function has no argument for it. -/
theorem ends_leaveEdge {s : Leaving} (hg : s.graph.WellFormed) {e : EdgeId} {edge : Edge}
    (he : s.graph.edge? e = some edge) {b : BlockId} {ps : Phis}
    (hmissing : ∀ {name p}, ps.get? name = some p → p.arg? e = none →
      bad (.missingPhiArg (Phis.lhs name p) p b e)) :
    (leaveEdge b ps s e).Ends
      (fun s' => s.graph.Follows s'.graph ∧ s.graph.CopiesOnto e s'.graph) bad := by
  rw [leaveEdge]
  rcases copiesOn_cases b ps e with hcopies | ⟨name, p, hp, hnone, herr⟩
  · apply Run.Ends.bind_ok hcopies
    obtain ⟨sched, hsched⟩ := exists_schedule (ps.nodup_copiesFor e) s.names
    apply Run.Ends.bind_ok hsched
    exact (ends_spliceCopies hg he sched.1).bind fun g' h => .pure h
  · exact .bind_error herr (hmissing hp hnone)

/-- **The state of the conversion** of `g` in front of the blocks `todo`: they have their phi
functions and their incoming edges as in `g`. -/
structure Awaits (g : Graph) (todo : List BlockId) (s : Leaving) : Prop where
  wellFormed : s.graph.WellFormed
  follows : g.Follows s.graph
  block?_eq : ∀ b ∈ todo, ∀ {block}, g.block? b = some block →
    ∃ block', s.graph.block? b = some block' ∧ block'.phis = block.phis ∧ block'.preds = block.preds

/-- Several edges that enter a block. -/
theorem Awaits.ends_leaveEdges {todo : List BlockId} {s : Leaving} (h : Awaits g todo s)
    {b : BlockId} (hb : b ∉ todo) {ps : Phis} {es : List EdgeId} (hnodup : es.Nodup)
    (hes : ∀ e ∈ es, ∃ edge, s.graph.edge? e = some edge ∧ edge.target = b)
    (hmissing : ∀ e ∈ es, ∀ {name p}, ps.get? name = some p → p.arg? e = none →
      bad (.missingPhiArg (Phis.lhs name p) p b e)) :
    (es.foldlM (leaveEdge b ps) s).Ends (Awaits g todo) bad := by
  induction es generalizing s with
  | nil => exact .pure h
  | cons e es ih =>
    obtain ⟨⟨edge, he, htarget⟩, hrest⟩ := List.forall_mem_cons.mp hes
    obtain ⟨hnot, hnodup⟩ := List.nodup_cons.mp hnodup
    obtain ⟨hmissinge, hmissing⟩ := List.forall_mem_cons.mp hmissing
    rw [List.foldlM_cons]
    refine (ends_leaveEdge h.wellFormed he hmissinge).bind fun s' ⟨hfollows, honto⟩ => ?_
    refine ih ⟨honto.wellFormed, h.follows.trans hfollows, ?_⟩ hnodup ?_ hmissing
    · -- the copies stand between `b` and what leads to it, so no block of `todo` notices
      intro c hc block hgc
      obtain ⟨block₁, hc₁, hphis, hpreds⟩ := h.block?_eq c hc hgc
      obtain ⟨block₂, hc₂, -, -, hsame⟩ := honto.block?_of_live hc₁
      have hout : e ∉ block₁.preds := fun hin => by
        have htc := h.wellFormed.listed.target_eq hc₁ hin he
        exact hb (htarget ▸ htc ▸ hc)
      exact ⟨block₂, hc₂, (hsame hout).2.trans hphis, (hsame hout).1.trans hpreds⟩
    · intro e' he'
      obtain ⟨edge', hedge', ht'⟩ := hrest e' he'
      exact ⟨edge', honto.edge?_of_ne (fun heq => hnot (heq ▸ he')) hedge', ht'⟩

/-- **One block.** -/
theorem Awaits.ends_leaveBlock {b : BlockId} {todo : List BlockId} {s : Leaving}
    (h : Awaits g (b :: todo) s) (hb : b ∉ todo) {block : Block} (hlive : g.block? b = some block)
    (hmissing : ∀ e ∈ block.preds, ∀ {name p}, block.phis.get? name = some p → p.arg? e = none →
      bad (.missingPhiArg (Phis.lhs name p) p b e)) :
    (leaveBlock s b).Ends (Awaits g todo) bad := by
  obtain ⟨block', hb', hphis, hpreds⟩ := h.block?_eq b (List.mem_cons_self ..) hlive
  have hrest : Awaits g todo s :=
    ⟨h.wellFormed, h.follows, fun c hc => h.block?_eq c (List.mem_cons_of_mem _ hc)⟩
  rw [leaveBlock]
  apply Run.Ends.bind_ok (Graph.block_eq_ok hb')
  split
  · exact .pure hrest
  · rw [hphis, hpreds]
    have hforget := Graph.Grows.forget h.wellFormed b
    refine Awaits.ends_leaveEdges ⟨hforget.wellFormed, h.follows.trans hforget.follows, ?_⟩ hb
      (hpreds ▸ h.wellFormed.listed.nodup_preds hb') ?_ hmissing
    · intro c hc block₁ hc₁
      obtain ⟨block₂, hc₂, hsame⟩ := hrest.block?_eq c hc hc₁
      have hne : c ≠ b := fun heq => hb (heq ▸ hc)
      refine ⟨block₂, ?_, hsame⟩
      rw [Graph.block?_modifyBlock, if_neg hne, hc₂]
    · intro e he
      exact (h.wellFormed.listed.mem_preds hb' e).mp (hpreds ▸ he)

/-- **Leaving single assignment form** fails for want of an argument only. -/
theorem ends_leave (hg : g.WellFormed) (names : NameSupply)
    (hmissing : ∀ {b block}, g.block? b = some block → ∀ e ∈ block.preds, ∀ {name p},
      block.phis.get? name = some p → p.arg? e = none →
        bad (.missingPhiArg (Phis.lhs name p) p b e)) :
    (leave names g).Ends (fun s => Evolves g s.2) bad := by
  rw [leave]
  refine Run.Ends.bind (.foldlM (fun todo (s : Leaving) => todo.Nodup ∧
    (∀ b ∈ todo, ∃ block, g.block? b = some block) ∧ Awaits g todo s) ?_ ?_)
    fun s h => .report (.pure ⟨h.2.2.wellFormed, h.2.2.follows⟩)
  · rintro b todo s ⟨hnodup, hlive, h⟩
    obtain ⟨hnot, hnodup⟩ := List.nodup_cons.mp hnodup
    obtain ⟨⟨block, hb⟩, hlive⟩ := List.forall_mem_cons.mp hlive
    exact (h.ends_leaveBlock hnot hb (hmissing hb)).imp (fun _ h' => ⟨hnodup, hlive, h'⟩)
      fun _ hf => hf
  · exact ⟨hg.listed.nodup_blockIds, fun b hb => hg.listed.mem_blockIds.mp hb, hg, .refl g,
      fun b _ block hb => ⟨block, hb, rfl, rfl⟩⟩

end Ssa

/-- **Conversion out of single assignment form.** -/
theorem Routine.ends_outOfSsa {bad : Fault → Prop} (r : Routine) (hg : r.graph.WellFormed)
    (hmissing : ∀ {b block}, r.graph.block? b = some block → ∀ e ∈ block.preds, ∀ {name p},
      block.phis.get? name = some p → p.arg? e = none →
        bad (.missingPhiArg (Phis.lhs name p) p b e)) :
    r.outOfSsa.Ends (fun r' => Evolves r.graph r'.graph) bad := by
  refine (Ssa.ends_leave hg r.names hmissing).bind ?_
  rintro ⟨names, g⟩ h
  exact .of_ok ({ r with names : Routine }.settle_spec h.wellFormed) h

end FlowGraph
