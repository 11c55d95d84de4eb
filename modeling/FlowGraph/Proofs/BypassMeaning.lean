import FlowGraph.Proofs.SteppingOver

/-! # What taking an empty block out means

The walk of a graph from which an empty block is taken out visits the same blocks but this one, in
the same order, and reads the same values there, as long as the block's successor can look for the
block's phi functions by base name.
-/
namespace FlowGraph

namespace Graph

section
variable {V : Type} {I : Interpretation V} {g g' : Graph} {x s : BlockId} {link : EdgeId}
  {old succ : Block}

/-- **Two visits abreast**: outside of the block taken out, they differ in superseded variables at
most. -/
structure Abreast (g : Graph) (x s : BlockId) (u u' : Visit V) : Prop where
  same : u.SameBut (g.Superseded x s) u'
  ne : u.block ≠ x
  reachable : g.Reachable u.block

/-- On an edge that stays no superseded variable is read. -/
theorem HandsOn.source_kept (h : g.HandsOn x s link) {e : EdgeId} {a t : BlockId} {d : Direction}
    (he : g.edge? e = some ⟨a, t, d⟩) (hne : e ≠ link) (ha : g.Reachable a) {v : Var}
    (hv : ¬ g.Superseded x s v) : ¬ g.Superseded x s (g.source t e v) := by
  cases hw : g.given t e v with
  | none => rwa [source, hw, Option.getD_none]
  | some w =>
    rw [source, hw, Option.getD_some]
    exact h.untaken ha he hne hw

/-- Nor is one on the way through the block, whose phi functions have an argument for each edge. -/
theorem HandsOn.source_passed (h : g.HandsOn x s link) (hx : g.EmptyBefore x s link old succ)
    (hc : g.PhisComplete) {e : EdgeId} {a : BlockId} {d : Direction}
    (he : g.edge? e = some ⟨a, x, d⟩) (ha : g.Reachable a) (v : Var) :
    ¬ g.Superseded x s (g.source x e v) := by
  have hne := hx.ne_link he (hx.source_ne he)
  by_cases hv : g.Superseded x s v
  · obtain ⟨-, q, hq, hlhs⟩ := hv
    have hq' : old.phis.get? v.name = some q := (phi?_of_block? hx.block_eq _).symm.trans hq
    obtain ⟨w, hw⟩ := hc hx.block_eq hq' e
      ((hx.wellFormed.listed.mem_preds hx.block_eq e).mpr ⟨_, he, rfl⟩)
    have hgiven : g.given x e v = some w :=
      (given_of_block? hx.block_eq e v).trans ((Phis.given_of_lhs hq' hlhs).trans hw)
    rw [source, hgiven, Option.getD_some]
    exact h.untaken ha he hne hgiven
  · exact h.source_kept he hne ha hv

/-- Visits abreast read the same. -/
theorem Abreast.reads_eq {u u' : Visit V} (hu : g.Abreast x s u u') (h : StepsOver g g' x s link)
    (hg : g.WellFormed) (hhands : g.HandsOn x s link) : g'.reads u' = g.reads u := by
  obtain ⟨block, hb⟩ := hg.live_of_reachable hu.reachable
  have hk := kind?_of_block? hb
  rw [reads, reads, hu.same.block_eq, hk, h.kind?_of_ne hu.ne hk]
  exact List.map_congr_left fun v hv => hu.same.store_eq v (hhands.unread hu.reachable hk hv)

/-- A walk through the block performs the phi functions of both blocks. -/
theorem EmptyBefore.advance_through (hx : g.EmptyBefore x s link old succ) {a : BlockId} {k : Kind}
    {m : Memory V} {e : EdgeId} (hk : g.kind? a = some k)
    (he : g.edge? e = some ⟨a, x, k.way I m.store⟩) :
    ∃ m₁ σ, g.advance I ⟨a, m⟩ = some ⟨x, m₁⟩ ∧
      g.advance I ⟨x, m₁⟩ = some ⟨s, σ, (k.perform I m).shown⟩ ∧
      ∀ v, σ v = (k.perform I m).store (g.source x e (g.source s link v)) := by
  refine ⟨_, _, hx.wellFormed.advance_eq hk he,
    hx.wellFormed.advance_eq hx.kind?_eq hx.link_eq, fun v => ?_⟩
  rw [atOnce_phiCopies hx.link_eq]
  exact atOnce_phiCopies he ..

section
variable (h : StepsOver g g' x s link) (hx : g.EmptyBefore x s link old succ) (hc : g.PhisComplete)
  (hhands : g.HandsOn x s link)
include h hx hc hhands

/-- **From visits abreast** both walks get to visits abreast again, or end. -/
theorem StepsOver.advance {u u' : Visit V} (hu : g.Abreast x s u u') :
    g.advance I u = none ∧ g'.advance I u' = none ∨
      ∃ j n w w', steps (g.advance I) (j + 1) u = some w ∧
        steps (g'.advance I) (n + 1) u' = some w' ∧ g.Abreast x s w w' ∧
        (∀ i, 0 < i → i < j + 1 → ∀ {y}, steps (g.advance I) i u = some y → y.block = x) ∧
        ∀ i, 0 < i → i < n + 1 → ∀ {y}, steps (g'.advance I) i u' = some y →
          g.kind? y.block = none := by
  have hg := hx.wellFormed
  obtain ⟨block, hb⟩ := hg.live_of_reachable hu.reachable
  have hk := kind?_of_block? hb
  obtain ⟨b, m⟩ := u
  obtain ⟨b', m'⟩ := u'
  obtain rfl : b' = b := hu.same.block_eq
  obtain ⟨hway, hshown, hstore⟩ := block.kind.perform_congr (I := I) hu.same.shown_eq
    fun v hv => hu.same.store_eq v (hhands.unread hu.reachable hk hv)
  have hk' := h.kind?_of_ne hu.ne hk
  by_cases hexit : block.kind = .exit
  · have hb' : b' = exit := hg.exit_only (hexit ▸ hk)
    exact .inl ⟨hg.advanceBy_eq_none_iff.mpr (.inr hb'),
      h.wellFormed.advanceBy_eq_none_iff.mpr (.inr hb')⟩
  obtain ⟨e, t, he⟩ := (hg.wired.ways hk hexit _).mpr (Kind.way_mem_directions I m.store hexit)
  have hreach : g.Reachable t := hu.reachable.step ⟨e, _, he⟩
  right
  by_cases ht : t = x
  · -- one walk passes through the block, the other through the copies if there are any
    subst ht
    obtain ⟨m₁, σ₁, hfirst, hsecond, hσ₁⟩ := hx.advance_through hk he
    obtain ⟨n, σ, hn, hσ, hinner⟩ := h.past he hk hway
    have hone : steps (g.advance I) 1 ⟨b', m⟩ = some ⟨t, m₁⟩ := by
      rw [steps_succ, hfirst]
      rfl
    refine ⟨1, n, ⟨s, σ₁, _⟩, _, ?_, hn, ⟨⟨rfl, hshown, fun v hv => ?_⟩, hx.ne, ?_⟩, ?_, hinner⟩
    · rw [steps_add, hone, Option.bind_some, steps_succ, hsecond]
      rfl
    · have hpassed := hhands.source_passed hx hc he hu.reachable (g.source s link v)
      exact (hσ v hv).trans ((hstore (hu.same.store_eq _ hpassed)).trans (hσ₁ v).symm)
    · exact hreach.step ⟨_, _, hx.link_eq⟩
    · intro i hpos hlt y hy
      obtain rfl : i = 1 := by omega
      rw [hone] at hy
      cases hy
      rfl
  · obtain ⟨he', hsource⟩ := h.kept he hu.ne ht
    rw [← hway] at he'
    refine ⟨0, 0, _, _, (steps_succ ..).trans (congrArg (Option.bind · _) (hg.advance_eq hk he)),
      (steps_succ ..).trans (congrArg (Option.bind · _) (h.wellFormed.advance_eq hk' he')),
      ⟨⟨rfl, hshown, fun v hv => ?_⟩, ht, hreach⟩, fun i hpos hlt => by omega,
      fun i hpos hlt => by omega⟩
    have hkept := hhands.source_kept he (hx.ne_link he hu.ne) hu.reachable hv
    simp only [atOnce_phiCopies he, atOnce_phiCopies he', hsource]
    exact hstore (hu.same.store_eq _ hkept)

/-- **Whole walks**, each at its own pace. -/
theorem StepsOver.exists_paces_walk (σ : Store V) : ∃ pace pace' : Nat → Nat,
    pace 0 = 0 ∧ pace' 0 = 0 ∧ StrictMono pace ∧ StrictMono pace' ∧
      (∀ n, Option.Rel (g.Abreast x s) (g.walk I σ (pace n)) (g'.walk I σ (pace' n))) ∧
      (∀ i, (∃ n, pace n = i) ∨ ∀ u, g.walk I σ i = some u → u.block = x) ∧
      ∀ i, (∃ n, pace' n = i) ∨ ∀ u, g'.walk I σ i = some u → g.kind? u.block = none := by
  refine exists_paces (fun n m => Option.Rel (g.Abreast x s) (g.walk I σ n) (g'.walk I σ m)) _ _
    (.some ⟨⟨rfl, rfl, fun _ _ => rfl⟩, hx.ne_entry.symm, .entry⟩) fun {n m} hnm => ?_
  generalize hw : g.walk I σ n = wn at hnm
  generalize hw' : g'.walk I σ m = wm at hnm
  have hend : wn.bind (g.advance I) = none → wm.bind (g'.advance I) = none →
      Option.Rel (g.Abreast x s) (g.walk I σ (n + 1))
      (g'.walk I σ (m + 1)) := fun hnone hnone' => by
    rw [walk, walk, hw, hw', hnone, hnone']
    exact .none
  cases hnm with
  | none =>
    exact ⟨n + 1, m + 1, n.lt_succ_self, m.lt_succ_self, hend rfl rfl, fun i h₁ h₂ => by omega,
      fun i h₁ h₂ => by omega⟩
  | @some u u' hu =>
    rcases h.advance (I := I) hx hc hhands hu with
      ⟨hnone, hnone'⟩ | ⟨j, k, w, w', hsteps, hsteps', hw₁, hinner, hinner'⟩
    · exact ⟨n + 1, m + 1, n.lt_succ_self, m.lt_succ_self, hend hnone hnone',
        fun i h₁ h₂ => by omega, fun i h₁ h₂ => by omega⟩
    · refine ⟨n + (j + 1), m + (k + 1), Nat.lt_add_of_pos_right (Nat.succ_pos j),
        Nat.lt_add_of_pos_right (Nat.succ_pos k), ?_, walk_between hw hinner,
        walk_between hw' hinner'⟩
      rw [walk_add, walk_add, hw, hw', Option.bind_some, Option.bind_some, hsteps, hsteps']
      exact .some hw₁

end
end

/-! ### Conditions that can be checked -/

instance (g : Graph) (b s : BlockId) (v : Var) : Decidable (g.Superseded b s v) :=
  inferInstanceAs (Decidable (_ ∧ ∃ p ∈ g.phi? b v.name, Phis.lhs v.name p = v))

/-- It is enough that base names agree on the link, and that no other edge and no block in use takes
a superseded variable. -/
theorem Listed.handsOn_of_forall {g : Graph} (hg : g.Listed) {b s : BlockId} {link : EdgeId}
    (hlink : g.edge? link = some ⟨b, s, .always⟩)
    (hname : ∀ c ∈ g.phiCopies link, ∀ p ∈ g.phi? b c.src.name, Phis.lhs c.src.name p = c.src →
      c.src.name = c.dst.name)
    (hunread : ∀ block ∈ g.liveBlocks, ∀ v ∈ block.kind.uses, ¬ g.Superseded b s v)
    (huntaken : ∀ block ∈ g.liveBlocks, ∀ e ∈ block.preds, e ≠ link →
      ∀ c ∈ block.phis.copiesFor e, ¬ g.Superseded b s c.src) : g.HandsOn b s link where
  by_name {v w p} hw hp hlhs := by
    obtain ⟨block, hb⟩ := hg.target_live hlink
    rw [given_of_block? hb, ← Phis.mem_copiesFor_iff_given, ← phiCopies_eq hlink hb] at hw
    exact .inl (hname _ hw p hp hlhs)
  unread _ hk hv := by
    obtain ⟨block, hb, rfl⟩ := block?_of_kind? hk
    exact hunread block (mem_liveBlocks.mpr ⟨_, hb⟩) _ hv
  untaken {e _ c _ v w} _ he hne hw := by
    obtain ⟨block, hb⟩ := hg.target_live he
    rw [given_of_block? hb, ← Phis.mem_copiesFor_iff_given] at hw
    have hin := (hg.mem_preds hb e).mpr ⟨_, he, rfl⟩
    exact huntaken block (mem_liveBlocks.mpr ⟨_, hb⟩) e hin hne _ hw

end Graph

/-- **Taking an empty block out keeps the meaning of a graph** in which every variable is defined at
most once and before its uses, if the successor finds the block's phi functions by base name.  The
walk of the result visits the same blocks in the same order, the block taken out and inserted copies
left aside, shows the same, and reads the same values. -/
theorem Routine.replace_walk (r : Routine) (hg : r.graph.WellFormed) (hphis : r.graph.PhisComplete)
    (hssa : r.graph.DefinedOnce) {b s : BlockId} {link : EdgeId}
    (hempty : r.graph.kind? b = some .empty) (hreach : r.graph.Reachable b)
    (hlink : r.graph.edge? link = some ⟨b, s, .always⟩) (hsb : s ≠ b)
    (hhands : r.graph.HandsOn b s link) :
    ∃ r', (r.replace b []).outcome = .ok ([], r') ∧ r'.graph.WellFormed ∧ r'.graph.kind? b = none ∧
      (∀ c k, c ≠ b → r.graph.kind? c = some k → r'.graph.kind? c = some k) ∧
      (∀ c k, r'.graph.kind? c = some k → r.graph.kind? c = none →
        ∃ lhs rhs, k = .statement (.copy lhs rhs)) ∧
      ∀ {V : Type} (I : Interpretation V) (σ : Store V), ∃ pace pace' : Nat → Nat,
        pace 0 = 0 ∧ pace' 0 = 0 ∧ StrictMono pace ∧ StrictMono pace' ∧
        (∀ n, Option.Rel (fun u u' => u.block ≠ b ∧ u'.block = u.block ∧
            u'.memory.shown = u.memory.shown ∧ r'.graph.reads u' = r.graph.reads u)
          (r.graph.walk I σ (pace n)) (r'.graph.walk I σ (pace' n))) ∧
        (∀ i, (∃ n, pace n = i) ∨ ∀ u, r.graph.walk I σ i = some u → u.block = b) ∧
        ∀ i, (∃ n, pace' n = i) ∨
          ∀ u, r'.graph.walk I σ i = some u → r.graph.kind? u.block = none := by
  obtain ⟨old, hold, hkind⟩ := Graph.block?_of_kind? hempty
  obtain ⟨succ, hsucc⟩ := hg.listed.target_live hlink
  have hx : r.graph.EmptyBefore b s link old succ := ⟨hg, hold, hkind, hlink, hsucc, hsb⟩
  obtain ⟨g', hok, h⟩ := hx.stepsOver hreach hssa hhands
  refine ⟨r.withGraph g', ?_, h.wellFormed, h.gone, fun _ _ => h.kind?_of_ne,
    fun c k hk hnone => ?_, fun I σ => ?_⟩
  · rw [Routine.replace, Run.outcome_bind_of_ok hok]
    exact Run.outcome_bind_of_ok (r.settle_spec h.wellFormed) _
  · obtain ⟨c, hc⟩ := h.inserted hk hnone
    exact ⟨c.dst, c.src, hc⟩
  · obtain ⟨pace, pace', hzero, hzero', hmono, hmono', hrel, hbetween, hbetween'⟩ :=
      h.exists_paces_walk (I := I) hx hphis hhands σ
    refine ⟨pace, pace', hzero, hzero', hmono, hmono', fun n => rel_imp (fun hu => ?_) (hrel n),
      hbetween, hbetween'⟩
    exact ⟨hu.ne, hu.same.block_eq, hu.same.shown_eq, hu.reads_eq h hg hhands⟩

/-- An empty block that merges two ways into a loop, before the head of the loop.  It merges one
variable that the head merges again, and one that the head does not mention. -/
def Graph.preheader : Graph where
  name := "preheader"
  blocks := #[
    some { id := ⟨0⟩, kind := .entry, succs := [⟨0⟩] },
    some { id := ⟨1⟩, kind := .exit, preds := [⟨9⟩] },
    some { id := ⟨2⟩, kind := .branch ⟨.plain "c", "then", "else"⟩
           preds := [⟨0⟩], succs := [⟨1⟩, ⟨2⟩] },
    some { id := ⟨3⟩, kind := .statement (.assign (.plain "a") false (.lit (.int 1)))
           preds := [⟨1⟩], succs := [⟨3⟩] },
    some { id := ⟨4⟩, kind := .statement (.assign (.plain "b") false (.lit (.int 2)))
           preds := [⟨2⟩], succs := [⟨4⟩] },
    some { id := ⟨5⟩, kind := .empty
           phis := .ofList [
             ("x", ⟨some 1, .ofList [(⟨3⟩, .plain "a"), (⟨4⟩, .plain "b")]⟩),
             ("z", ⟨some 1, .ofList [(⟨3⟩, .plain "p"), (⟨4⟩, .plain "q")]⟩)]
           preds := [⟨3⟩, ⟨4⟩], succs := [⟨5⟩] },
    some { id := ⟨6⟩, kind := .branch ⟨.versioned "x" 2, "more", "done"⟩
           phis := .ofList [
             ("x", ⟨some 2, .ofList [(⟨5⟩, .versioned "x" 1), (⟨8⟩, .versioned "x" 3)]⟩)]
           preds := [⟨5⟩, ⟨8⟩], succs := [⟨6⟩, ⟨7⟩] },
    some { id := ⟨7⟩
           kind := .statement (.assign (.versioned "x" 3) false
             (.unary "-" (.var (.versioned "x" 2))))
           preds := [⟨6⟩], succs := [⟨8⟩] },
    some { id := ⟨8⟩, kind := .statement (.ret (.var (.versioned "z" 1)))
           preds := [⟨7⟩], succs := [⟨9⟩] }]
  edges := #[some ⟨⟨0⟩, ⟨2⟩, .always⟩, some ⟨⟨2⟩, ⟨3⟩, .onTrue⟩, some ⟨⟨2⟩, ⟨4⟩, .onFalse⟩,
    some ⟨⟨3⟩, ⟨5⟩, .always⟩, some ⟨⟨4⟩, ⟨5⟩, .always⟩, some ⟨⟨5⟩, ⟨6⟩, .always⟩,
    some ⟨⟨6⟩, ⟨7⟩, .onTrue⟩, some ⟨⟨6⟩, ⟨8⟩, .onFalse⟩, some ⟨⟨7⟩, ⟨6⟩, .always⟩,
    some ⟨⟨8⟩, ⟨1⟩, .always⟩]

theorem Routine.preheader_walk :
    Graph.preheader.WellFormed ∧ Graph.preheader.PhisComplete ∧ Graph.preheader.DefinedOnce ∧
      Graph.preheader.Reachable ⟨5⟩ ∧ Graph.preheader.HandsOn ⟨5⟩ ⟨6⟩ ⟨5⟩ ∧
      ∃ r', ((Routine.mk Graph.preheader .new none none).replace ⟨5⟩ []).outcome = .ok ([], r') ∧
        r'.graph.kind? ⟨5⟩ = none ∧ ∃ pace pace' : Nat → Nat, StrictMono pace ∧ StrictMono pace' ∧
          ∀ n, Option.Rel (fun u u' => u.block ≠ ⟨5⟩ ∧ u'.block = u.block ∧
              u'.memory.shown = u.memory.shown ∧ r'.graph.reads u' = Graph.preheader.reads u)
            (Graph.preheader.walk .counting (fun _ => 7) (pace n))
            (r'.graph.walk .counting (fun _ => 7) (pace' n)) := by
  have hg : Graph.preheader.WellFormed := by decide
  have hssa : Graph.preheader.DefinedOnce := hg.definedOnce_iff.mpr (by decide)
  have hreach : Graph.preheader.Reachable ⟨5⟩ :=
    ((Graph.Reachable.entry.step ⟨⟨0⟩, .always, rfl⟩).step ⟨⟨1⟩, .onTrue, rfl⟩).step
      ⟨⟨3⟩, .always, rfl⟩
  have hhands : Graph.preheader.HandsOn ⟨5⟩ ⟨6⟩ ⟨5⟩ :=
    hg.listed.handsOn_of_forall rfl (by decide) (by decide) (by decide)
  refine ⟨hg, by decide, hssa, hreach, hhands, ?_⟩
  obtain ⟨r', hok, -, hgone, -, -, hwalk⟩ :=
    Routine.replace_walk (.mk Graph.preheader .new none none) hg (by decide) hssa rfl hreach rfl
      (by decide) hhands
  obtain ⟨pace, pace', -, -, hmono, hmono', hrel, -⟩ := hwalk .counting fun _ => 7
  exact ⟨r', hok, hgone, pace, pace', hmono, hmono', hrel⟩

/-- An empty block that merges `a` and `b` to `x`, before a block that merges `x` and `k` to `y`. -/
def Graph.misnamed : Graph where
  name := "f"
  blocks := #[
    some { id := ⟨0⟩, kind := .entry, succs := [⟨1⟩] },
    some { id := ⟨1⟩, kind := .exit, preds := [⟨10⟩] },
    some { id := ⟨2⟩, kind := .branch ⟨.plain "c", "", ""⟩, preds := [⟨1⟩], succs := [⟨2⟩, ⟨3⟩] },
    some { id := ⟨3⟩, kind := .branch ⟨.plain "d", "", ""⟩, preds := [⟨3⟩], succs := [⟨4⟩, ⟨5⟩] },
    some { id := ⟨4⟩, kind := .statement (.assign (.plain "a") false (.lit (.int 1)))
           preds := [⟨2⟩], succs := [⟨6⟩] },
    some { id := ⟨5⟩, kind := .statement (.assign (.plain "b") false (.lit (.int 2)))
           preds := [⟨4⟩], succs := [⟨7⟩] },
    some { id := ⟨6⟩, kind := .statement (.assign (.plain "k") false (.lit (.int 3)))
           preds := [⟨5⟩], succs := [⟨9⟩] },
    some { id := ⟨7⟩, kind := .empty
           phis := .ofList [("x", ⟨none, .ofList [(⟨6⟩, .plain "a"), (⟨7⟩, .plain "b")]⟩)]
           preds := [⟨6⟩, ⟨7⟩], succs := [⟨8⟩] },
    some { id := ⟨8⟩, kind := .statement (.ret (.var (.plain "y")))
           phis := .ofList [("y", ⟨none, .ofList [(⟨8⟩, .plain "x"), (⟨9⟩, .plain "k")]⟩)]
           preds := [⟨8⟩, ⟨9⟩], succs := [⟨10⟩] }]
  edges := #[none, some ⟨⟨0⟩, ⟨2⟩, .always⟩, some ⟨⟨2⟩, ⟨4⟩, .onTrue⟩, some ⟨⟨2⟩, ⟨3⟩, .onFalse⟩,
    some ⟨⟨3⟩, ⟨5⟩, .onTrue⟩, some ⟨⟨3⟩, ⟨6⟩, .onFalse⟩, some ⟨⟨4⟩, ⟨7⟩, .always⟩,
    some ⟨⟨5⟩, ⟨7⟩, .always⟩, some ⟨⟨7⟩, ⟨8⟩, .always⟩, some ⟨⟨6⟩, ⟨8⟩, .always⟩,
    some ⟨⟨8⟩, ⟨1⟩, .always⟩]

/-- **Base names matter.**  Here `y` keeps `x` for an argument on the edges led past the block,
where `x` has not been merged, and the value that is returned changes. -/
theorem Routine.replace_misnamed :
    Graph.misnamed.WellFormed ∧ Graph.misnamed.PhisComplete ∧ Graph.misnamed.DefinedOnce ∧
      Graph.misnamed.kind? ⟨7⟩ = some .empty ∧ Graph.misnamed.Reachable ⟨7⟩ ∧
      Graph.misnamed.edge? ⟨8⟩ = some ⟨⟨7⟩, ⟨8⟩, .always⟩ ∧
      ∃ r', ((Routine.mk Graph.misnamed .new none none).replace ⟨7⟩ []).outcome = .ok ([], r') ∧
        ((List.range 6).filterMap fun n => (Graph.misnamed.walk .counting (fun _ => 7) n).map
            fun u => (u.block.slot, Graph.misnamed.reads u)) =
          [(0, []), (2, [7]), (4, []), (7, []), (8, [1]), (1, [])] ∧
        ((List.range 6).filterMap fun n => (r'.graph.walk .counting (fun _ => 7) n).map
            fun u => (u.block.slot, r'.graph.reads u)) =
          [(0, []), (2, [7]), (4, []), (8, [7]), (1, [])] := by
  have hg : Graph.misnamed.WellFormed := by decide
  have hreach : Graph.misnamed.Reachable ⟨7⟩ :=
    ((Graph.Reachable.entry.step ⟨⟨1⟩, .always, rfl⟩).step ⟨⟨2⟩, .onTrue, rfl⟩).step
      ⟨⟨6⟩, .always, rfl⟩
  exact ⟨hg, by decide, hg.definedOnce_iff.mpr (by decide), rfl, hreach, rfl, _, rfl, by decide,
    by decide⟩

end FlowGraph
