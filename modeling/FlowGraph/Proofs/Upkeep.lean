import FlowGraph.Proofs.Neatening

/-! # Tidying keeps a graph sound, phi functions and all

Removing unreachable blocks, taking out idle ones and resolving a branch keep a well-formed graph
well-formed, and complete phi functions complete.  None of it can fail: once the unreachable blocks
are gone the entry reaches every block but perhaps the exit, and a block that is taken out leaves it
so.
-/
namespace FlowGraph

theorem Kind.exists_branch {k : Kind} (h : k.isBranch = true) : ∃ br, k = .branch br := by
  cases k with
  | branch br => exact ⟨br, rfl⟩
  | _ => cases h

namespace Graph

variable {g : Graph}

/-! ### Removing blocks and edges -/

/-- Fewer edges need fewer arguments. -/
theorem Listed.phisComplete_removeEdge (hg : g.Listed) (hc : g.PhisComplete) (e : EdgeId) :
    (g.removeEdge e).PhisComplete := by
  intro b block' hb'
  rw [hg.block?_removeEdge] at hb'
  obtain ⟨block, hb, rfl⟩ := Option.map_eq_some_iff.mp hb'
  show ([e].foldl (fun b e => b.without e) block).Complete
  exact Block.complete_foldl_without fun _ _ hp e' he' _ => hc hb hp e' he'

theorem Listed.phisComplete_foldl_removeBlock (hg : g.Listed) (hc : g.PhisComplete)
    (bs : List BlockId) : (bs.foldl Graph.removeBlock g).PhisComplete := by
  induction bs generalizing g with
  | nil => exact hc
  | cons b bs ih =>
    refine ih (hg.removeBlock b).listed ?_
    cases hb : g.block? b with
    | none =>
      rw [Graph.removeBlock, hb]
      exact hc
    | some block => exact hg.phisComplete_removeBlock hb fun _ hb' _ _ hp e he _ => hc hb' hp e he

/-- **A sound graph whose entry reaches all blocks** but perhaps the exit. -/
structure Tends (g g' : Graph) : Prop extends Maintains g g' where
  reached : g'.Reached

theorem WellFormed.tends_of_neatens (hg : g.WellFormed) {g' : Graph}
    (h : Relation.ReflTransGen Neatens g.pruned g') : Tends g g' := by
  have hpruned : Maintains g g.pruned :=
    ⟨hg.pruned, g.follows_pruned, fun hc => hg.listed.phisComplete_foldl_removeBlock hc _⟩
  have hneater := neater_of_neatens hg.pruned h
  exact ⟨hpruned.trans hneater.toMaintains, hneater.reached hg.reached_pruned⟩

/-- **Removing unreachable blocks** never fails. -/
theorem WellFormed.ends_prune (hg : g.WellFormed) {bad : Fault → Prop} :
    g.pruneUnreachable.Ends (fun s => s.1 = g.unreachable.length ∧ Tends g s.2) bad :=
  hg.ends_pruned.imp (fun _ h => ⟨h.1, hg.tends_of_neatens h.2⟩) fun _ => id

/-- **Tidying** never fails. -/
theorem WellFormed.ends_tidy (hg : g.WellFormed) {bad : Fault → Prop} :
    g.tidy.Ends (fun s => Tends g s.2) bad :=
  hg.ends_tidy_atRest.imp (fun _ h => hg.tends_of_neatens h.1) fun _ => id

/-! ### Branches with a known outcome -/

/-- The lists do not mention directions. -/
theorem Listed.modifyEdge (hg : g.Listed) (e : EdgeId) {f : Edge → Edge}
    (hsource : ∀ x, (f x).source = x.source) (htarget : ∀ x, (f x).target = x.target) :
    (g.modifyEdge e f).Listed := by
  have hforth : ∀ {e' x}, g.edge? e' = some x → ∃ y, (g.modifyEdge e f).edge? e' = some y ∧
      y.source = x.source ∧ y.target = x.target := by
    intro e' x he'
    rw [edge?_modifyEdge, he']
    split
    · exact ⟨f x, rfl, hsource x, htarget x⟩
    · exact ⟨x, rfl, rfl, rfl⟩
  have hback : ∀ {e' y}, (g.modifyEdge e f).edge? e' = some y → ∃ x, g.edge? e' = some x ∧
      y.source = x.source ∧ y.target = x.target := by
    intro e' y he'
    rw [edge?_modifyEdge] at he'
    split at he'
    · obtain ⟨x, hx, rfl⟩ := Option.map_eq_some_iff.mp he'
      exact ⟨x, hx, hsource x, htarget x⟩
    · exact ⟨y, he', rfl, rfl⟩
  constructor
  case id_eq => exact fun hb => hg.id_eq hb
  case mem_succs =>
    intro b block hb e'
    rw [hg.mem_succs hb]
    constructor
    · rintro ⟨x, hx, hs⟩
      obtain ⟨y, hy, hs', -⟩ := hforth hx
      exact ⟨y, hy, hs'.trans hs⟩
    · rintro ⟨y, hy, hs⟩
      obtain ⟨x, hx, hs', -⟩ := hback hy
      exact ⟨x, hx, hs'.symm.trans hs⟩
  case mem_preds =>
    intro b block hb e'
    rw [hg.mem_preds hb]
    constructor
    · rintro ⟨x, hx, ht⟩
      obtain ⟨y, hy, -, ht'⟩ := hforth hx
      exact ⟨y, hy, ht'.trans ht⟩
    · rintro ⟨y, hy, ht⟩
      obtain ⟨x, hx, -, ht'⟩ := hback hy
      exact ⟨x, hx, ht'.symm.trans ht⟩
  case nodup_succs => exact fun hb => hg.nodup_succs hb
  case nodup_preds => exact fun hb => hg.nodup_preds hb
  case source_live =>
    intro e' y hy
    obtain ⟨x, hx, hs, -⟩ := hback hy
    exact hs ▸ hg.source_live hx
  case target_live =>
    intro e' y hy
    obtain ⟨x, hx, -, ht⟩ := hback hy
    exact ht ▸ hg.target_live hx
  case args_enter => exact fun hb => hg.args_enter hb

/-- The graph with a branch resolved: one edge is gone, the other is taken in any case. -/
def resolved (g : Graph) (b : BlockId) (kept dropped : EdgeId) : Graph :=
  ((g.removeEdge dropped).modifyEdge kept fun edge =>
    { edge with direction := .always }).modifyBlock b
    fun block => { block with kind := .empty }

section
variable {b t o : BlockId} {br : Branch} {d d' : Direction} {kept dropped : EdgeId}
  (hg : g.WellFormed) (hk : g.kind? b = some (.branch br)) (hkept : g.edge? kept = some ⟨b, t, d⟩)
  (hdropped : g.edge? dropped = some ⟨b, o, d'⟩) (hd : d ≠ d')

include hkept hdropped hd in
omit hg hk in
theorem ne_of_directions : kept ≠ dropped := by
  rintro rfl
  rw [hdropped] at hkept
  cases hkept
  exact hd rfl

include hkept in
theorem edge?_resolved (hne : kept ≠ dropped) {e : EdgeId} {x : Edge} :
    (g.resolved b kept dropped).edge? e = some x ↔
      e ≠ kept ∧ e ≠ dropped ∧ g.edge? e = some x ∨ e = kept ∧ x = ⟨b, t, .always⟩ := by
  rw [resolved, edge?_modifyBlock, edge?_modifyEdge, edge?_removeEdge]
  by_cases h : e = kept
  · subst h
    simp [hne, hkept, eq_comm]
  · by_cases h' : e = dropped
    · subst h'
      simp [h]
    · simp [h, h']

include hg in
theorem WellFormed.kind?_resolved (c : BlockId) : (g.resolved b kept dropped).kind? c =
    if c = b then (g.kind? c).map fun _ => .empty else g.kind? c := by
  have hremove := hg.listed.kind?_removeEdge dropped c
  rw [Graph.resolved, kind?, block?_modifyBlock]
  split
  · rw [← hremove, kind?, Option.map_map, Option.map_map]
    rfl
  · exact hremove

include hg in
theorem Listed.resolved : (g.resolved b kept dropped).Listed := by
  have hlisted := (hg.listed.removeEdge dropped).modifyEdge kept
    (f := fun edge => { edge with direction := .always }) (fun _ => rfl) fun _ => rfl
  have hsame : SameOutline _ (g.resolved b kept dropped) := .modifyBlock _ b fun _ => rfl
  refine hlisted.of_outline hsame fun {c block'} hc' {name p} hp {e v} hv => ?_
  rcases block?_modifyBlock_eq_some hc' with ⟨-, hc⟩ | ⟨block, -, hc, rfl⟩
  · exact hlisted.args_enter hc hp hv
  · exact hlisted.args_enter hc hp hv

include hg hk hkept hdropped hd

/-- A branch has two edges. -/
theorem WellFormed.branch_edges {e : EdgeId} {t' : BlockId} {d'' : Direction}
    (he : g.edge? e = some ⟨b, t', d''⟩) : e = kept ∨ e = dropped := by
  have hdir : ∀ {e t' d''}, g.edge? e = some ⟨b, t', d''⟩ → d'' = .onTrue ∨ d'' = .onFalse := by
    intro e t' d'' he
    have hin := (hg.wired.ways hk nofun d'').mp ⟨e, t', he⟩
    simpa [Kind.directions] using hin
  have htwo : d'' = d ∨ d'' = d' := by
    have h₁ := hdir hkept
    have h₂ := hdir hdropped
    have h₃ := hdir he
    grind
  rcases htwo with rfl | rfl
  · exact .inl (hg.edge_unique he hkept)
  · exact .inr (hg.edge_unique he hdropped)

theorem WellFormed.edge?_resolved_self {e : EdgeId} {t' : BlockId} {d'' : Direction} :
    (g.resolved b kept dropped).edge? e = some ⟨b, t', d''⟩ ↔
      e = kept ∧ t' = t ∧ d'' = .always := by
  rw [edge?_resolved hkept (ne_of_directions hkept hdropped hd), Edge.mk.injEq]
  constructor
  · rintro (⟨hek, hed, he⟩ | ⟨rfl, -, ht, hd⟩)
    · exact ((hg.branch_edges hk hkept hdropped hd he).elim hek hed).elim
    · exact ⟨rfl, ht, hd⟩
  · rintro ⟨rfl, rfl, rfl⟩
    exact .inr ⟨rfl, rfl, rfl, rfl⟩

omit hg hk in
theorem edge?_resolved_of_ne {e : EdgeId} {c t' : BlockId} {d'' : Direction} (hc : c ≠ b) :
    (g.resolved b kept dropped).edge? e = some ⟨c, t', d''⟩ ↔ g.edge? e = some ⟨c, t', d''⟩ := by
  rw [edge?_resolved hkept (ne_of_directions hkept hdropped hd), Edge.mk.injEq]
  constructor
  · rintro (⟨-, -, he⟩ | ⟨-, hcb, -⟩)
    · exact he
    · exact absurd hcb hc
  · refine fun he => .inl ⟨?_, ?_, he⟩
    · rintro rfl
      rw [hkept] at he
      cases he
      exact hc rfl
    · rintro rfl
      rw [hdropped] at he
      cases he
      exact hc rfl

/-- **A resolved branch** leads one way. -/
theorem WellFormed.resolved : (g.resolved b kept dropped).WellFormed := by
  have hself : ∀ {e t' d''}, (g.resolved b kept dropped).edge? e = some ⟨b, t', d''⟩ ↔
      e = kept ∧ t' = t ∧ d'' = .always := hg.edge?_resolved_self hk hkept hdropped hd
  have hstill : ∀ {c e t' d''}, c ≠ b → ((g.resolved b kept dropped).edge? e = some ⟨c, t', d''⟩ ↔
      g.edge? e = some ⟨c, t', d''⟩) := edge?_resolved_of_ne hkept hdropped hd
  have hkind : ∀ {c}, c ≠ b → (g.resolved b kept dropped).kind? c = g.kind? c := fun {c} hc => by
    rw [hg.kind?_resolved, if_neg hc]
  have hempty : (g.resolved b kept dropped).kind? b = some .empty := by
    rw [hg.kind?_resolved, if_pos rfl, hk, Option.map_some]
  have hentry : b ≠ entry := hg.ne_entry hk nofun
  have hexit : b ≠ exit := hg.ne_exit hk nofun
  refine ⟨checkWiring_iff.mpr { Listed.resolved hg with
    entry_kind := (hkind hentry.symm).trans hg.wired.entry_kind, entry_closed := ?entry_closed
    exit_kind := (hkind hexit.symm).trans hg.wired.exit_kind, exit_closed := ?exit_closed
    ways := ?ways, one_way := ?one_way }, fun {c} hc => ?entry_only, fun {c} hc => ?exit_only⟩
  case entry_only =>
    by_cases hcb : c = b
    · rw [hcb, hempty] at hc
      cases hc
    · exact hg.entry_only ((hkind hcb).symm.trans hc)
  case exit_only =>
    by_cases hcb : c = b
    · rw [hcb, hempty] at hc
      cases hc
    · exact hg.exit_only ((hkind hcb).symm.trans hc)
  case entry_closed =>
    rintro e ⟨c, t', d''⟩ he
    by_cases hcb : c = b
    · obtain ⟨-, rfl, -⟩ := hself.mp (hcb ▸ he)
      -- The edge that is kept enters what it entered.
      have ht : t' ≠ entry := hg.wired.entry_closed hkept
      exact ht
    · exact hg.wired.entry_closed ((hstill hcb).mp he)
  case exit_closed =>
    rintro e ⟨c, t', d''⟩ he
    by_cases hcb : c = b
    · exact hcb ▸ hexit
    · exact hg.wired.exit_closed ((hstill hcb).mp he)
  case ways =>
    intro c k hc hne d''
    by_cases hcb : c = b
    · subst hcb
      rw [hempty] at hc
      cases hc
      simp [hself, Kind.directions]
    · rw [hkind hcb] at hc
      simp only [hstill hcb]
      exact hg.wired.ways hc hne d''
  case one_way =>
    intro c k hc hne d'' e e' t₁ t₂ he he'
    by_cases hcb : c = b
    · subst hcb
      exact (hself.mp he).1.trans (hself.mp he').1.symm
    · exact hg.edge_unique ((hstill hcb).mp he) ((hstill hcb).mp he')

theorem WellFormed.maintains_resolved : Maintains g (g.resolved b kept dropped) where
  wellFormed := hg.resolved hk hkept hdropped hd
  follows := ((Follows.removeEdge ..).trans (.modifyEdge ..)).trans (.modifyBlock ..)
  complete hc := by
    have hremoved := hg.listed.phisComplete_removeEdge hc dropped
    intro c block' hc'
    rcases block?_modifyBlock_eq_some hc' with ⟨-, hb⟩ | ⟨block, -, hb, rfl⟩
    · exact hremoved hb
    · have hcomplete : block.Complete := hremoved hb
      exact hcomplete

end

theorem WellFormed.live_resolved (hg : g.WellFormed) {b c : BlockId} {kept dropped : EdgeId}
    {block : Block} (hc : g.block? c = some block) :
    ∃ block', (g.resolved b kept dropped).block? c = some block' := by
  have hkind : ∃ k, (g.resolved b kept dropped).kind? c = some k := by
    rw [hg.kind?_resolved, kind?_of_block? hc]
    split
    · exact ⟨_, rfl⟩
    · exact ⟨_, rfl⟩
  obtain ⟨k, hk⟩ := hkind
  obtain ⟨block', hc', -⟩ := block?_of_kind? hk
  exact ⟨block', hc'⟩

theorem WellFormed.exists_outcome (hg : g.WellFormed) {b : BlockId} {br : Branch}
    (hk : g.kind? b = some (.branch br)) (outcome : Bool) :
    ∃ e t, g.edge? e = some ⟨b, t, .ofOutcome outcome⟩ := by
  apply (hg.wired.ways hk nofun _).mpr
  show _ ∈ [Direction.onTrue, .onFalse]
  cases outcome <;> decide

theorem ofOutcome_ne (outcome : Bool) : Direction.ofOutcome outcome ≠ .ofOutcome !outcome := by
  cases outcome <;> decide

/-- A branch is resolved, and then the phi functions where the edge led that is gone are looked at.
-/
theorem WellFormed.outcome_resolveBranch (hg : g.WellFormed) {b t o : BlockId} {block : Block}
    (hb : g.block? b = some block) (hbranch : block.kind.isBranch = true) {kept dropped : EdgeId}
    {outcome : Bool} (hkept : g.edge? kept = some ⟨b, t, .ofOutcome outcome⟩)
    (hdropped : g.edge? dropped = some ⟨b, o, .ofOutcome !outcome⟩) :
    (g.resolveBranch b outcome).outcome = ((g.resolved b kept dropped).simplifySolo o).outcome := by
  have hne := ne_of_directions hkept hdropped (ofOutcome_ne outcome)
  have hstill : (g.removeEdge dropped).edge? kept = some ⟨b, t, .ofOutcome outcome⟩ :=
    edge?_removeEdge_eq_some.mpr ⟨hne, hkept⟩
  have hlive : ∃ block, ((g.removeEdge dropped).modifyEdge kept fun edge =>
      { edge with direction := .always }).block? b = some block :=
    isLive_iff.mp ((isLive_removeEdge g dropped b).trans (isLive_iff.mpr ⟨block, hb⟩))
  rw [resolveBranch, Run.outcome_liftM_bind (hg.directedEdge_eq_ok hb hbranch hkept),
    Run.outcome_liftM_bind (hg.directedEdge_eq_ok hb hbranch hdropped),
    Run.outcome_liftM_bind (edge_eq_ok hdropped), Run.outcome_bind_of_ok (Run.outcome_report _),
    Run.outcome_liftM_bind (hg.listed.joined.disconnect_eq hdropped),
    Run.outcome_liftM_bind (updateEdge_eq_ok.mpr ⟨⟨_, hstill⟩, rfl⟩),
    Run.outcome_liftM_bind (update_eq_ok.mpr ⟨hlive, rfl⟩)]
  rfl

/-- **Resolving a branch.** -/
theorem WellFormed.ends_resolveBranch (hg : g.WellFormed) {b : BlockId} {outcome : Bool}
    {bad : Fault → Prop} (hstale : g.block? b = none → bad (.violation (.staleBlock b)))
    (hother : ∀ {k}, g.kind? b = some k → k.isBranch = false → bad (.notBranch b)) :
    (g.resolveBranch b outcome).Ends (Maintains g) bad := by
  cases hb : g.block? b with
  | none =>
    apply Run.Ends.bind_error _ (hstale hb)
    rw [directedEdge, Graph.block, hb]
    rfl
  | some block =>
    have hk := kind?_of_block? hb
    cases hbranch : block.kind.isBranch with
    | false =>
      apply Run.Ends.bind_error _ (hother hk hbranch)
      rw [directedEdge, block_eq_ok hb]
      show (if block.kind.isBranch then _ else _) = _
      rw [hbranch]
      rfl
    | true =>
      obtain ⟨br, hbr⟩ := Kind.exists_branch hbranch
      rw [hbr] at hk
      obtain ⟨kept, t, hkept⟩ := hg.exists_outcome hk outcome
      obtain ⟨dropped, o, hdropped⟩ := hg.exists_outcome hk !outcome
      have hm := hg.maintains_resolved hk hkept hdropped (ofOutcome_ne outcome)
      obtain ⟨orphan, ho⟩ := hg.listed.target_live hdropped
      obtain ⟨orphan', ho'⟩ := hg.live_resolved ho
      obtain ⟨g', hok, hgrows⟩ := hm.wellFormed.grows_simplifySolo ho'
      exact .of_ok ((hg.outcome_resolveBranch hb hbranch hkept hdropped).trans hok)
        (hm.trans hgrows.toMaintains)

end Graph
end FlowGraph
