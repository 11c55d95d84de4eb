import FlowGraph.Proofs.SteppingOver

/-! # The changes that tidying makes

Once the unreachable blocks are gone, tidying makes two kinds of changes only, one at a time: solo
phi functions become copies, and the edges into an empty block without phi functions are led past
it.  So what both keep, tidying keeps.  Each block taken out was empty and no empty block is added,
so the passes come to rest, and rest is where no block is idle any more.
-/
namespace FlowGraph
namespace Graph

variable {g g' g'' : Graph}

/-- **One change that tidying makes** among the blocks that are reached. -/
inductive Neatens (g : Graph) : Graph → Prop where
  /-- Solo phi functions become copies. -/
  | copied {b : BlockId} {block : Block} {g' : Graph} : g.block? b = some block →
      (g.simplifySolo b).outcome = .ok g' → Neatens g g'
  /-- An empty block without phi functions is led past. -/
  | passed {x s : BlockId} {link : EdgeId} {old succ : Block} : g.EmptyBefore x s link old succ →
      old.phis = .empty → Neatens g (g.leadPast x s link old succ)

/-! ### What becomes of blocks -/

/-- **A later state that keeps what is done**: only empty blocks go, and only copies come. -/
structure Neater (g g' : Graph) : Prop extends Maintains g g' where
  reached : g.Reached → g'.Reached
  kind?_eq : ∀ {b k}, g.kind? b = some k → k ≠ .empty → g'.kind? b = some k
  kind?_cases : ∀ {b k}, g'.kind? b = some k →
    g.kind? b = some k ∨ g.kind? b = none ∧ ∃ c : Ssa.Copy, k = .statement (.copy c.dst c.src)

theorem Neater.refl (hg : g.WellFormed) : Neater g g := ⟨.refl hg, id, fun hk _ => hk, .inl⟩

/-- **A later state into which nothing but copies was put.** -/
structure AddsCopies (g g' : Graph) : Prop where
  follows : g.Follows g'
  kind?_cases : ∀ {b k}, g'.kind? b = some k →
    g.kind? b = some k ∨ g.kind? b = none ∧ ∃ c : Ssa.Copy, k = .statement (.copy c.dst c.src)

theorem Neater.addsCopies (h : Neater g g') : AddsCopies g g' := ⟨h.follows, h.kind?_cases⟩

theorem Follows.kind?_stale {g₀ : Graph} (h₀ : g₀.Follows g) (h : g.Follows g') {b : BlockId}
    {k : Kind} (hlive : g₀.kind? b = some k) (hgone : g.kind? b = none) : g'.kind? b = none := by
  obtain ⟨block, hb, -⟩ := block?_of_kind? hlive
  exact Option.map_eq_none_iff.mpr (h₀.block?_stale h hb (Option.map_eq_none_iff.mp hgone))

theorem AddsCopies.trans (h : AddsCopies g g') (h' : AddsCopies g' g'') : AddsCopies g g'' := by
  refine ⟨h.follows.trans h'.follows, fun {b k} hk => ?_⟩
  rcases h'.kind?_cases hk with hk' | ⟨hnone, hcopy⟩
  · exact h.kind?_cases hk'
  · -- A handle that had been given out before would be stale.
    refine .inr ⟨?_, hcopy⟩
    cases hlive : g.kind? b with
    | none => rfl
    | some _ =>
      rw [h.follows.kind?_stale h'.follows hlive hnone] at hk
      cases hk

theorem Neater.trans (h : Neater g g') (h' : Neater g' g'') : Neater g g'' :=
  ⟨h.toMaintains.trans h'.toMaintains, fun hr => h'.reached (h.reached hr),
    fun hk hne => h'.kind?_eq (h.kind?_eq hk hne) hne,
    (h.addsCopies.trans h'.addsCopies).kind?_cases⟩

theorem Neater.empty (h : Neater g g') {b : BlockId} (hk : g'.kind? b = some .empty) :
    g.kind? b = some .empty := by
  rcases h.kind?_cases hk with hk | ⟨-, c, hc⟩
  · exact hk
  · cases hc

theorem SoloCopied.kind?_cases {b : BlockId} (h : SoloCopied g g' b) {c : BlockId} {k : Kind}
    (hk : g'.kind? c = some k) :
    g.kind? c = some k ∨
      g.kind? c = none ∧ ∃ cp : Ssa.Copy, k = .statement (.copy cp.dst cp.src) := by
  cases hold : g.kind? c with
  | none => exact .inr ⟨rfl, h.inserted hk hold⟩
  | some k' =>
    left
    rw [← hk, h.kind?_eq hold]

/-- Either a block has a single predecessor and its phi functions become copies, or nothing happens.
-/
theorem WellFormed.simplifySolo_cases (hg : g.WellFormed) {b : BlockId} {block : Block}
    (hb : g.block? b = some block) (hok : (g.simplifySolo b).outcome = .ok g') :
    g' = g ∨ ∃ e a d, block.preds = [e] ∧ g.edge? e = some ⟨a, b, d⟩ ∧ SoloCopied g g' b ∧
      CopyChain g' (fun c => g.kind? c = none) a d (soloChain block.phis) b := by
  by_cases hsolo : ∃ e, block.preds = [e]
  · obtain ⟨e, hpreds⟩ := hsolo
    have hin : e ∈ block.preds := hpreds ▸ List.mem_singleton.mpr rfl
    obtain ⟨⟨a, _, d⟩, he, rfl⟩ := (hg.listed.mem_preds hb e).mp hin
    obtain ⟨g₁, hok₁, hcopied, hchain⟩ := hg.simplifySolo_chain hb hpreds he
    rw [hok] at hok₁
    cases hok₁
    exact .inr ⟨e, a, d, hpreds, he, hcopied, hchain⟩
  · left
    rw [simplifySolo_of_ne hb fun e he => hsolo ⟨e, he⟩] at hok
    exact (Except.ok.inj hok).symm

/-- **One change keeps what is done.** -/
theorem Neatens.neater (hg : g.WellFormed) (h : Neatens g g') : Neater g g' := by
  cases h with
  | copied hb hok =>
    obtain ⟨g₁, hok₁, hgrows⟩ := hg.grows_simplifySolo hb
    rw [hok] at hok₁
    cases hok₁
    rcases hg.simplifySolo_cases hb hok with rfl | ⟨_, _, _, -, -, hcopied, -⟩
    · exact .refl hg
    · exact ⟨hgrows.toMaintains, hgrows.reached, fun hk _ => hcopied.kind?_eq hk,
        hcopied.kind?_cases⟩
  | passed hx _ =>
    have htakes := hg.takesOut_rerouted hx.block_eq hx.isTerminal_eq hx.link_eq hx.ne hx.succ_eq
    refine ⟨htakes.toMaintains, htakes.reached hx.kind?_eq, fun hk hne => ?_, fun hk => ?_⟩
    · refine hx.bypassed.kind?_iff.mpr ⟨?_, hk⟩
      rintro rfl
      rw [hx.kind?_eq] at hk
      cases hk
      exact hne rfl
    · exact .inl (hx.bypassed.kind?_iff.mp hk).2

theorem neater_of_neatens (hg : g.WellFormed) (h : Relation.ReflTransGen Neatens g g') :
    Neater g g' := by
  induction h with
  | refl => exact .refl hg
  | tail _ hlast ih => exact ih.trans (hlast.neater ih.wellFormed)

/-! ### Idle blocks -/

/-- **No block is idle.** -/
def AtRest (g : Graph) : Prop := ∀ ⦃b block⦄, g.block? b = some block → g.isIdle b = .ok false

/-- An empty block is idle if it has no phi functions and leads elsewhere. -/
theorem WellFormed.isIdle_empty (hg : g.WellFormed) {b s : BlockId} {block : Block} {link : EdgeId}
    (hb : g.block? b = some block) (hk : block.kind = .empty)
    (hlink : g.edge? link = some ⟨b, s, .always⟩) :
    g.isIdle b = .ok (block.phis.isEmpty && decide (s ≠ b)) := by
  have hloops : g.loopsOnItself b = .ok (decide (s = b)) := by
    rw [loopsOnItself, bind_of_ok (block_eq_ok hb), hg.succs_eq hb (by rw [hk]; rfl) hlink]
    show (g.edge link >>= fun edge => _) = _
    rw [edge_eq_ok hlink]
    rfl
  rw [isIdle, bind_of_ok (block_eq_ok hb), bind_of_ok hloops, hk]
  by_cases hphis : block.phis.isEmpty = true
  · by_cases hs : s = b
    · simp [hs, hphis, pure, Except.pure]
    · simp [hs, hphis, Kind.isTerminal, Kind.isBranch, pure, Except.pure]
  · simp [hphis, pure, Except.pure]

/-- **One step of a pass** leaves the graph as it is, or takes an empty block out in two changes. -/
theorem tidyAt_cases (hg : g.WellFormed) (hr : g.Reached) (count : Nat) (b : BlockId) :
    ((tidyAt (count, g) b).outcome = .ok (count, g) ∧
        ∀ block, g.block? b = some block → g.isIdle b = .ok false) ∨
      ∃ g₁ g', (tidyAt (count, g) b).outcome = .ok (count + 1, g') ∧ Neatens g g₁ ∧ Neatens g₁ g' ∧
        g.kind? b = some .empty ∧ g'.kind? b = none := by
  cases hb : g.block? b with
  | none =>
    have hlive : g.isLive b = false := by rw [isLive, hb]; rfl
    left
    constructor
    · simp only [tidyAt, hlive]
      rfl
    · intro block hblock
      cases hblock
  | some block =>
    have hlive : g.isLive b = true := by rw [isLive, hb]; rfl
    obtain ⟨idle, hidle, hempty⟩ := isIdle_eq_ok hg hr hb
    rw [tidyAt, if_pos hlive, Run.outcome_liftM_bind hidle]
    cases idle with
    | false => exact .inl ⟨rfl, fun _ _ => hidle⟩
    | true =>
      right
      obtain ⟨link, s, hk, hlink, hsb⟩ := hempty rfl
      rw [hg.isIdle_empty hb hk hlink, Except.ok.injEq, Bool.and_eq_true] at hidle
      have hphis : block.phis = .empty := OrdMap.isEmpty_iff.mp hidle.1
      obtain ⟨succ, hs⟩ : ∃ succ, g.block? s = some succ := hg.listed.target_live hlink
      have hx : g.EmptyBefore b s link block succ := ⟨hg, hb, hk, hlink, hs, hsb⟩
      have hpreds : block.preds ≠ [] := Reached.preds_ne_nil hg hr hb hx.isTerminal_eq
      have htakes := hg.takesOut_rerouted hb hx.isTerminal_eq hlink hsb hs
      obtain ⟨succ', hs'⟩ := htakes.live
      obtain ⟨g', hok, hgrows⟩ := htakes.wellFormed.grows_simplifySolo hs'
      refine ⟨_, g', ?_, .passed hx hphis, .copied hs' hok, hx.kind?_eq, ?_⟩
      · rw [if_pos rfl, Run.outcome_bind_of_ok ((hx.outcome_bypass hpreds).trans hok)]
        rfl
      · exact htakes.follows.kind?_stale hgrows.follows hx.kind?_eq
          (hx.bypassed.kind?_eq_none_iff.mpr (.inl rfl))

/-! ### Passes -/

/-- The empty blocks. -/
def empties (g : Graph) : List BlockId := g.blockIds.filter fun b => g.kind? b = some .empty

theorem Listed.mem_empties (hg : g.Listed) {b : BlockId} :
    b ∈ g.empties ↔ g.kind? b = some .empty := by
  rw [empties, List.mem_filter, decide_eq_true_eq]
  refine and_iff_right_of_imp fun hk => ?_
  obtain ⟨block, hb, -⟩ := block?_of_kind? hk
  exact hg.mem_blockIds.mpr ⟨block, hb⟩

theorem Listed.nodup_empties (hg : g.Listed) : g.empties.Nodup := hg.nodup_blockIds.filter _

theorem length_empties_le (g : Graph) : g.empties.length ≤ g.blocks.size := by
  have hlive : g.liveBlocks.length ≤ g.blocks.toList.length := List.length_filterMap_le ..
  have hids : g.blockIds.length = g.liveBlocks.length := List.length_map ..
  have hempty : g.empties.length ≤ g.blockIds.length := List.length_filter_le ..
  have hsize : g.blocks.toList.length = g.blocks.size := Array.length_toList
  omega

/-- No empty block is added, so there are fewer if one goes. -/
theorem Neater.length_empties_lt (h : Neater g g') (hg : g.WellFormed) {b : BlockId}
    (hk : g.kind? b = some .empty) (hgone : g'.kind? b = none) :
    g'.empties.length < g.empties.length := by
  have hnodup : (b :: g'.empties).Nodup := by
    refine List.nodup_cons.mpr ⟨fun hin => ?_, h.wellFormed.listed.nodup_empties⟩
    rw [h.wellFormed.listed.mem_empties, hgone] at hin
    cases hin
  have hsubset : b :: g'.empties ⊆ g.empties := by
    refine List.cons_subset.mpr ⟨hg.listed.mem_empties.mpr hk, fun c hc => ?_⟩
    exact hg.listed.mem_empties.mpr (h.empty (h.wellFormed.listed.mem_empties.mp hc))
  exact (hnodup.subperm hsubset).length_le

section
variable (hg : g.WellFormed) (hr : g.Reached) {bad : Fault → Prop}
include hg hr

/-- **One pass.**  If it counts no block, it left the graph as it is, and no block was idle. -/
theorem ends_tidyPass : g.tidyPass.Ends (fun s => Relation.ReflTransGen Neatens g s.2 ∧
    s.1 + s.2.empties.length ≤ g.empties.length ∧ (s.1 = 0 → s.2 = g ∧ g.AtRest)) bad := by
  -- While no block has been counted, those that were looked at are not idle.
  let inv : List BlockId → Nat × Graph → Prop := fun rest s =>
    Relation.ReflTransGen Neatens g s.2 ∧ s.1 + s.2.empties.length ≤ g.empties.length ∧
      (s.1 = 0 → s.2 = g ∧ ∀ b block, g.block? b = some block → b ∈ rest ∨ g.isIdle b = .ok false)
  have hpass : g.tidyPass.Ends (inv []) bad := by
    refine .foldlM inv (fun b rest s hs => ?step)
      ⟨.refl, (Nat.zero_add _).le, fun _ => ⟨rfl, ?start⟩⟩
    case start => exact fun b block hb => .inl (hg.listed.mem_blockIds.mpr ⟨block, hb⟩)
    case step =>
      obtain ⟨count, g₁⟩ := s
      obtain ⟨hchain, hcount, hzero⟩ := hs
      dsimp only at hchain hcount hzero
      have hneater := neater_of_neatens hg hchain
      rcases tidyAt_cases hneater.wellFormed (hneater.reached hr) count b with
        ⟨hok, hidle⟩ | ⟨g₂, g₃, hok, h₁, h₂, hk, hgone⟩
      · refine .of_ok hok ⟨hchain, hcount, fun h => ?_⟩
        obtain ⟨rfl, hlooked⟩ := hzero h
        refine ⟨rfl, fun c block hc => ?_⟩
        rcases hlooked c block hc with hin | hnot
        · rcases List.mem_cons.mp hin with rfl | hin
          · exact .inr (hidle block hc)
          · exact .inl hin
        · exact .inr hnot
      · have hstep := h₁.neater hneater.wellFormed
        have hfewer := (hstep.trans (h₂.neater hstep.wellFormed)).length_empties_lt
          hneater.wellFormed hk hgone
        refine .of_ok hok ⟨(hchain.tail h₁).tail h₂, ?_, fun h => absurd h (Nat.succ_ne_zero count)⟩
        dsimp only
        omega
  refine hpass.imp (fun s hs => ⟨hs.1, hs.2.1, fun h => ?_⟩) fun _ => id
  obtain ⟨hsame, hlooked⟩ := hs.2.2 h
  exact ⟨hsame, fun b block hb => (hlooked b block hb).resolve_left List.not_mem_nil⟩

/-- **Passes come to rest**, if there are more of them than empty blocks. -/
theorem ends_tidyPasses (fuel : Nat) (hfuel : g.empties.length < fuel) :
    (tidyPasses fuel g).Ends (fun s => Relation.ReflTransGen Neatens g s.2 ∧ s.2.AtRest) bad := by
  induction fuel generalizing g with
  | zero => exact absurd hfuel (Nat.not_lt_zero _)
  | succ fuel ih =>
    refine (ends_tidyPass hg hr).bind ?_
    rintro ⟨count, g₁⟩ ⟨hchain, hcount, hzero⟩
    dsimp only at hchain hcount hzero ⊢
    split
    · rename_i h
      exact .pure ⟨hchain, (hzero h).1 ▸ (hzero h).2⟩
    · have hneater := neater_of_neatens hg hchain
      refine (ih hneater.wellFormed (hneater.reached hr) (by omega)).bind fun s hs => ?_
      exact .pure ⟨hchain.trans hs.1, hs.2⟩

end

/-- The graph without the blocks that the entry does not reach. -/
def pruned (g : Graph) : Graph := g.unreachable.foldl removeBlock g

theorem WellFormed.restricts_pruned (hg : g.WellFormed) :
    Restricts g g.pruned (· ∈ g.unreachable) :=
  hg.listed.foldl_removeBlock g.unreachable

theorem WellFormed.kind?_pruned (hg : g.WellFormed) {b : BlockId} (hb : g.Reachable b) :
    g.pruned.kind? b = g.kind? b :=
  hg.restricts_pruned.kind?_of_left (hg.notMem_unreachable hb)

theorem WellFormed.pruned (hg : g.WellFormed) : g.pruned.WellFormed :=
  (hg.restricts_unreachable hg.restricts_pruned).1

theorem WellFormed.reached_pruned (hg : g.WellFormed) : g.pruned.Reached :=
  (hg.restricts_unreachable hg.restricts_pruned).2.2

theorem follows_pruned (g : Graph) : g.Follows g.pruned := .foldl .removeBlock ..

theorem WellFormed.addsCopies_pruned (hg : g.WellFormed) : AddsCopies g g.pruned :=
  ⟨g.follows_pruned, fun hk => .inl (hg.restricts_pruned.kind?_eq_some hk).2⟩

/-- **Removing unreachable blocks** may leave solo phi functions. -/
theorem WellFormed.ends_pruned (hg : g.WellFormed) {bad : Fault → Prop} :
    g.pruneUnreachable.Ends (fun s => s.1 = g.unreachable.length ∧
      Relation.ReflTransGen Neatens g.pruned s.2) bad := by
  refine .of_outcome hg.outcome_pruneUnreachable_bind ?_
  refine Run.Ends.bind (.foldlM (fun bs g' => Relation.ReflTransGen Neatens g.pruned g' ∧
    ∀ b ∈ bs, ∃ block, g'.block? b = some block) ?step ?start) fun g' hg' => .pure ⟨rfl, hg'.1⟩
  case start =>
    exact ⟨.refl, fun b hb => hg.pruned.listed.mem_blockIds.mp (List.mem_of_mem_filter hb)⟩
  case step =>
    rintro b bs g' ⟨hchain, hlive⟩
    obtain ⟨⟨block, hb⟩, hlive⟩ := List.forall_mem_cons.mp hlive
    have hneater := neater_of_neatens hg.pruned hchain
    obtain ⟨g'', hok, hgrows⟩ := hneater.wellFormed.grows_simplifySolo hb
    refine .of_ok hok ⟨hchain.tail (.copied hb hok), fun c hc => ?_⟩
    obtain ⟨block', hc'⟩ := hlive c hc
    exact hgrows.live hc'

/-- **Tidying** removes unreachable blocks, makes one change after the other, and comes to rest. -/
theorem WellFormed.ends_tidy_atRest (hg : g.WellFormed) {bad : Fault → Prop} :
    g.tidy.Ends (fun s => Relation.ReflTransGen Neatens g.pruned s.2 ∧ s.2.AtRest) bad := by
  refine hg.ends_pruned.bind ?_
  rintro ⟨dead, g'⟩ ⟨-, hchain⟩
  have hneater := neater_of_neatens hg.pruned hchain
  refine (ends_tidyPasses hneater.wellFormed (hneater.reached hg.reached_pruned) _
    (Nat.lt_succ_of_le g'.length_empties_le)).bind ?_
  rintro ⟨idle, g''⟩ ⟨hchain', hrest⟩
  dsimp only
  split
  · exact .report (.pure ⟨hchain.trans hchain', hrest⟩)
  · exact .pure ⟨hchain.trans hchain', hrest⟩

/-- Such a run leads from the graph without its unreachable blocks to one that has them neither. -/
theorem WellFormed.exists_tidy (hg : g.WellFormed) : ∃ count g', g.tidy.outcome = .ok (count, g') ∧
    Relation.ReflTransGen Neatens g.pruned g' ∧ g'.Reached ∧ g'.AtRest := by
  obtain ⟨⟨count, g'⟩, hok, hchain, hrest⟩ := Run.Ends.exists_ok hg.ends_tidy_atRest
  exact ⟨count, g', hok, hchain, (neater_of_neatens hg.pruned hchain).reached hg.reached_pruned,
    hrest⟩

end Graph

theorem Routine.outcome_tidy (r : Routine) {count : Nat} {g' : Graph}
    (h : r.graph.tidy.outcome = .ok (count, g')) (hg' : g'.WellFormed) (hreached : g'.Reached) :
    r.tidy.outcome = .ok (count, r.withGraph g') := by
  rw [Routine.tidy, Run.outcome_bind_of_ok h,
    Run.outcome_liftM_bind (Graph.demandConnected_eq_ok hg' hreached)]
  rfl

end FlowGraph
