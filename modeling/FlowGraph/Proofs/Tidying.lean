import FlowGraph.Proofs.Building
import FlowGraph.Proofs.Contraction

/-! # Tidying keeps the behaviour of a graph

Tidying first removes what the entry does not reach.  From then on the entry reaches every block but
perhaps the exit, each block that is taken out leaves it so, and therefore nothing on the way can
fail: no block is without predecessor or successor.

One pass is enough.  A block that it leaves is not empty or leads to itself, and stays so when other
blocks are taken out.
-/
namespace FlowGraph
namespace Graph

variable {g : Graph}

/-- **What tidying leaves of a graph.** -/
structure Tidies (g g' : Graph) : Prop where
  wellFormed : g'.WellFormed
  phiFree : g'.PhiFree
  reached : g'.Reached
  kind?_eq : ∀ {b k}, g'.kind? b = some k → g.kind? b = some k
  order : KeepsOrder g g'
  contracts : ∃ onto, Contracts g g' onto
  behaves : ∀ {V : Type} (I : Interpretation V) (m : Memory V),
    System.SameBehaviour (g.system I) (g'.system I) ⟨.here entry, m⟩ ⟨.here entry, m⟩

theorem Tidies.refl (hg : g.WellFormed) (hp : g.PhiFree) (hr : g.Reached) : Tidies g g :=
  ⟨hg, hp, hr, id, .refl g, ⟨id, .refl g⟩, fun _ _ => .refl _⟩

theorem Tidies.trans {g' g'' : Graph} (hg : g.WellFormed) (h : Tidies g g') (h' : Tidies g' g'') :
    Tidies g g'' where
  wellFormed := h'.wellFormed
  phiFree := h'.phiFree
  reached := h'.reached
  kind?_eq := fun hk => h.kind?_eq (h'.kind?_eq hk)
  order := h.order.trans h'.order
  contracts := by
    obtain ⟨onto, hcontracts⟩ := h.contracts
    obtain ⟨onto', hcontracts'⟩ := h'.contracts
    exact ⟨_, hcontracts.trans hcontracts' hg h.wellFormed⟩
  behaves := fun I m => (h.behaves I m).trans (h'.behaves I m)

/-- No variable is new. -/
theorem Tidies.occurs {g' : Graph} (h : Tidies g g') {v : Var} (hv : g'.Occurs v) : g.Occurs v := by
  rcases occurs_iff.mp hv with ⟨b, name, p, hφ, -⟩ | ⟨b, k, hk, hv⟩
  · obtain ⟨block, hb, hφ⟩ := Option.bind_eq_some_iff.mp hφ
    rw [h.phiFree hb] at hφ
    cases hφ
  · exact occurs_iff.mpr (.inr ⟨b, k, h.kind?_eq hk, hv⟩)

theorem Tidies.straight {g' : Graph} (h : Tidies g g') (hs : g.Straight) : g'.Straight :=
  fun _ _ hk => hs (h.kind?_eq hk)

theorem Tidies.settledAt {g' : Graph} (h : Tidies g g') {b : BlockId} (hb : g.SettledAt b) :
    g'.SettledAt b := by
  obtain ⟨onto, hcontracts⟩ := h.contracts
  exact hcontracts.settledAt hb

/-! ### Removing what is not reached -/

/-- **Removing what the entry does not reach** keeps the behaviour. -/
theorem Restricts.tidies {g' : Graph} (hg : g.WellFormed) (hp : g.PhiFree)
    (h : Restricts g g' (· ∈ g.unreachable)) : Tidies g g' := by
  obtain ⟨hg', -, hreached⟩ := hg.restricts_unreachable h
  have hp' := h.phiFree hp
  have hleft : ∀ {b}, g.Reachable b → b ∉ g.unreachable := fun hb hmem =>
    (hg.mem_unreachable.mp hmem).2.2 hb
  refine ⟨hg', hp', fun _ _ hb => hreached hb, fun hk => (h.kind?_eq_some hk).2, h.order,
    ⟨id, h.contracts hg⟩, fun {V} I m => ?_⟩
  let R : BlockId → Memory V → BlockId → Memory V → Prop := fun b m b' m' =>
    b = b' ∧ m = m' ∧ g.Reachable b
  have hsim : @System.Simulates V (g.system I) (g'.system I) R := by
    refine ⟨fun hr => congrArg Memory.shown hr.2.1, ?_⟩
    rintro (b : BlockId) m _ _ ⟨rfl, rfl, hb⟩
    obtain ⟨block, hlive⟩ := hg.live_of_reachable hb
    have hk := kind?_of_block? hlive
    have hk' := (h.kind?_of_left (hleft hb)).trans hk
    refine exists_linked hk hk' rfl .rfl rfl rfl fun hret hne => ?_
    obtain ⟨e, t, hl⟩ := hg.exists_leads hk hne (Kind.way_mem_directions I m.store hne)
    have he := hg.leads_iff.mp hl
    have ht : g.Reachable t := hb.step ⟨e, _, he⟩
    have he' := h.edge?_iff.mpr ⟨he, hleft hb, hleft ht⟩
    exact ⟨0, 0, _, _, congrArg some (hg.move_edge hp hk hret he),
      congrArg some (hg'.move_edge hp' hk' hret he'), .here ⟨rfl, rfl, ht⟩⟩
  exact hsim.sameBehaviour (.here ⟨rfl, rfl, .entry⟩)

/-! ### Taking a block out -/

/-- A block that leads one way only lists one edge. -/
theorem WellFormed.succs_eq (hg : g.WellFormed) {b t : BlockId} {block : Block} {e : EdgeId}
    (hb : g.block? b = some block) (hd : block.kind.directions = [.always])
    (he : g.edge? e = some ⟨b, t, .always⟩) : block.succs = [e] := by
  have hk := kind?_of_block? hb
  have hmem : ∀ e', e' ∈ block.succs ↔ e' ∈ [e] := by
    intro e'
    rw [hg.listed.mem_succs hb, List.mem_singleton]
    constructor
    · rintro ⟨⟨_, t', d⟩, he', rfl⟩
      have hd' := (hg.wired.ways hk (hg.kind_ne_exit he' hk) d).mp ⟨e', t', he'⟩
      rw [hd, List.mem_singleton] at hd'
      subst hd'
      exact hg.edge_unique he' he
    · rintro rfl
      exact ⟨_, he, rfl⟩
  exact List.perm_singleton.mp ((List.perm_ext_iff_of_nodup (hg.listed.nodup_succs hb)
    (List.nodup_singleton e)).mpr hmem)

theorem WellFormed.onwardEdge_eq_ok (hg : g.WellFormed) {b t : BlockId} {block : Block} {e : EdgeId}
    (hb : g.block? b = some block) (hd : block.kind.directions = [.always])
    (he : g.edge? e = some ⟨b, t, .always⟩) : g.onwardEdge b = .ok e := by
  rw [onwardEdge, bind_of_ok (block_eq_ok hb), hg.succs_eq hb hd he]
  rfl

theorem WellFormed.directedEdge_eq_ok (hg : g.WellFormed) {b t : BlockId} {block : Block}
    {e : EdgeId} {d : Direction} (hb : g.block? b = some block) (hk : block.kind.isBranch = true)
    (he : g.edge? e = some ⟨b, t, d⟩) : g.directedEdge b d = .ok e := by
  have hl := hg.leads_iff.mpr he
  simp only [leads, hb, Option.bind_eq_bind, Option.bind_some, Option.bind_eq_some_iff,
    Option.pure_def, Option.some.injEq, Prod.mk.injEq] at hl
  obtain ⟨e', hfind, _, -, heq, -⟩ := hl
  rw [heq] at hfind
  rw [directedEdge, block_eq_ok hb]
  show (if block.kind.isBranch then _ else _) = _
  rw [if_pos hk, findM?_edge_eq (hg.listed.succs_live hb), hfind]
  rfl

theorem bypassedPhis_empty (link : EdgeId) (pairs : List (EdgeId × EdgeId)) (others : List EdgeId) :
    bypassedPhis .empty .empty link pairs others = .empty := rfl

section
variable (hg : g.WellFormed) (hp : g.PhiFree) (hr : g.Reached)
include hg hr

/-- Every block but the terminal ones is entered. -/
theorem Reached.preds_ne_nil {b : BlockId} {block : Block} (hb : g.block? b = some block)
    (hk : block.kind.isTerminal = false) : block.preds ≠ [] := by
  have hkind := kind?_of_block? hb
  have hexit : block.kind ≠ .exit := fun hx => by rw [hx] at hk; cases hk
  have hentry : block.kind ≠ .entry := fun hx => by rw [hx] at hk; cases hk
  obtain ⟨a, -, e, d, he⟩ :=
    (hg.reachable_of_kind? hr hkind hexit).pred (hg.ne_entry hkind hentry)
  exact List.ne_nil_of_mem ((hg.listed.mem_preds hb e).mpr ⟨_, he, rfl⟩)

/-- A block that nothing leads to any more can be removed. -/
theorem LeadsPast.tidies {g₁ : Graph} {x : BlockId} (hx : g.kind? x = some .empty)
    (h : LeadsPast g g₁ x) (hclosed : ∀ {e a d}, g₁.edge? e ≠ some ⟨a, x, d⟩)
    (hcontracts : ∃ onto, Contracts g (g₁.removeBlock x) onto) : Tidies g (g₁.removeBlock x) := by
  have hgone : ∀ b, b ∈ g₁.unreachable ↔ b = x := by
    intro b
    rw [h.wellFormed.mem_unreachable]
    constructor
    · rintro ⟨⟨block, hb⟩, hne, hnot⟩
      by_contra hbx
      have hk := (h.kind?_eq b).symm.trans (kind?_of_block? hb)
      obtain ⟨block', hb', -⟩ := block?_of_kind? hk
      exact hnot (h.reachable hbx ((hr hb').resolve_left hne))
    · rintro rfl
      obtain ⟨block, hb, -⟩ := block?_of_kind? ((h.kind?_eq b).trans hx)
      refine ⟨⟨block, hb⟩, hg.ne_exit hx nofun, fun hreach => ?_⟩
      obtain ⟨a, -, e, d, he⟩ := hreach.pred (hg.ne_entry hx nofun)
      exact hclosed he
  have hrestricts : Restricts g₁ (g₁.removeBlock x) (· ∈ g₁.unreachable) := by
    simpa only [hgone] using h.wellFormed.listed.removeBlock x
  have htidies := hrestricts.tidies h.wellFormed h.phiFree
  exact ⟨htidies.wellFormed, htidies.phiFree, htidies.reached,
    fun {b _} hk => (h.kind?_eq b).symm.trans (htidies.kind?_eq hk), h.order.trans htidies.order,
    hcontracts, fun I m => (h.behaves I m).trans (htidies.behaves I m)⟩

include hp

/-- **Taking out an empty block** that leads elsewhere. -/
theorem tidies_bypass {x s : BlockId} {link : EdgeId} (hx : g.kind? x = some .empty)
    (hlink : g.edge? link = some ⟨x, s, .always⟩) (hsx : s ≠ x) :
    ∃ g', (g.bypass x).outcome = .ok g' ∧ Tidies g g' ∧ g'.kind? x = none := by
  obtain ⟨old, hold, hkind⟩ := block?_of_kind? hx
  obtain ⟨succ, hsucc⟩ : ∃ succ, g.block? s = some succ := hg.listed.target_live hlink
  have hsuccs : old.succs = [link] := hg.succs_eq hold (by rw [hkind]; rfl) hlink
  have hpreds : old.preds ≠ [] := Reached.preds_ne_nil hg hr hold (by rw [hkind]; rfl)
  have hinto : ∀ e ∈ old.preds, ∃ a d, g.edge? e = some ⟨a, x, d⟩ := by
    intro e he
    obtain ⟨⟨a, _, d⟩, hedge, rfl⟩ := (hg.listed.mem_preds hold e).mp he
    exact ⟨a, d, hedge⟩
  obtain ⟨hpast, hleft⟩ :=
    LeadsPast.redirectAll hg hp hx hlink hsx (hg.listed.nodup_preds hold) hinto
  -- No edge leads into the block any more.
  have hclosed : ∀ {e a d}, (g.redirectAll s old.preds).2.edge? e ≠ some ⟨a, x, d⟩ := fun he =>
    (hleft he).2 ((hg.listed.mem_preds hold _).mpr ⟨_, (hleft he).1, rfl⟩)
  have hcontracts : ∃ onto, Contracts g ((g.redirectAll s old.preds).2.removeBlock x) onto := by
    refine ⟨_, hpast.contracts hg hx hlink hsx (fun {e a t d} he => ?_) hclosed⟩
    rcases (edge?_redirectAll hsx (hg.listed.nodup_preds hold) hinto).mp he with
      ⟨he, -⟩ | ⟨e', _, _, -, he', heq⟩
    · exact ⟨e, t, he, .inl rfl⟩
    · cases heq
      exact ⟨e', x, he', .inr ⟨rfl, rfl⟩⟩
  have htidies := LeadsPast.tidies hg hr hx hpast hclosed hcontracts
  have hremoved : ((g.redirectAll s old.preds).2.removeBlock x).kind? x = none := by
    rw [kind?, (hpast.wellFormed.listed.removeBlock x).block?_of_gone rfl]
    rfl
  refine ⟨_, ?_, htidies, hremoved⟩
  have hstays : ((g.redirectAll s old.preds).2.removeBlock x).kind? s = some succ.kind := by
    rw [(hpast.wellFormed.listed.removeBlock x).kind?_of_left hsx, hpast.kind?_eq,
      kind?_of_block? hsucc]
  obtain ⟨succ', hsucc', -⟩ := block?_of_kind? hstays
  have hphis : (g.redirectAll s old.preds).2.modifyBlock s (fun b => { b with
      phis := bypassedPhis b.phis old.phis link (g.redirectAll s old.preds).1
        (succ.preds.filter (· ≠ link)) }) = (g.redirectAll s old.preds).2 := by
    refine modifyBlock_eq_self fun {block} hb => ?_
    rw [hpast.phiFree hb, hp hold, bypassedPhis_empty, ← hpast.phiFree hb]
  have honward := hg.onwardEdge_eq_ok hold (by rw [hkind]; rfl) hlink
  rw [Graph.bypass, Run.outcome_liftM_bind (block_eq_ok hold)]
  simp only [hkind, hsuccs, Kind.isTerminal, Kind.isBranch, Bool.false_eq_true, if_false,
    List.isEmpty_cons]
  rw [Run.outcome_liftM_bind honward, Run.outcome_liftM_bind (edge_eq_ok hlink)]
  simp only [if_neg hsx, List.isEmpty_iff, hpreds, if_false]
  obtain ⟨hreroute, hdiscard⟩ := hg.listed.rerouteAll_preds hold hsucc
  rw [Run.outcome_liftM_bind (block_eq_ok hsucc), Run.outcome_liftM_bind hreroute]
  rw [Run.outcome_bind_of_ok (Run.outcome_report _), Run.outcome_liftM_bind (hdiscard _), hphis]
  exact htidies.phiFree.simplifySolo hsucc'

/-! ### Passes -/

omit hr hp in
theorem loopsOnItself_eq_ok {b : BlockId} {block : Block} (hb : g.block? b = some block) :
    ∃ loops, g.loopsOnItself b = .ok loops ∧ (loops = false → block.kind.directions = [.always] →
      ∃ e t, g.edge? e = some ⟨b, t, .always⟩ ∧ t ≠ b) := by
  rw [loopsOnItself, bind_of_ok (block_eq_ok hb)]
  split
  · rename_i e hsuccs
    have hin : e ∈ block.succs := by rw [hsuccs]; exact List.mem_singleton.mpr rfl
    obtain ⟨⟨_, t, d⟩, he, rfl⟩ := (hg.listed.mem_succs hb e).mp hin
    refine ⟨decide (t = _), by rw [edge_eq_ok he]; rfl, fun hne hd => ⟨e, t, ?_, ?_⟩⟩
    · have hk := kind?_of_block? hb
      have hd' := (hg.wired.ways hk (hg.kind_ne_exit he hk) d).mp ⟨e, t, he⟩
      rw [hd, List.mem_singleton] at hd'
      rw [← hd', he]
    · exact of_decide_eq_false hne
  · rename_i hsuccs
    refine ⟨false, rfl, fun _ hd => ?_⟩
    have hne : block.kind ≠ .exit := fun hx => by rw [hx] at hd; cases hd
    obtain ⟨e, t, he⟩ := (hg.wired.ways (kind?_of_block? hb) hne .always).mpr (by rw [hd]; decide)
    exact absurd (hg.succs_eq hb hd he) (hsuccs e)

omit hp in
/-- Only an empty block that leads elsewhere is taken out. -/
theorem isIdle_eq_ok {b : BlockId} {block : Block} (hb : g.block? b = some block) :
    ∃ idle, g.isIdle b = .ok idle ∧ (idle = true →
      ∃ e t, block.kind = .empty ∧ g.edge? e = some ⟨b, t, .always⟩ ∧ t ≠ b) := by
  obtain ⟨loops, hloops, helse⟩ := loopsOnItself_eq_ok hg hb
  have hlook : g.isIdle b = if block.kind.isTerminal || !block.phis.isEmpty || loops then
        .ok false
      else if block.kind.isBranch then
        if block.preds.isEmpty || block.succs.isEmpty then .error (.branchLostEdges b)
        else .ok false
      else .ok (block.preds.isEmpty || block.succs.isEmpty || block.kind = .empty) := by
    rw [isIdle, block_eq_ok hb]
    show (g.loopsOnItself b >>= fun loops => _) = _
    rw [hloops]
    rfl
  rw [hlook]
  split
  · exact ⟨false, rfl, nofun⟩
  · rename_i hcond
    simp only [Bool.or_eq_true, not_or, Bool.not_eq_true] at hcond
    obtain ⟨⟨hterm, -⟩, hloops⟩ := hcond
    -- Nothing of the block is missing.
    have hpreds : block.preds.isEmpty = false :=
      List.isEmpty_eq_false_iff.mpr (Reached.preds_ne_nil hg hr hb hterm)
    have hne : block.kind ≠ .exit := fun hx => by rw [hx] at hterm; cases hterm
    have hsuccs : block.succs.isEmpty = false := by
      obtain ⟨d, hd⟩ : ∃ d, d ∈ block.kind.directions := by
        cases hk : block.kind with
        | exit => exact absurd hk hne
        | branch br => exact ⟨.onTrue, List.mem_cons_self⟩
        | _ => exact ⟨.always, List.mem_cons_self⟩
      obtain ⟨e, t, he⟩ := (hg.wired.ways (kind?_of_block? hb) hne d).mpr hd
      exact List.isEmpty_eq_false_iff.mpr
        (List.ne_nil_of_mem ((hg.listed.mem_succs hb e).mpr ⟨_, he, rfl⟩))
    rw [hpreds, hsuccs]
    split
    · exact ⟨false, rfl, nofun⟩
    · refine ⟨_, rfl, fun hempty => ?_⟩
      have hk : block.kind = .empty := by simpa using hempty
      obtain ⟨e, t, he, hne⟩ := helse hloops (by rw [hk]; rfl)
      exact ⟨e, t, hk, he, hne⟩

omit hr in
/-- An empty block is taken out unless it leads to itself. -/
theorem isIdle_of_empty {b s : BlockId} {link : EdgeId} (hk : g.kind? b = some .empty)
    (hlink : g.edge? link = some ⟨b, s, .always⟩) : g.isIdle b = .ok (decide (s ≠ b)) := by
  obtain ⟨block, hb, hkind⟩ := block?_of_kind? hk
  have hloops : g.loopsOnItself b = .ok (decide (s = b)) := by
    rw [loopsOnItself, bind_of_ok (block_eq_ok hb), hg.succs_eq hb (by rw [hkind]; rfl) hlink]
    show (g.edge link >>= fun edge => _) = _
    rw [edge_eq_ok hlink]
    rfl
  rw [isIdle, bind_of_ok (block_eq_ok hb), bind_of_ok hloops, hkind, hp hb]
  by_cases hs : s = b
  · simp [hs, pure, Except.pure]
  · simp [hs, Kind.isTerminal, Kind.isBranch, pure, Except.pure]

/-- **One step of a pass.** -/
theorem tidies_tidyAt (count : Nat) (b : BlockId) :
    ∃ count' g', (tidyAt (count, g) b).outcome = .ok (count', g') ∧ Tidies g g' ∧
      g'.SettledAt b := by
  cases hb : g.block? b with
  | none =>
    have hlive : g.isLive b = false := by rw [isLive, hb]; rfl
    refine ⟨count, g, ?_, .refl hg hp hr, fun hk => ?_⟩
    · simp only [tidyAt, hlive]
      rfl
    · rw [kind?, hb] at hk
      cases hk
  | some block =>
    have hlive : g.isLive b = true := by rw [isLive, hb]; rfl
    obtain ⟨idle, hidle, helse⟩ := isIdle_eq_ok hg hr hb
    rw [tidyAt, if_pos hlive, Run.outcome_liftM_bind hidle]
    cases idle with
    | false =>
      refine ⟨count, g, rfl, .refl hg hp hr, fun hk t ht => ?_⟩
      obtain ⟨link, s, hlink⟩ := (hg.wired.ways hk Kind.noConfusion .always).mpr List.mem_cons_self
      rw [isIdle_of_empty hg hp hk hlink, Except.ok.injEq] at hidle
      rw [hg.eq_of_leads_empty hk hlink ht]
      simpa using hidle
    | true =>
      obtain ⟨e, t, hk, he, hne⟩ := helse rfl
      obtain ⟨g', hg', htidies, hremoved⟩ :=
        tidies_bypass hg hp hr (hk ▸ kind?_of_block? hb) he hne
      refine ⟨count + 1, g', ?_, htidies, fun hk' => ?_⟩
      · rw [if_pos rfl, Run.outcome_bind_of_ok hg']
        rfl
      · rw [hremoved] at hk'
        cases hk'

end

/-- **One pass.** -/
theorem tidies_foldlM (bs : List BlockId) (count : Nat) (hg : g.WellFormed) (hp : g.PhiFree)
    (hr : g.Reached) :
    ∃ count' g', (bs.foldlM tidyAt (count, g)).outcome = .ok (count', g') ∧ Tidies g g' ∧
      ∀ b ∈ bs, g'.SettledAt b := by
  induction bs generalizing g count with
  | nil => exact ⟨count, g, rfl, .refl hg hp hr, nofun⟩
  | cons b bs ih =>
    obtain ⟨count₁, g₁, h₁, htidies₁, hb⟩ := tidies_tidyAt hg hp hr count b
    obtain ⟨count₂, g₂, h₂, htidies₂, hbs⟩ :=
      ih count₁ htidies₁.wellFormed htidies₁.phiFree htidies₁.reached
    refine ⟨count₂, g₂, ?_, htidies₁.trans hg htidies₂,
      List.forall_mem_cons.mpr ⟨htidies₂.settledAt hb, hbs⟩⟩
    rw [List.foldlM_cons, Run.outcome_bind_of_ok h₁, h₂]

/-- A pass looks at every block, so it leaves none that could be taken out. -/
theorem settles_tidyPass (hg : g.WellFormed) (hp : g.PhiFree) (hr : g.Reached) :
    ∃ count g', g.tidyPass.outcome = .ok (count, g') ∧ Tidies g g' ∧ g'.Settled := by
  obtain ⟨count, g', h, htidies, hsettled⟩ := tidies_foldlM g.blockIds 0 hg hp hr
  refine ⟨count, g', h, htidies, fun b hk => ?_⟩
  obtain ⟨block, hb, -⟩ := block?_of_kind? (htidies.kind?_eq hk)
  exact hsettled b (hg.listed.mem_blockIds.mpr ⟨block, hb⟩) hk

theorem tidies_tidyPasses (fuel : Nat) (hg : g.WellFormed) (hp : g.PhiFree) (hr : g.Reached) :
    ∃ count g', (tidyPasses fuel g).outcome = .ok (count, g') ∧ Tidies g g' ∧
      (fuel ≠ 0 → g'.Settled) := by
  induction fuel generalizing g with
  | zero => exact ⟨0, g, rfl, .refl hg hp hr, fun hfuel => absurd rfl hfuel⟩
  | succ fuel ih =>
    obtain ⟨count₁, g₁, h₁, htidies₁, hsettled⟩ := settles_tidyPass hg hp hr
    rw [tidyPasses, Run.outcome_bind_of_ok h₁]
    by_cases hcount : count₁ = 0
    · refine ⟨0, g₁, ?_, htidies₁, fun _ => hsettled⟩
      simp only [if_pos hcount]
      rfl
    · obtain ⟨count₂, g₂, h₂, htidies₂, -⟩ :=
        ih htidies₁.wellFormed htidies₁.phiFree htidies₁.reached
      refine ⟨count₁ + count₂, g₂, ?_, htidies₁.trans hg htidies₂,
        fun _ b => htidies₂.settledAt (hsettled b)⟩
      simp only [if_neg hcount]
      rw [Run.outcome_bind_of_ok h₂]
      rfl

/-- **Tidying leaves no block that could be taken out.** -/
theorem WellFormed.settles_tidy (hg : g.WellFormed) (hp : g.PhiFree) :
    ∃ count g', g.tidy.outcome = .ok (count, g') ∧ Tidies g g' ∧ g'.Settled := by
  obtain ⟨g₁, h₁, hrestricts, -⟩ := hg.pruneUnreachable hp
  have htidies₁ := hrestricts.tidies hg hp
  obtain ⟨count₂, g₂, h₂, htidies₂, hsettled⟩ := tidies_tidyPasses (g₁.blocks.size + 1)
    htidies₁.wellFormed htidies₁.phiFree htidies₁.reached
  refine ⟨g.unreachable.length + count₂, g₂, ?_, htidies₁.trans hg htidies₂,
    hsettled (Nat.succ_ne_zero _)⟩
  rw [Graph.tidy, Run.outcome_bind_of_ok h₁]
  simp only
  rw [Run.outcome_bind_of_ok h₂]
  simp only
  split
  · rfl
  · rfl

/-- **Tidying a well-formed graph** without phi functions succeeds and keeps its behaviour. -/
theorem WellFormed.tidies_tidy (hg : g.WellFormed) (hp : g.PhiFree) :
    ∃ count g', g.tidy.outcome = .ok (count, g') ∧ Tidies g g' := by
  obtain ⟨count, g', h, htidies, -⟩ := hg.settles_tidy hp
  exact ⟨count, g', h, htidies⟩

/-- What is left after tidying is connected. -/
theorem demandConnected_eq_ok (hg : g.WellFormed) (hr : g.Reached) :
    g.demandConnected = .ok () := by
  have hentered : g.checkEntered = .ok () := by
    rw [checkEntered, hg.checked]
    refine forM_eq_ok.mpr fun block hblock => demand_eq_ok.mpr ?_
    obtain ⟨b, hb⟩ := mem_liveBlocks.mp hblock
    cases hk : block.kind.isTerminal with
    | true => rfl
    | false =>
      have hpreds := List.isEmpty_eq_false_iff.mpr (Reached.preds_ne_nil hg hr hb hk)
      rw [hpreds]
      rfl
  rw [demandConnected, hentered]

end Graph

namespace Routine

/-- A routine is tidied by tidying its graph. -/
theorem tidy_eq_ok {r : Routine} {count : Nat} {g' : Graph}
    (h : r.graph.tidy.outcome = .ok (count, g')) (htidies : r.graph.Tidies g') :
    r.tidy.outcome = .ok (count, r.withGraph g') := by
  rw [Routine.tidy, Run.outcome_bind_of_ok h, Run.outcome_liftM_bind
    (Graph.demandConnected_eq_ok htidies.wellFormed htidies.reached)]
  rfl

/-- **Tidying a routine.** -/
theorem tidy_spec {r : Routine} (hg : r.graph.WellFormed) (hp : r.graph.PhiFree) :
    ∃ count g', r.tidy.outcome = .ok (count, r.withGraph g') ∧ r.graph.Tidies g' := by
  obtain ⟨count, g', h, htidies⟩ := hg.tidies_tidy hp
  exact ⟨count, g', tidy_eq_ok h htidies, htidies⟩

end Routine
end FlowGraph
