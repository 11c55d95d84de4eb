import FlowGraph.Proofs.Inheritance

/-! # Taking an empty block out of a converted graph

When an empty block is taken out, its phi functions go to its successor.  One for which the
successor has no phi function of its own moves there, and takes its own variable along the other
edges that enter the successor.  One for which it has is dropped, and the phi function of the
successor takes its arguments.

In general neither is sound: along the other edges the moved variable may have no value yet, and the
dropped one may be used elsewhere.  In a graph that was just converted both are (`Relays`).  A block
with a phi function that does not dominate its successor has that successor on its frontier, so the
successor has one too; and if the successor has one, the version that the block puts in force ends
there.
-/
namespace FlowGraph
namespace Graph

variable {g : Graph}

/-! ### A block with one way out -/

section
variable {x s c : BlockId} (honly : ∀ {t}, g.Leads x t → t = s)
include honly

/-- A route that goes on from the block goes on to its successor. -/
theorem Route.goes_on {p : List BlockId} (h : g.Route p c) (hx : x ∈ p) (hne : x ≠ c) :
    ∃ q, g.Route q x ∧ (s :: q) <:+ p := by
  induction h with
  | start => exact absurd (List.mem_singleton.mp hx) hne
  | @step p a c hp hl ih =>
    have hx : x ∈ p := (List.mem_cons.mp hx).resolve_left hne
    by_cases hxa : x = a
    · subst hxa
      cases honly hl
      exact ⟨p, hp, List.suffix_refl _⟩
    · obtain ⟨q, hq, hsuffix⟩ := ih hx hxa
      exact ⟨q, hq, hsuffix.trans (List.suffix_cons c p)⟩

/-- **What a block with one way out dominates** is dominated by its successor, the block left aside.
-/
theorem Dominates.of_only_way (h : g.Dominates x c) (hne : x ≠ c) : g.Dominates s c := by
  intro p hp
  obtain ⟨q, -, hsuffix⟩ := hp.goes_on honly (h p hp) hne
  exact hsuffix.subset List.mem_cons_self

/-- If there is such a block, the successor is one. -/
theorem Dominates.only_way (hg : g.WellFormed) (h : g.Dominates x c) (hne : x ≠ c)
    (hc : g.Reachable c) : g.Dominates x s := by
  refine (Dominance.dominates_total hg hc h (h.of_only_way honly hne)).resolve_right fun hsx => ?_
  -- A route without detours does not come back to the successor before the block.
  obtain ⟨p₀, hp₀⟩ := hc
  obtain ⟨p, hp, hnodup, -⟩ := hp₀.simple
  obtain ⟨q, hq, hsuffix⟩ := hp.goes_on honly (h p hp) hne
  exact (List.nodup_cons.mp (hsuffix.sublist.nodup hnodup)).1 (hsx q hq)

end

theorem SingleAssignment.versioned_of_defines (h : g.SingleAssignment) {site : Site} {v : Var}
    (hdef : g.Defines site v) : ∃ name n, v = .versioned name n ∧ 0 < n ∧ g.Occurs v := by
  have hocc : g.Occurs v := by
    cases hdef with
    | statement hk hv => exact occurs_of_def hk hv
    | phi hp => exact occurs_iff.mpr (.inl ⟨_, _, _, hp, .inl rfl⟩)
  obtain ⟨name, version⟩ := v
  obtain ⟨n, rfl⟩ := Option.isSome_iff_exists.mp (h.versioned hocc)
  refine ⟨name, n, rfl, Nat.pos_of_ne_zero ?_, hocc⟩
  rintro rfl
  exact h.initial name site hdef

/-- A variable has no two definitions. -/
theorem SingleAssignment.unique (h : g.SingleAssignment) {site site' : Site} {v : Var}
    (hdef : g.Defines site v) (hdef' : g.Defines site' v) : site' = site := by
  obtain ⟨name, n, rfl, hn, hocc⟩ := h.versioned_of_defines hdef
  exact (h.defined hocc hn).unique hdef' hdef

/-! ### What phi functions take -/

/-- An empty block is left in any case. -/
theorem WellFormed.exists_link (hg : g.WellFormed) {b s : BlockId} (hk : g.kind? b = some .empty)
    (hl : g.Leads b s) : ∃ link, g.edge? link = some ⟨b, s, .always⟩ := by
  obtain ⟨e, d, he⟩ := hl
  cases List.mem_singleton.mp ((hg.wired.ways hk Kind.noConfusion d).mp ⟨e, s, he⟩)
  exact ⟨e, he⟩

section
variable {x s : BlockId} {link : EdgeId} {old succ : Block} (hx : g.EmptyBefore x s link old succ)
include hx

theorem EmptyBefore.leads_eq {t : BlockId} (h : g.Leads x t) : t = s := by
  obtain ⟨e, d, he⟩ := h
  cases hx.eq_link he
  cases hx.link_eq.symm.trans he
  rfl

/-- **What a phi function takes on an edge** once the block is led past, in terms of before. -/
inductive Relayed (g : Graph) (x s : BlockId) (link e : EdgeId) (a : BlockId)
    (name : String) (v : Var) :
    BlockId → Prop
  /-- What it took on the edge. -/
  | kept {b : BlockId} {d : Direction} {p : Phi} : g.edge? e = some ⟨a, b, d⟩ → a ≠ x →
      g.phi? b name = some p → p.arg? e = some v → Relayed g x s link e a name v b
  /-- Its own variable, if it moved. -/
  | own {d : Direction} {p : Phi} : g.edge? e = some ⟨a, s, d⟩ → a ≠ x → g.phi? s name = none →
      g.phi? x name = some p → v = Phis.lhs name p → Relayed g x s link e a name v s
  /-- What the phi function of the block took on an edge that entered it. -/
  | passed {o : EdgeId} {d : Direction} {p : Phi} : g.edge? o = some ⟨a, x, d⟩ →
      g.phi? x name = some p → p.arg? o = some v → Relayed g x s link e a name v s
  /-- What the phi function of the successor took on the edge between the two. -/
  | linked {o : EdgeId} {d : Direction} {q : Phi} : g.edge? o = some ⟨a, x, d⟩ →
      g.phi? x name = none → g.phi? s name = some q → q.arg? link = some v →
      Relayed g x s link e a name v s

/-- **The phi functions of a block may be handed on** to its successor. -/
structure Relays (g : Graph) (x s : BlockId) (link : EdgeId) : Prop where
  arg_name : ∀ {b name p e v}, g.phi? b name = some p → p.arg? e = some v → v.name = name
  moved : ∀ {name p}, g.phi? x name = some p → g.phi? s name = none → g.Dominates x s
  arg_link : ∀ {name p q}, g.phi? x name = some p → g.phi? s name = some q →
    q.arg? link = some (Phis.lhs name p)
  unused : ∀ {name p q b k}, g.phi? x name = some p → g.phi? s name = some q → g.kind? b = some k →
    Phis.lhs name p ∉ k.uses
  only_link : ∀ {name p q b name' p' e}, g.phi? x name = some p → g.phi? s name = some q →
    g.phi? b name' = some p' → p'.arg? e = some (Phis.lhs name p) → e = link

end

section
variable {x s : BlockId} {link : EdgeId} {old succ : Block} (hx : g.EmptyBefore x s link old succ)
  (hr : g.Relays x s link) (hc : g.PhisComplete)
include hx hr hc

/-- On an edge that was led past the block, a phi function of the successor takes what that of the
block took, if there is one. -/
theorem Relays.passedValue_cases {o : EdgeId} {a : BlockId} {d : Direction} {name : String}
    {q : Phi} {v : Var} (ho : g.edge? o = some ⟨a, x, d⟩) (hq : g.phi? s name = some q)
    (hv : passedValue name q (g.phi? x name) link o = some v) :
    (g.phi? x name = none ∧ q.arg? link = some v) ∨
      ∃ p, g.phi? x name = some p ∧ p.arg? o = some v := by
  cases hp : g.phi? x name with
  | none =>
    rw [hp] at hv
    cases hw : q.arg? link with
    | none => simp only [passedValue, hw, reduceCtorEq] at hv
    | some w =>
      simp only [passedValue, hw] at hv
      exact .inl ⟨rfl, hv⟩
  | some p =>
    have hin := (hx.wellFormed.listed.mem_preds hx.block_eq o).mpr ⟨_, ho, rfl⟩
    obtain ⟨w, hw⟩ := hc hx.block_eq ((phi?_of_block? hx.block_eq name).symm.trans hp) o hin
    simp only [passedValue, hp, hr.arg_link hp hq, if_true, hw, Option.getD_some] at hv
    exact .inr ⟨p, rfl, hw.trans hv⟩

/-- **Phi functions take what is handed on.** -/
theorem Relays.relayed {b a : BlockId} {name : String} {p' : Phi} {e : EdgeId} {d : Direction}
    {v : Var} (hp' : (g.leadPast x s link old succ).phi? b name = some p') (hv : p'.arg? e = some v)
    (he : (g.leadPast x s link old succ).edge? e = some ⟨a, b, d⟩) :
    Relayed g x s link e a name v b := by
  have hgiven := (hx.given_leadPast he _).symm.trans (given_of_phi? hp' hv)
  obtain ⟨p, hp, -, hv⟩ := phi?_of_given hgiven
  obtain ⟨hax, hbx, hcases⟩ := hx.edge?_leadPast_cases he
  by_cases hbs : b = s
  · subst hbs
    rw [hx.phi?_detour_self, Option.or_eq_some_iff, Option.map_eq_some_iff, Option.map_eq_none_iff,
      Option.map_eq_some_iff] at hp
    rcases hcases with he | ⟨-, o, hin, ho⟩
    · -- The edge entered the successor all along.
      have hpred := (hx.wellFormed.listed.mem_preds hx.succ_eq e).mpr ⟨_, he, rfl⟩
      rcases hp with ⟨q, hq, rfl⟩ | ⟨hnone, q, hq, rfl⟩
      · rw [arg?_mergedPhi_other fun o hnew => hx.new_notMem hnew hpred] at hv
        exact .kept he hax hq hv
      · have hother : e ∈ succ.preds.filter (· ≠ link) :=
          List.mem_filter.mpr ⟨hpred, decide_eq_true (hx.ne_link he hax)⟩
        rw [arg?_movedPhi_other hother] at hv
        exact .own he hax hnone hq (Option.some.inj hv).symm
    · -- The edge was led past the block, so phi functions of before have no argument for it.
      rcases hp with ⟨q, hq, rfl⟩ | ⟨hnone, q, hq, rfl⟩
      · have hfresh : q.arg? e = none := by
          refine Option.eq_none_iff_forall_ne_some.mpr fun w hw => hx.new_notMem hin ?_
          exact hx.wellFormed.listed.args_enter hx.succ_eq
            ((phi?_of_block? hx.succ_eq name).symm.trans hq) hw
        rw [arg?_mergedPhi_new hin (hx.old_unique hin) hfresh] at hv
        rcases hr.passedValue_cases hx hc ho hq hv with ⟨hnone, hv⟩ | ⟨p, hp, hv⟩
        · exact .linked ho hnone hq hv
        · exact .passed ho hp hv
      · rw [arg?_movedPhi_new hin (hx.old_unique hin) fun hother =>
          hx.new_notMem hin (List.mem_of_mem_filter hother)] at hv
        exact .passed ho hq hv
  · rw [hx.phi?_detour hbx hbs] at hp
    exact .kept (hcases.resolve_right fun h => hbs h.1) hax hp hv

/-! ### Definitions -/

omit hr hc in
/-- **A definition** is one of before, or one that moved from the block to its successor. -/
theorem EmptyBefore.defines_leadPast_iff {site : Site} {v : Var} :
    (g.leadPast x s link old succ).Defines site v ↔ g.Defines site v ∧ site.block ≠ x ∨
      site = .phi s v ∧ g.Defines (.phi x v) v ∧ g.phi? s v.name = none := by
  have hgone : ∀ name, (g.leadPast x s link old succ).phi? x name = none := by
    intro name
    rw [leadPast_eq hx.ne, phi?, (hx.wellFormed_detour.listed.removeBlock x).block?_of_gone rfl]
    rfl
  cases site with
  | statement b =>
    constructor
    · intro hdef
      cases hdef with
      | statement hk hv =>
        obtain ⟨hbx, hk⟩ := hx.bypassed.kind?_iff.mp hk
        exact .inl ⟨.statement hk hv, hbx⟩
    · rintro (⟨hdef, hbx⟩ | ⟨heq, -⟩)
      · cases hdef with
        | statement hk hv => exact .statement (hx.bypassed.kind?_iff.mpr ⟨hbx, hk⟩) hv
      · cases heq
  | branch b =>
    constructor
    · intro hdef
      cases hdef
    · rintro (⟨hdef, -⟩ | ⟨heq, -⟩)
      · cases hdef
      · cases heq
  | phi b w =>
    simp only [defines_phi_iff, Site.phi.injEq, Site.block, true_and]
    by_cases hbx : b = x
    · subst hbx
      simp [hgone, Ne.symm hx.ne]
    · rw [hx.version_leadPast hbx]
      by_cases hbs : b = s
      · subst hbs
        cases hp : g.phi? b v.name with
        | some p => simp [hbx]
        | none =>
          simp only [Option.none_or, if_true, Option.map_none, reduceCtorEq, and_false, false_and,
            false_or, true_and, and_true]
          exact and_congr_left fun _ => eq_comm
      · simp [hbs, hbx]

omit hr hc in
/-- What is defined in the block is defined by a phi function. -/
theorem EmptyBefore.phi_of_defines {site : Site} {v : Var} (hdef : g.Defines site v)
    (hsite : site.block = x) : ∃ p, g.phi? x v.name = some p ∧ Phis.lhs v.name p = v := by
  cases hdef with
  | @statement b _ _ hk =>
    have hbx : b = x := hsite
    rw [hbx, hx.kind?_eq] at hk
    cases hk
  | @phi b name p hp =>
    have hbx : b = x := hsite
    exact ⟨p, hbx ▸ hp, rfl⟩

variable (hssa : g.SingleAssignment)
include hssa

omit hr hc in
/-- **A dropped variable** is defined nowhere any more. -/
theorem EmptyBefore.ne_of_defines {site : Site} {v : Var} {name : String} {p q : Phi}
    (hdef : (g.leadPast x s link old succ).Defines site v) (hp : g.phi? x name = some p)
    (hq : g.phi? s name = some q) : v ≠ Phis.lhs name p := by
  rintro rfl
  rcases hx.defines_leadPast_iff.mp hdef with ⟨hold, hne⟩ | ⟨-, -, hnone⟩
  · cases hssa.unique hold (.phi hp)
    exact hne rfl
  · rw [Phis.lhs, hq] at hnone
    cases hnone

/-- **What occurs** occurred before, and is not dropped. -/
theorem Relays.occurs_leadPast {v : Var} (h : (g.leadPast x s link old succ).Occurs v) :
    g.Occurs v ∧ ∀ {name p q}, g.phi? x name = some p → g.phi? s name = some q →
      v ≠ Phis.lhs name p := by
  have hdefined : ∀ {site}, (g.leadPast x s link old succ).Defines site v → g.Occurs v ∧
      ∀ {name p q}, g.phi? x name = some p → g.phi? s name = some q → v ≠ Phis.lhs name p := by
    intro site hdef
    refine ⟨?_, hx.ne_of_defines hssa hdef⟩
    obtain ⟨site₀, hdef₀⟩ : ∃ site₀, g.Defines site₀ v := by
      rcases hx.defines_leadPast_iff.mp hdef with ⟨hold, -⟩ | ⟨-, hold, -⟩
      · exact ⟨_, hold⟩
      · exact ⟨_, hold⟩
    obtain ⟨_, _, -, -, hocc⟩ := hssa.versioned_of_defines hdef₀
    exact hocc
  have hlisted := hx.bypassed.wellFormed.listed
  rcases occurs_iff.mp h with ⟨b, name, p', hp', hlhs | ⟨e, hv⟩⟩ | ⟨b, k, hk, hv | hv⟩
  · subst hlhs
    exact hdefined (.phi hp')
  · obtain ⟨block, hb, hget⟩ := Option.bind_eq_some_iff.mp hp'
    obtain ⟨⟨a, _, d⟩, he, rfl⟩ := (hlisted.mem_preds hb e).mp (hlisted.args_enter hb hget hv)
    have hocc : ∀ {b name p e}, g.phi? b name = some p → p.arg? e = some v →
        g.Occurs v := fun hp hv =>
      occurs_iff.mpr (.inl ⟨_, _, _, hp, .inr ⟨_, hv⟩⟩)
    cases hr.relayed hx hc hp' hv he with
    | kept he hax hp hv =>
      refine ⟨hocc hp hv, fun hp₀ hq₀ heq => hx.ne_link he hax ?_⟩
      exact hr.only_link hp₀ hq₀ hp (heq ▸ hv)
    | own he hax hnone hp heq =>
      subst heq
      refine ⟨occurs_iff.mpr (.inl ⟨_, _, _, hp, .inl rfl⟩), fun _ hq₀ heq => ?_⟩
      rw [(Var.mk.inj heq).1, hq₀] at hnone
      cases hnone
    | passed ho hp hv =>
      refine ⟨hocc hp hv, fun hp₀ hq₀ heq => hx.ne_link ho (hx.source_ne ho) ?_⟩
      exact hr.only_link hp₀ hq₀ hp (heq ▸ hv)
    | linked ho hnone hq hv =>
      refine ⟨hocc hq hv, fun hp₀ _ heq => ?_⟩
      rw [← hr.arg_name hq hv, heq, Phis.lhs, hp₀] at hnone
      cases hnone
  · cases k with
    | statement s => exact hdefined (.statement hk hv)
    | _ => cases hv
  · have hk := (hx.bypassed.kind?_iff.mp hk).2
    exact ⟨occurs_of_use hk hv, fun hp₀ hq₀ heq => hr.unused hp₀ hq₀ hk (heq ▸ hv)⟩

omit hc hssa in
/-- **A phi function that moves** takes its own variable along the other edges into the successor,
and the successor dominates their sources. -/
theorem Relays.exists_moved {name : String} {p : Phi} (hp : g.phi? x name = some p)
    (hnone : g.phi? s name = none) :
    ∃ p', (g.leadPast x s link old succ).phi? s name = some p' ∧
    Phis.lhs name p' = Phis.lhs name p ∧
      ∀ {e a d}, g.edge? e = some ⟨a, s, d⟩ → a ≠ x →
        (g.leadPast x s link old succ).edge? e = some ⟨a, s, d⟩ ∧
          p'.arg? e = some (Phis.lhs name p) ∧ (g.leadPast x s link old succ).Dominates s a := by
  have hversion := hx.version_leadPast hx.ne name
  rw [hnone, if_pos rfl, Option.none_or, hp, Option.map_some] at hversion
  obtain ⟨p', hp', hversion⟩ := Option.map_eq_some_iff.mp hversion
  have hlhs : Phis.lhs name p' = Phis.lhs name p := congrArg (Var.mk name) hversion
  refine ⟨p', hp', hlhs, fun {e a d} he hax => ?_⟩
  have he' := (hx.bypassed.kept he hax hx.ne).1
  refine ⟨he', ?_, ?_⟩
  · have hpred := (hx.wellFormed.listed.mem_preds hx.succ_eq e).mpr ⟨_, he, rfl⟩
    have hother : e ∈ succ.preds.filter (· ≠ link) :=
      List.mem_filter.mpr ⟨hpred, decide_eq_true (hx.ne_link he hax)⟩
    have hmoved := hx.phi?_detour_self name
    rw [hnone, hp, Option.map_none, Option.map_some, Option.none_or] at hmoved
    have hgiven := given_of_phi? hmoved (arg?_movedPhi_other hother)
    rw [lhs_movedPhi, ← hx.given_leadPast he'] at hgiven
    obtain ⟨p'', hp'', -, harg⟩ := phi?_of_given hgiven
    cases hp'.symm.trans hp''
    exact harg
  · have hxa : g.Dominates x a := (hr.moved hp hnone).pred hx.ne.symm ⟨e, d, he⟩
    exact hx.dominates_leadPast (hxa.of_only_way hx.leads_eq (Ne.symm hax)) hx.ne

omit hr hc hssa in
/-- A definition comes before what all definitions of the variable came before. -/
theorem EmptyBefore.dominates_site {site : Site} {v : Var} {b : BlockId}
    (hdef : (g.leadPast x s link old succ).Defines site v) (hbx : b ≠ x)
    (hdom : ∀ {site₀}, g.Defines site₀ v → g.Dominates site₀.block b) :
    (g.leadPast x s link old succ).Dominates site.block b := by
  rcases hx.defines_leadPast_iff.mp hdef with ⟨hold, hne⟩ | ⟨rfl, hold, -⟩
  · exact hx.dominates_leadPast (hdom hold) hne
  · -- The block dominates the use, so its successor does.
    exact hx.dominates_leadPast ((hdom hold).of_only_way hx.leads_eq (Ne.symm hbx)) hx.ne

/-- **Leading past the block** keeps single assignment form. -/
theorem Relays.singleAssignment : (g.leadPast x s link old succ).SingleAssignment := by
  have htakes :=
    hx.wellFormed.takesOut_rerouted hx.block_eq hx.isTerminal_eq hx.link_eq hx.ne hx.succ_eq
  have hg' := hx.bypassed.wellFormed
  constructor
  case versioned => exact fun h => hssa.versioned (hr.occurs_leadPast hx hc hssa h).1
  case defined =>
    intro name n hocc hn
    obtain ⟨hold, hkept⟩ := hr.occurs_leadPast hx hc hssa hocc
    obtain ⟨site, hsite, hunique⟩ := hssa.defined hold hn
    have hexists : ∃ site', (g.leadPast x s link old succ).Defines site' (.versioned name n) := by
      by_cases hne : site.block = x
      · -- The successor takes the definition over, as it has no phi function of the name.
        obtain ⟨p, hp, hlhs⟩ := hx.phi_of_defines hsite hne
        refine ⟨.phi s (.versioned name n), hx.defines_leadPast_iff.mpr (.inr ⟨rfl, ?_, ?_⟩)⟩
        · exact hlhs ▸ .phi hp
        · exact Option.eq_none_iff_forall_ne_some.mpr fun q hq => hkept hp hq hlhs.symm
      · exact ⟨site, hx.defines_leadPast_iff.mpr (.inl ⟨hsite, hne⟩)⟩
    obtain ⟨site', hsite'⟩ := hexists
    refine ⟨site', hsite', fun site'' hsite'' => ?_⟩
    rcases hx.defines_leadPast_iff.mp hsite' with ⟨h', hne'⟩ | ⟨rfl, h', -⟩ <;>
      rcases hx.defines_leadPast_iff.mp hsite'' with ⟨h'', hne''⟩ | ⟨rfl, h'', -⟩
    · exact hssa.unique h' h''
    · cases hssa.unique h'' h'
      exact absurd rfl hne'
    · cases hssa.unique h' h''
      exact absurd rfl hne''
    · rfl
  case initial =>
    intro name site hdef
    rcases hx.defines_leadPast_iff.mp hdef with ⟨hold, -⟩ | ⟨-, hold, -⟩
    · exact hssa.initial name _ hold
    · exact hssa.initial name _ hold
  case before_use =>
    intro b k v site hk hv hdef
    obtain ⟨hbx, hk⟩ := hx.bypassed.kind?_iff.mp hk
    refine ⟨hx.dominates_site hdef hbx fun hold => (hssa.before_use hk hv hold).1, fun hsite => ?_⟩
    rcases hx.defines_leadPast_iff.mp hdef with ⟨hold, -⟩ | ⟨rfl, -, -⟩
    · exact (hssa.before_use hk hv hold).2 hsite
    · cases hsite.symm.trans rfl
      exact ⟨v, rfl⟩
  case before_arg =>
    intro b name p' e v a d site hp' hv he hdef
    obtain ⟨hax, -⟩ := hx.edge?_leadPast_cases he
    refine hx.dominates_site hdef hax fun {site₀} hold => ?_
    cases hr.relayed hx hc hp' hv he with
    | kept he _ hp hv => exact hssa.before_arg hp hv he hold
    | @own d' _ he' _ hnone hp heq =>
      subst heq
      cases hssa.unique hold (.phi hp)
      exact (hr.moved hp hnone).pred hx.ne.symm ⟨e, d', he'⟩
    | passed ho hp hv => exact hssa.before_arg hp hv ho hold
    | @linked o d _ ho hnone hq hv =>
      -- The definition comes before the block and is not in it, so it comes before what leads
      -- there.
      refine (hssa.before_arg hq hv hx.link_eq hold).pred (fun hsite => ?_) ⟨o, d, ho⟩
      obtain ⟨p, hp, -⟩ := hx.phi_of_defines hold hsite
      rw [← hr.arg_name hq hv, hp] at hnone
      cases hnone
  case complete =>
    intro b block name p hb hp e
    exact hg'.listed.complete_iff.mpr (htakes.complete hc) hb hp e

end

/-! ### Graphs that were just converted -/

/-- Definitions do not meet where a single edge leads. -/
theorem Joins.not_solitary (hg : g.WellFormed) {name : String} {b : BlockId} (h : g.Joins name b) :
    ¬ g.Solitary b := by
  intro hsole
  have hfrontier : ∃ x, g.InFrontier x b := by
    cases h with
    | assigned _ _ _ _ hx => exact ⟨_, hx⟩
    | again _ hx => exact ⟨_, hx⟩
  obtain ⟨x, ⟨p, hp, hxp, e, d, he⟩, hnot⟩ := hfrontier
  have hentry : b ≠ entry := hg.wired.entry_closed he
  refine hnot ⟨hxp.trans (hsole.dominates hentry he), ?_⟩
  rintro rfl
  exact hsole.not_dominates hentry he (hsole.source_ne hentry he hp) (hp.step ⟨e, d, he⟩) hxp

end Graph

namespace Ssa

/-- A version in force was put in force lately, or was in force before. -/
theorem Versions.current_append_cases {gain env : Versions} {x : String} {n : Nat}
    (h : Versions.current (gain ++ env) x = .versioned x n) :
    (x, n) ∈ gain ∨ env.current x = .versioned x n := by
  rw [current, lookup_append] at h
  cases hl : gain.lookup x with
  | none =>
    rw [hl, Option.none_or] at h
    exact .inr h
  | some m =>
    rw [hl, Option.some_or, Option.getD_some] at h
    cases h
    exact .inl (OrdMap.mem_of_lookup_eq_some hl)

namespace Versioned

variable {g g' : Graph} {names names' : NameSupply} {stops : List Stop}
  (h : Versioned g g' names names' stops)
include h

section
variable {a c : Stop} (ha : a ∈ stops) (hc : c ∈ stops) (hne : c ≠ a) {x : String} {n : Nat}
  (hx : (x, n) ∈ a.own ++ a.merged)
  (hcur : c.mid.current x = .versioned x n ∨ c.out.current x = .versioned x n)
include ha hc hne hx hcur

/-- What a block does itself does not put in force the version of another block. -/
theorem current_mid : c.mid.current x = .versioned x n := by
  rcases hcur with hcur | hcur
  · exact hcur
  · refine (Versions.current_append_cases hcur).resolve_left fun hin => hne ?_
    exact h.gain_unique hc ha (List.mem_append_left _ hin) hx

/-- Nor do its phi functions, so the version is in force only if it was on entry. -/
theorem current_inn : c.inn.current x = .versioned x n := by
  have hmid := h.current_mid ha hc hne hx hcur
  refine (Versions.current_append_cases hmid).resolve_left fun hin => hne ?_
  exact h.gain_unique hc ha (List.mem_append_right _ hin) hx

end

section
variable (hg : g.WellFormed) {a : Stop} (ha : a ∈ stops) {s : BlockId} {x : String} {n : Nat}
  (hn : (x, n) ∈ a.merged) (hs : g'.hasPhi s x = true) (hsa : s ≠ a.block)
include hg ha hn hs hsa

/-- **A phi function ends the version** of a block that dominates it. -/
theorem ended (hdom : g.Dominates a.block s) {c : Stop} (hc : c ∈ stops)
    (hsc : g.Dominates s c.block) :
    c.mid.current x ≠ .versioned x n ∧ c.out.current x ≠ .versioned x n := by
  have hx : (x, n) ∈ a.own ++ a.merged := List.mem_append_right _ hn
  -- The block itself is above the phi function.
  have hbelow : ∀ {c : Stop}, g.Dominates s c.block → c ≠ a := by
    rintro c hsc rfl
    exact hsa (hsc.antisymm hdom (h.reachable ha))
  have key : ∀ {b}, g.Reachable b → ∀ c ∈ stops, c.block = b → g.Dominates s b →
      c.mid.current x ≠ .versioned x n ∧ c.out.current x ≠ .versioned x n := by
    intro b hb
    refine Dominance.tree_induction hg (P := fun b => ∀ c ∈ stops, c.block = b → g.Dominates s b →
      c.mid.current x ≠ .versioned x n ∧ c.out.current x ≠ .versioned x n) ?_ ?_ hb
    · intro c _ _ hse
      have hentry := hse.eq_entry
      rw [hentry] at hdom hsa
      exact absurd hdom.eq_entry.symm hsa
    · rintro d b hdb ih c hc rfl hsb
      have hca := hbelow hsb
      rw [← not_or]
      intro hcur
      by_cases hcs : c.block = s
      · -- The version that the phi function puts in force is another.
        obtain ⟨⟨_, m⟩, hm, hfst⟩ := List.mem_map.mp ((h.merged_iff c hc x).mpr (hcs ▸ hs))
        have hm : (x, m) ∈ c.merged := hfst ▸ hm
        have hmid := Versions.current_append_of_mem (h.merged_nodup c hc) hm c.inn
        cases hmid.symm.trans (h.current_mid ha hc hca hx hcur)
        exact hca (h.gain_unique hc ha (List.mem_append_right _ hm) hx)
      · have hinn := h.current_inn ha hc hca hx hcur
        rcases h.inn_eq c hc with ⟨hentry, -⟩ | ⟨p, hp, hpi, heq⟩
        · exact absurd (hentry ▸ hdb.dominates : g.Dominates d Graph.entry).eq_entry
            (hentry ▸ hdb.ne)
        · rw [heq] at hinn
          have hpd := hpi.unique hdb
          exact (ih p hp hpd (hdb.closest hsb (Ne.symm hcs))).2 hinn
  exact key (h.reachable hc) c hc rfl hsc

/-- **A version is in force nowhere else** if its block leads to a phi function for the variable,
and nowhere else. -/
theorem current_ne (honly : ∀ {t}, g.Leads a.block t → t = s) {c : Stop}
    (hc : c ∈ stops) (hca : c ≠ a) :
    c.mid.current x ≠ .versioned x n ∧ c.out.current x ≠ .versioned x n := by
  have hx : (x, n) ∈ a.own ++ a.merged := List.mem_append_right _ hn
  have hpos := h.gain_pos ha hx
  rw [← not_or]
  intro hcur
  have hout : (x, n) ∈ c.out := by
    rcases hcur with hcur | hcur
    · exact List.mem_append_right _ (Versions.mem_of_current hpos hcur).2
    · exact (Versions.mem_of_current hpos hcur).2
  obtain ⟨hdom, hsame⟩ := h.dominates_of_mem_out hg hc ha (.merged hn) hout
  have hne : a.block ≠ c.block := fun heq => hca (hsame heq).symm
  have hdom' : g.Dominates a.block c.block := hdom
  have hended := h.ended hg ha hn hs hsa (hdom'.only_way honly hg hne (h.reachable hc)) hc
    (hdom'.of_only_way honly hne)
  exact hcur.elim hended.1 hended.2

end

section
variable (hg : g.WellFormed) (hr : g.Reached) {x s : BlockId} {link : EdgeId} {old succ : Block}
  (hx : g'.EmptyBefore x s link old succ)
include hg hr hx

theorem empty_stop : ∃ a ∈ stops, a.block = x ∧ a.own = [] := by
  obtain ⟨a, ha, hax, k, hk, hren⟩ := h.stop_of_kind? hg hr hx.kind?_eq Kind.noConfusion
  refine ⟨a, ha, hax, ?_⟩
  have hempty : k = .empty := by
    cases k with
    | empty => rfl
    | _ => cases hren
  have hnames := h.own_names a ha (hax ▸ hk)
  rw [hempty] at hnames
  exact List.map_eq_nil_iff.mp hnames

/-- **In a graph that was just converted** the phi functions of an empty block may be handed on. -/
theorem relays : g'.Relays x s link := by
  obtain ⟨a, ha, rfl, hown⟩ := h.empty_stop hg hr hx
  have hphi : ∀ {b name p}, g'.phi? b name = some p → g'.hasPhi b name = true := by
    intro b name p hp
    rw [Graph.hasPhi_eq_isSome, hp]
    rfl
  have hleads : ∀ {b c}, g.Leads b c ↔ g'.Leads b c := fun {b c} => by
    simp only [Graph.Leads, h.outline.edge?_eq]
  have honly : ∀ {t}, g.Leads a.block t → t = s := fun hl => hx.leads_eq (hleads.mp hl)
  -- The version that a phi function of the block puts in force.
  have hmerged : ∀ {name p}, g'.phi? a.block name = some p → ∃ n, (name, n) ∈ a.merged ∧
      Phis.lhs name p = .versioned name n ∧ a.out.current name = .versioned name n := by
    intro name p hp
    obtain ⟨⟨_, n⟩, hin, rfl⟩ := List.mem_map.mp ((h.merged_iff a ha name).mpr (hphi hp))
    have hmid := Versions.current_append_of_mem (h.merged_nodup a ha) hin a.inn
    refine ⟨n, hin, (h.lhs_eq a ha hp).trans hmid, ?_⟩
    rw [Stop.out, hown, List.nil_append]
    exact hmid
  constructor
  case arg_name =>
    intro b name p e v hp hv
    obtain ⟨c, -, d, -, rfl⟩ := (h.arg?_iff hp).mp hv
    rfl
  case moved =>
    intro name p hp hnone
    rw [h.outline.dominates_iff]
    by_contra hnot
    -- A successor in the frontier of the block would have got a phi function of its own.
    have hfrontier : g.InFrontier a.block s :=
      ⟨⟨a.block, h.reachable ha, .refl _, hleads.mpr ⟨_, _, hx.link_eq⟩⟩, fun hdom => hnot hdom.1⟩
    have hjoins := h.hasPhi_iff.mpr (.again (h.hasPhi_iff.mp (hphi hp)) hfrontier)
    rw [Graph.hasPhi_eq_isSome, hnone] at hjoins
    cases hjoins
  case arg_link =>
    intro name p q hp hq
    obtain ⟨n, -, hlhs, hout⟩ := hmerged hp
    refine (h.arg?_iff hq).mpr ⟨a, ha, .always, ?_, hlhs.trans hout.symm⟩
    rw [← h.outline.edge?_eq, hx.link_eq]
  case unused =>
    intro name p q b k hp hq hk hv
    obtain ⟨n, hin, hlhs, -⟩ := hmerged hp
    have hne : k ≠ .exit := by
      rintro rfl
      cases hv
    obtain ⟨c, hc, rfl, k₀, -, hren⟩ := h.stop_of_kind? hg hr hk hne
    have hca : c ≠ a := by
      rintro rfl
      cases hk.symm.trans hx.kind?_eq
      cases hv
    rw [← hren, Kind.uses_rename] at hv
    obtain ⟨u, hu, heq⟩ := List.mem_map.mp hv
    have hname : u.name = name := congrArg Var.name (heq.trans hlhs)
    rw [hlhs, hname] at heq
    exact (h.current_ne hg ha hin (hphi hq) hx.ne honly hc hca).1 heq
  case only_link =>
    intro name p q b name' p' e hp hq hp' hv
    obtain ⟨n, hin, hlhs, -⟩ := hmerged hp
    obtain ⟨c, hc, d, he, heq⟩ := (h.arg?_iff hp').mp hv
    by_cases hca : c = a
    · rw [hca, ← h.outline.edge?_eq] at he
      exact hx.eq_link he
    · have hname : name' = name := congrArg Var.name (heq.symm.trans hlhs)
      rw [hlhs, hname] at heq
      exact absurd heq.symm (h.current_ne hg ha hin (hphi hq) hx.ne honly hc hca).2

/-- Blocks that a single edge enters have no phi functions, so none are left over. -/
theorem outcome_bypass : (g'.bypass x).outcome = .ok (g'.leadPast x s link old succ) := by
  have htakes :=
    hx.wellFormed.takesOut_rerouted hx.block_eq hx.isTerminal_eq hx.link_eq hx.ne hx.succ_eq
  obtain ⟨succ', hs'⟩ := htakes.live
  obtain ⟨a, ha, rfl, -⟩ := h.empty_stop hg hr hx
  obtain ⟨c, -, e, d, he⟩ := (h.reachable ha).pred hx.ne_entry
  rw [← h.outline.edge?_eq] at he
  have hpreds : old.preds ≠ [] :=
    List.ne_nil_of_mem ((hx.wellFormed.listed.mem_preds hx.block_eq e).mpr ⟨_, he, rfl⟩)
  have hnone : ∀ {b}, g'.Solitary b → ∀ name, g'.phi? b name = none := by
    intro b hsole name
    have hsole' : g.Solitary b := by
      simpa only [Graph.Solitary, h.outline.edge?_eq] using hsole
    refine Option.eq_none_iff_forall_ne_some.mpr fun p hp => ?_
    refine (h.hasPhi_iff (n := name).mp ?_).not_solitary hg hsole'
    rw [Graph.hasPhi_eq_isSome, hp]
    rfl
  rw [hx.outcome_bypass hpreds]
  by_cases hsolo : ∃ e', succ'.preds = [e']
  · obtain ⟨e', hpreds'⟩ := hsolo
    obtain ⟨hsolex, hsoles⟩ := (hx.bypassed.solitary_iff hx he).mp
      (htakes.wellFormed.listed.solitary_of_preds hs' hpreds')
    refine Graph.simplifySolo_of_bare hs' (OrdMap.ext_get? fun name => ?_)
    have hversion := hx.version_leadPast hx.ne name
    rw [hnone hsoles, hnone hsolex, if_pos rfl, Option.none_or, Option.map_none,
      Option.map_eq_none_iff, Graph.phi?_of_block? hs'] at hversion
    exact hversion
  · exact Graph.simplifySolo_of_ne hs' fun e' he' => hsolo ⟨e', he'⟩

end

end Versioned
end Ssa

/-- **Taking an empty block out of a graph that was just converted** keeps it in single assignment
form.  A phi function that moves to the successor takes its own variable along the other edges
there, and the successor dominates the sources of these edges.  A variable whose phi function is
dropped does not occur any more. -/
theorem Routine.singleAssignment_replace_toSsa (r : Routine) (hg : r.graph.WellFormed)
    (hp : r.graph.PhiFree) : ∃ r₁, r.toSsa.outcome = .ok r₁ ∧
      ∀ {b s}, r₁.graph.kind? b = some .empty → r₁.graph.Leads b s → s ≠ b →
        ∃ r₂, (r₁.replace b []).outcome = .ok ([], r₂) ∧ r₂.graph.WellFormed ∧
          r₂.graph.kind? b = none ∧ r₂.graph.SingleAssignment ∧
          (∀ {name p}, r₁.graph.phi? b name = some p → r₁.graph.phi? s name = none →
            ∃ p', r₂.graph.phi? s name = some p' ∧ Phis.lhs name p' = Phis.lhs name p ∧
              ∀ {e a d}, r₁.graph.edge? e = some ⟨a, s, d⟩ → a ≠ b →
                r₂.graph.edge? e = some ⟨a, s, d⟩ ∧ p'.arg? e = some (Phis.lhs name p) ∧
                  r₂.graph.Dominates s a) ∧
          ∀ {name p q}, r₁.graph.phi? b name = some p → r₁.graph.phi? s name = some q →
            ¬ r₂.graph.Occurs (Phis.lhs name p) := by
  obtain ⟨r₁, g, stops, hok, hrestricts, hver⟩ := r.toSsa_spec hg hp
  obtain ⟨hg₀, -, hreached⟩ := hg.restricts_unreachable hrestricts
  refine ⟨r₁, hok, fun {b s} hempty hl hsb => ?_⟩
  have hg₁ := hver.wellFormed hg₀
  have hssa := hver.singleAssignment hg₀ hreached
  have hc := hver.phisComplete hg₀ hreached
  obtain ⟨link, hlink⟩ := hg₁.exists_link hempty hl
  obtain ⟨old, hold, hkind⟩ := Graph.block?_of_kind? hempty
  obtain ⟨succ, hsucc⟩ := hg₁.listed.target_live hlink
  have hx : r₁.graph.EmptyBefore b s link old succ := ⟨hg₁, hold, hkind, hlink, hsucc, hsb⟩
  have hr := hver.relays hg₀ hreached hx
  refine ⟨r₁.withGraph (r₁.graph.leadPast b s link old succ), ?_, hx.bypassed.wellFormed,
    hx.bypassed.kind?_eq_none_iff.mpr (.inl rfl),
    hr.singleAssignment hx hc hssa, fun hp₁ hnone => ?_,
    fun hp₁ hq₁ hocc => (hr.occurs_leadPast hx hc hssa hocc).2 hp₁ hq₁ rfl⟩
  · rw [Routine.replace, Run.outcome_bind_of_ok (hver.outcome_bypass hg₀ hreached hx)]
    exact Run.outcome_bind_of_ok (r₁.settle_spec hx.bypassed.wellFormed) _
  · exact hr.exists_moved hx hp₁ hnone

/-- An empty block at the head of a loop, with another loop behind it.  The outer loop counts `i`,
the inner one `j`. -/
def Graph.nestedLoops : Graph where
  name := "nestedLoops"
  blocks := #[
    some { id := ⟨0⟩, kind := .entry, succs := [⟨0⟩] },
    some { id := ⟨1⟩, kind := .exit, preds := [⟨7⟩] },
    some { id := ⟨2⟩, kind := .statement (.assign (.plain "i") false (.lit (.int 0)))
           preds := [⟨0⟩], succs := [⟨1⟩] },
    some { id := ⟨3⟩, kind := .empty, preds := [⟨1⟩, ⟨5⟩], succs := [⟨2⟩] },
    some { id := ⟨4⟩, kind := .branch ⟨.plain "j", "outer", "inner"⟩
           preds := [⟨2⟩, ⟨8⟩], succs := [⟨3⟩, ⟨4⟩] },
    some { id := ⟨5⟩,
           kind := .statement (.assign (.plain "i") false (.unary "inc" (.var (.plain "i"))))
           preds := [⟨3⟩], succs := [⟨5⟩] },
    some { id := ⟨6⟩, kind := .branch ⟨.plain "i", "more", "done"⟩
           preds := [⟨4⟩], succs := [⟨6⟩, ⟨7⟩] },
    some { id := ⟨7⟩,
           kind := .statement (.assign (.plain "j") false (.unary "inc" (.var (.plain "j"))))
           preds := [⟨6⟩], succs := [⟨8⟩] }]
  edges := #[some ⟨⟨0⟩, ⟨2⟩, .always⟩, some ⟨⟨2⟩, ⟨3⟩, .always⟩, some ⟨⟨3⟩, ⟨4⟩, .always⟩,
    some ⟨⟨4⟩, ⟨5⟩, .onTrue⟩, some ⟨⟨4⟩, ⟨6⟩, .onFalse⟩, some ⟨⟨5⟩, ⟨3⟩, .always⟩,
    some ⟨⟨6⟩, ⟨7⟩, .onTrue⟩, some ⟨⟨6⟩, ⟨1⟩, .onFalse⟩, some ⟨⟨7⟩, ⟨4⟩, .always⟩]

theorem Routine.nestedLoops_replaced :
    Graph.nestedLoops.WellFormed ∧ Graph.nestedLoops.PhiFree ∧
      ∃ r₁ r₂, (Routine.mk Graph.nestedLoops .new none none).toSsa.outcome = .ok r₁ ∧
        r₁.graph.kind? ⟨3⟩ = some .empty ∧ r₁.graph.Leads ⟨3⟩ ⟨4⟩ ∧
        (r₁.graph.phi? ⟨3⟩ "i").isSome ∧ r₁.graph.phi? ⟨4⟩ "i" = none ∧
        (r₁.graph.phi? ⟨3⟩ "j").isSome ∧ (r₁.graph.phi? ⟨4⟩ "j").isSome ∧
        (r₁.replace ⟨3⟩ []).outcome = .ok ([], r₂) ∧ r₂.graph.SingleAssignment := by
  have hg : Graph.nestedLoops.WellFormed := by decide
  have hp : Graph.nestedLoops.PhiFree := by decide
  obtain ⟨r₁, hok, hreplace⟩ :=
    Routine.singleAssignment_replace_toSsa (.mk Graph.nestedLoops .new none none) hg hp
  have hlook : ∀ r ∈ (Routine.mk Graph.nestedLoops .new none none).toSsa.outcome.toOption,
      r.graph.kind? ⟨3⟩ = some .empty ∧ r.graph.edge? ⟨2⟩ = some ⟨⟨3⟩, ⟨4⟩, .always⟩ ∧
        (r.graph.phi? ⟨3⟩ "i").isSome ∧ r.graph.phi? ⟨4⟩ "i" = none ∧
        (r.graph.phi? ⟨3⟩ "j").isSome ∧ (r.graph.phi? ⟨4⟩ "j").isSome := by decide +kernel
  obtain ⟨hempty, hedge, hphis⟩ := hlook r₁ (by rw [hok]; rfl)
  have hl : r₁.graph.Leads ⟨3⟩ ⟨4⟩ := ⟨⟨2⟩, .always, hedge⟩
  obtain ⟨r₂, hreplaced, -, -, hssa, -⟩ := hreplace hempty hl (by decide)
  exact ⟨hg, hp, r₁, r₂, hok, hempty, hl, hphis.1, hphis.2.1, hphis.2.2.1,
    hphis.2.2.2, hreplaced, hssa⟩

end FlowGraph
