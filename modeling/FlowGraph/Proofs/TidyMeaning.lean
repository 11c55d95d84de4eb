import FlowGraph.Proofs.BypassMeaning
import FlowGraph.Proofs.DefinitionsKept
import FlowGraph.Proofs.Incidents

/-! # What tidying means

Tidying does not change what is done in a walk.  Unreachable blocks are never visited.  An empty
block without phi functions adds a step in which nothing is done.  Solo phi functions take effect
one after the other as soon as they are copies, and that makes no difference if none reads what
another defines: the block that defines it would come before the only block that leads to it.
-/
namespace FlowGraph
namespace Graph

variable {V : Type} {I : Interpretation V} {g g' : Graph} {watched : BlockId → Bool}
  {among : Var → Prop}

/-! ### One change -/

theorem WellFormed.advance_exit (hg : g.WellFormed) {u : Visit V} (hu : u.block = exit) :
    g.advance I u = none :=
  hg.advanceBy_eq_none_iff.mpr (.inr hu)

/-- A walk leaves every block but the exit. -/
theorem WellFormed.exit_or_leaves (hg : g.WellFormed) {a : BlockId} {k : Kind}
    (hk : g.kind? a = some k) (I : Interpretation V) (σ : Store V) :
    a = exit ∨ ∃ e t, g.edge? e = some ⟨a, t, k.way I σ⟩ := by
  by_cases hexit : k = .exit
  · exact .inl (hg.exit_only (hexit ▸ hk))
  · exact .inr ((hg.wired.ways hk hexit _).mpr (Kind.way_mem_directions I σ hexit))

/-- Steps along edges on which the same values are taken. -/
theorem WellFormed.advance_congr (hg : g.WellFormed) (hg' : g'.WellFormed) {a t : BlockId}
    {k : Kind} {m : Memory V} {e e' : EdgeId} (hk : g.kind? a = some k) (hk' : g'.kind? a = some k)
    (he : g.edge? e = some ⟨a, t, k.way I m.store⟩)
    (he' : g'.edge? e' = some ⟨a, t, k.way I m.store⟩)
    (hsource : ∀ v, g'.source t e' v = g.source t e v) :
    g'.advance I ⟨a, m⟩ = g.advance I ⟨a, m⟩ := by
  rw [hg.advance_eq hk he, hg'.advance_eq hk' he']
  have hstore : Ssa.atOnce (g'.phiCopies e') (k.perform I m).store =
      Ssa.atOnce (g.phiCopies e) (k.perform I m).store := by
    funext v
    rw [atOnce_phiCopies he', atOnce_phiCopies he, hsource]
  rw [hstore]

/-- **Unreachable blocks** are not visited. -/
theorem WellFormed.accompanies_pruned (hg : g.WellFormed) (I : Interpretation V)
    (watched : BlockId → Bool) :
    Accompanies (g.advance I) (g.incident? watched) (g.pruned.advance I)
      (g.pruned.incident? watched) fun u u' => u' = u ∧ g.Reachable u.block := by
  have hrestricts := hg.restricts_pruned
  refine .of_rel ?tell ?step
  case tell =>
    rintro u _ ⟨rfl, hu⟩
    exact incident?_congr (hg.kind?_pruned hu)
  case step =>
    rintro ⟨a, m⟩ _ ⟨rfl, ha⟩
    obtain ⟨block, hb⟩ := hg.live_of_reachable ha
    have hk := kind?_of_block? hb
    have hk' := (hg.kind?_pruned ha).trans hk
    rcases hg.pruned.exit_or_leaves hk' I m.store with hexit | ⟨e, t, he'⟩
    · rw [hg.advance_exit hexit, hg.pruned.advance_exit hexit]
      exact .none
    · have he := (hrestricts.edge?_iff.mp he').1
      have hgiven := hg.listed.given_foldl_removeBlock _ he'
      rw [hg.advance_congr hg.pruned hk hk' he he' fun v => congrArg (Option.getD · v) (hgiven v),
        hg.advance_eq hk he]
      exact .some ⟨rfl, ha.step ⟨e, _, he⟩⟩

/-- A reachable block is entered from elsewhere. -/
theorem Solitary.source_ne {b a : BlockId} {e : EdgeId} {d : Direction} (hb : g.Solitary b)
    (hne : b ≠ entry) (he : g.edge? e = some ⟨a, b, d⟩) (ha : g.Reachable a) : a ≠ b := by
  obtain ⟨p, hp⟩ := ha
  rintro rfl
  -- A route to the block would have to come from the block.
  have hnever : ∀ {p c}, g.Route p c → c ≠ a := by
    intro p c hp
    induction hp with
    | start => exact hne.symm
    | step _ hl ih =>
      rintro rfl
      obtain ⟨e', d', he'⟩ := hl
      rw [hb he he', he] at he'
      cases he'
      exact ih rfl
  exact hnever hp rfl

section
variable {b a : BlockId} {block : Block} {e : EdgeId} {d : Direction} (hg : g.WellFormed)
  (hb : g.block? b = some block) (hpreds : block.preds = [e]) (he : g.edge? e = some ⟨a, b, d⟩)
  (hdef : g.DefinedOnceIn among)
include hg hb hpreds he hdef

/-- No solo phi function of a reachable block reads what another defines. -/
theorem DefinedOnceIn.notMem_dst_soloChain (ha : g.Reachable a) {v w : Var}
    (hw : g.given b e v = some w) : w ∉ (soloChain block.phis).map Ssa.Copy.dst := by
  intro hmem
  obtain ⟨c, hc, rfl⟩ := List.mem_map.mp hmem
  obtain ⟨p, hp, hlhs, -⟩ := phi?_of_given (hg.given_of_mem_soloChain hb hpreds hc)
  have hsite : g.Defines (.phi b c.dst) c.dst := hlhs ▸ .phi hp
  have hbefore := hdef.before_given (hdef.of_phi hsite) he hw hsite
  have hsole := hg.listed.solitary_of_preds hb hpreds
  have hentry : b ≠ entry := hg.wired.entry_closed he
  exact hsole.not_dominates hentry he (hsole.source_ne hentry he ha) (ha.step ⟨e, d, he⟩) hbefore

/-- **Copies one after the other** do what the phi functions did at once. -/
theorem DefinedOnceIn.inOrder_soloChain (ha : g.Reachable a) (σ : Store V) :
    Ssa.inOrder (soloChain block.phis) σ = Ssa.atOnce (g.phiCopies e) σ := by
  have hchain := hg.soloChain_eq hb hpreds
  have hnodup : ((soloChain block.phis).map Ssa.Copy.dst).Nodup := hchain ▸ nodup_dst_filter e
  have hgiven : ∀ {c}, c ∈ soloChain block.phis → g.given b e c.dst = some c.src ∧
      c.src ≠ c.dst := by
    intro c hc
    refine ⟨hg.given_of_mem_soloChain hb hpreds hc, ?_⟩
    rw [hchain] at hc
    exact of_decide_eq_true (List.mem_filter.mp hc).2
  funext v
  rw [atOnce_phiCopies he, source]
  cases hw : g.given b e v with
  | none =>
    refine Ssa.inOrder_of_notMem (fun hmem => ?_) σ
    obtain ⟨c, hc, rfl⟩ := List.mem_map.mp hmem
    rw [(hgiven hc).1] at hw
    cases hw
  | some w =>
    rw [Option.getD_some]
    by_cases hself : w = v
    · subst hself
      refine Ssa.inOrder_of_notMem (fun hmem => ?_) σ
      obtain ⟨c, hc, rfl⟩ := List.mem_map.mp hmem
      obtain ⟨hsrc, hne⟩ := hgiven hc
      rw [hsrc] at hw
      exact hne (Option.some.inj hw)
    · refine Ssa.inOrder_of_mem hnodup ?_ (hdef.notMem_dst_soloChain hg hb hpreds he ha hw) σ
      rw [hchain, List.mem_filter, Phis.mem_copiesFor_iff_given, ← given_of_block? hb]
      exact ⟨hw, decide_eq_true hself⟩

/-- **Solo phi functions made into copies** do the same. -/
theorem SoloCopied.accompanies (hcopied : SoloCopied g g' b)
    (hchain : CopyChain g' (fun c => g.kind? c = none) a d (soloChain block.phis) b)
    (hwatched : ∀ {c k}, g.kind? c = none → g'.kind? c = some k → watched c = false)
    (I : Interpretation V) : Accompanies (g.advance I) (g.incident? watched) (g'.advance I)
      (g'.incident? watched) fun u u' => u' = u ∧ g.Reachable u.block := by
  constructor
  case tell_eq =>
    rintro u _ ⟨rfl, hu⟩
    obtain ⟨block, hb⟩ := hg.live_of_reachable hu
    have hk := kind?_of_block? hb
    exact incident?_congr ((hcopied.kind?_eq hk).trans hk.symm)
  case goesOn =>
    rintro ⟨c, m⟩ _ ⟨rfl, hc⟩
    obtain ⟨cblock, hcb⟩ := hg.live_of_reachable hc
    have hk := kind?_of_block? hcb
    have hk' := hcopied.kind?_eq hk
    rcases hg.exit_or_leaves hk I m.store with hexit | ⟨e₁, t, he₁⟩
    · exact .inl ⟨hg.advance_exit hexit, hcopied.wellFormed.advance_exit hexit⟩
    have hfirst := hg.advance_eq hk he₁
    have hreach : g.Reachable t := hc.step ⟨e₁, _, he₁⟩
    right
    by_cases htb : t = b
    · -- One walk goes on to the block, the other through the copies.
      subst htb
      obtain rfl : e₁ = e := hg.listed.solitary_of_preds hb hpreds he he₁
      rw [he₁] at he
      cases he
      obtain ⟨n, hn, hinner⟩ :=
        hchain.steps_advance hcopied.wellFormed hcopied.bare hk' (m := m) rfl
      rw [hdef.inOrder_soloChain hg hb hpreds he₁ hc] at hn
      refine ⟨0, n, _, _, ?_, hn, ⟨rfl, hreach⟩, fun i _ _ => by omega, fun i hpos hlt y hy => ?_⟩
      · rw [steps_next, steps_zero, Option.bind_some, hfirst]
      · exact incident?_unwatched (hwatched (hinner i hpos hlt hy))
    · obtain ⟨he₁', hsource⟩ := hcopied.kept he₁ htb
      have hsame := hg.advance_congr hcopied.wellFormed hk hk' he₁ he₁' hsource
      exact .of_steps hfirst (hsame.trans hfirst) ⟨rfl, hreach⟩

end

section
variable {x s : BlockId} {link : EdgeId} {old succ : Block} (hx : g.EmptyBefore x s link old succ)
  (hbare : old.phis = .empty)
include hx hbare

theorem EmptyBefore.source_bare (e : EdgeId) (v : Var) : g.source x e v = v := by
  rw [source_of_block? hx.block_eq, hbare]
  rfl

/-- **Leading past an empty block** without phi functions saves a step. -/
theorem EmptyBefore.accompanies_leadPast (I : Interpretation V) (watched : BlockId → Bool) :
    Accompanies (g.advance I) (g.incident? watched) ((g.leadPast x s link old succ).advance I)
      ((g.leadPast x s link old succ).incident? watched)
      fun u u' => u' = u ∧ u.block ≠ x ∧ g.Reachable u.block := by
  have hg := hx.wellFormed
  have hg' := ((Neatens.passed hx hbare).neater hg).wellFormed
  have hkind : ∀ {b k}, b ≠ x → g.kind? b = some k →
      (g.leadPast x s link old succ).kind? b = some k := fun hne hk =>
    hx.bypassed.kind?_iff.mpr ⟨hne, hk⟩
  constructor
  case tell_eq =>
    rintro u _ ⟨rfl, hne, hu⟩
    obtain ⟨block, hb⟩ := hg.live_of_reachable hu
    have hk := kind?_of_block? hb
    exact incident?_congr ((hkind hne hk).trans hk.symm)
  case goesOn =>
    rintro ⟨a, m⟩ _ ⟨rfl, hne, ha⟩
    obtain ⟨block, hb⟩ := hg.live_of_reachable ha
    have hk := kind?_of_block? hb
    have hk' := hkind hne hk
    rcases hg'.exit_or_leaves hk' I m.store with hexit | ⟨e, t, he'⟩
    · exact .inl ⟨hg.advance_exit hexit, hg'.advance_exit hexit⟩
    obtain ⟨-, ht, ⟨he, hsame⟩ | ⟨rfl, ⟨o, ho⟩, hlink⟩⟩ := hx.edge?_leadPast hbare he'
    · have hstep := hg.advance_congr hg' hk hk' he he' fun v => congrArg (Option.getD · v) (hsame v)
      have hfirst := hg.advance_eq hk he
      exact .inr (.of_steps hfirst (hstep.trans hfirst) ⟨rfl, ht, ha.step ⟨e, _, he⟩⟩)
    · -- One walk passes through the block, the other goes past it.
      obtain ⟨m₁, σ₁, hfirst, hsecond, hσ₁⟩ := hx.advance_through hk ho
      have hone : steps (g.advance I) 1 ⟨a, m⟩ = some ⟨x, m₁⟩ := by
        rw [steps_next, steps_zero, Option.bind_some, hfirst]
      have hstore : Ssa.atOnce ((g.leadPast x t link old succ).phiCopies e)
          (block.kind.perform I m).store = σ₁ := by
        funext v
        rw [atOnce_phiCopies he', hσ₁, source, hlink, hx.source_bare hbare]
        rfl
      have hreach : g.Reachable t := (ha.step ⟨o, _, ho⟩).step ⟨link, _, hx.link_eq⟩
      refine .inr ⟨1, 0, ⟨t, σ₁, (block.kind.perform I m).shown⟩, _, ?_, ?_, ⟨rfl, ht, hreach⟩,
        fun i hpos hlt y hy => ?_, fun i _ _ => by omega⟩
      · rw [steps_next, hone, Option.bind_some, hsecond]
      · rw [steps_next, steps_zero, Option.bind_some, hg'.advance_eq hk' he', hstore]
      · obtain rfl : i = 1 := by omega
        rw [hone] at hy
        cases hy
        exact incident?_empty hx.kind?_eq

end

/-! ### All changes -/

/-- **One change** leaves what is done as it is. -/
theorem Neatens.sameTale (hg : g.WellFormed) (hdef : g.DefinedOnceIn among) (hstep : Neatens g g')
    (hwatched : ∀ {c k}, g.kind? c = none → g'.kind? c = some k → watched c = false)
    (I : Interpretation V) (σ : Store V) :
    SameTale (g.walk I σ) (g.incident? watched) (g'.walk I σ) (g'.incident? watched) := by
  rw [walk_eq_steps, walk_eq_steps]
  cases hstep with
  | copied hb hok =>
    rcases hg.simplifySolo_cases hb hok with rfl | ⟨e, a, d, hpreds, he, hcopied, hchain⟩
    · exact .refl ..
    · exact (hcopied.accompanies hg hb hpreds he hdef hchain hwatched I).sameTale ⟨rfl, .entry⟩
  | passed hx hbare =>
    exact (hx.accompanies_leadPast hbare I watched).sameTale ⟨rfl, hx.ne_entry.symm, .entry⟩

/-- **One change after the other** does, for an onlooker who watches blocks of an earlier state. -/
theorem sameTale_of_neatens {g₀ : Graph} (h₀ : g₀.Follows g)
    (hwatched : ∀ {c}, watched c = true → ∃ k, g₀.kind? c = some k) (hg : g.WellFormed)
    (hdef : g.DefinedOnceIn among) (hchain : Relation.ReflTransGen Neatens g g')
    (I : Interpretation V) (σ : Store V) :
    SameTale (g.walk I σ) (g.incident? watched) (g'.walk I σ) (g'.incident? watched) := by
  induction hchain with
  | refl => exact .refl ..
  | @tail g₁ g₂ hchain hlast ih =>
    have hneater := neater_of_neatens hg hchain
    have hlater := (hlast.neater hneater.wellFormed).follows
    refine ih.trans (hlast.sameTale hneater.wellFormed (hdef.of_neatens hg hchain) ?_ I σ)
    intro c k hgone hk
    -- A block that comes with a change has a handle that was never given out.
    refine Bool.eq_false_iff.mpr fun hc => ?_
    obtain ⟨k₀, hlive⟩ := hwatched hc
    rw [(h₀.trans hneater.follows).kind?_stale hlater hlive hgone] at hk
    cases hk

/-- **Tidying leaves what is done as it is.** -/
theorem WellFormed.exists_tidy_sameTale (hg : g.WellFormed) (hdef : g.DefinedOnceIn among) :
    ∃ count g', g.tidy.outcome = .ok (count, g') ∧ Neater g.pruned g' ∧ g'.Reached ∧
      ∀ {g₀ : Graph} {watched : BlockId → Bool}, g₀.Follows g →
        (∀ {c}, watched c = true → ∃ k, g₀.kind? c = some k) → ∀ {V : Type} (I : Interpretation V)
          (σ : Store V),
          SameTale (g.walk I σ) (g.incident? watched) (g'.walk I σ) (g'.incident? watched) := by
  obtain ⟨count, g', hok, hchain, hreached, -⟩ := hg.exists_tidy
  refine ⟨count, g', hok, neater_of_neatens hg.pruned hchain, hreached,
    fun {g₀ watched} h₀ hwatched {V} I σ => ?_⟩
  have hpruned : SameTale (g.walk I σ) (g.incident? watched) (g.pruned.walk I σ)
      (g.pruned.incident? watched) := by
    rw [walk_eq_steps, walk_eq_steps]
    exact (hg.accompanies_pruned I watched).sameTale ⟨rfl, .entry⟩
  exact hpruned.trans (sameTale_of_neatens (h₀.trans g.follows_pruned) hwatched hg.pruned
    (hdef.pruned hg) hchain I σ)

end Graph

/-- **Tidying keeps the meaning of a graph** without phi functions, or in which every variable is
defined at most once and before its uses; phi functions need not have an argument for every edge.
It keeps the reachable blocks that are not empty and inserts nothing but copies.  Copies that it
inserts left aside, a walk of the result performs the same statements and tests the same branches in
the same order, and reads the same values.  It reaches the exit if and only if it did before, and
goes on for ever if and only if it did. -/
theorem Routine.tidy_walk (r : Routine) (hg : r.graph.WellFormed)
    (h : r.graph.PhiFree ∨ r.graph.DefinedOnce) :
    ∃ count r', r.tidy.outcome = .ok (count, r') ∧ r'.graph.WellFormed ∧
      (∀ b k, r.graph.Reachable b → r.graph.kind? b = some k → k ≠ .empty →
        r'.graph.kind? b = some k) ∧
      (∀ b k, r'.graph.kind? b = some k → r.graph.kind? b = none →
        ∃ lhs rhs, k = .statement (.copy lhs rhs)) ∧
      ∀ {V : Type} (I : Interpretation V) (σ : Store V),
        SameTale (r.graph.walk I σ) (r.graph.incident? fun b => (r.graph.kind? b).isSome)
          (r'.graph.walk I σ) (r'.graph.incident? fun b => (r.graph.kind? b).isSome) ∧
        ((∃ n u, r.graph.walk I σ n = some u ∧ u.block = Graph.exit) ↔
          ∃ n u, r'.graph.walk I σ n = some u ∧ u.block = Graph.exit) ∧
        ((∀ n, r.graph.walk I σ n ≠ none) ↔ ∀ n, r'.graph.walk I σ n ≠ none) := by
  obtain ⟨among, hdef⟩ := Graph.exists_definedOnceIn h
  obtain ⟨count, g', hok, hneater, hreached, hsame⟩ := hg.exists_tidy_sameTale hdef
  refine ⟨count, r.withGraph g', r.outcome_tidy hok hneater.wellFormed hreached, hneater.wellFormed,
    fun b k hb hk hne => hneater.kind?_eq ((hg.kind?_pruned hb).trans hk) hne,
    fun b k hk hnone => ?_, fun {V} I σ => ?_⟩
  · rcases (hg.addsCopies_pruned.trans hneater.addsCopies).kind?_cases hk with hold | ⟨-, c, hc⟩
    · rw [hold] at hnone
      cases hnone
    · exact ⟨c.dst, c.src, hc⟩
  · have hlive : ∀ {c}, (r.graph.kind? c).isSome = true → ∃ k, r.graph.kind? c = some k :=
      Option.isSome_iff_exists.mp
    have htale := @hsame r.graph (fun b => (r.graph.kind? b).isSome) (.refl r.graph) hlive V I σ
    have hexit := htale.ended_iff.trans (hneater.wellFormed.walk_ended_iff σ)
    exact ⟨htale, (hg.walk_ended_iff σ).symm.trans hexit, htale.endless_iff⟩

/-- A branch with an idle block on one side.  On the other, a block that nothing enters leads to one
whose phi function is solo without it. -/
def Graph.cluttered : Graph where
  name := "cluttered"
  blocks := #[
    some { id := ⟨0⟩, kind := .entry, succs := [⟨0⟩] },
    some { id := ⟨1⟩, kind := .exit, preds := [⟨6⟩] },
    some { id := ⟨2⟩, kind := .branch ⟨.plain "c", "then", "else"⟩
           preds := [⟨0⟩], succs := [⟨1⟩, ⟨2⟩] },
    some { id := ⟨3⟩, kind := .empty, preds := [⟨1⟩], succs := [⟨3⟩] },
    some { id := ⟨4⟩
           kind := .statement (.assign (.versioned "x" 1) false
             (.unary "-" (.var (.versioned "y" 1))))
           phis := .ofList [("y", ⟨some 1, .ofList [(⟨2⟩, .plain "p"), (⟨5⟩, .plain "q")]⟩)]
           preds := [⟨2⟩, ⟨5⟩], succs := [⟨4⟩] },
    some { id := ⟨5⟩, kind := .statement (.ret (.var (.versioned "x" 2)))
           phis := .ofList [
             ("x", ⟨some 2, .ofList [(⟨3⟩, .plain "p"), (⟨4⟩, .versioned "x" 1)]⟩)]
           preds := [⟨3⟩, ⟨4⟩], succs := [⟨6⟩] },
    some { id := ⟨6⟩, kind := .empty, succs := [⟨5⟩] }]
  edges := #[some ⟨⟨0⟩, ⟨2⟩, .always⟩, some ⟨⟨2⟩, ⟨3⟩, .onTrue⟩, some ⟨⟨2⟩, ⟨4⟩, .onFalse⟩,
    some ⟨⟨3⟩, ⟨5⟩, .always⟩, some ⟨⟨4⟩, ⟨5⟩, .always⟩, some ⟨⟨6⟩, ⟨4⟩, .always⟩,
    some ⟨⟨5⟩, ⟨1⟩, .always⟩]

theorem Routine.cluttered_walk :
    Graph.cluttered.WellFormed ∧ Graph.cluttered.DefinedOnce ∧
      ∃ count r', (Routine.mk Graph.cluttered .new none none).tidy.outcome = .ok (count, r') ∧
        SameTale (Graph.cluttered.walk .counting fun _ => 0)
          (Graph.cluttered.incident? fun b => (Graph.cluttered.kind? b).isSome)
          (r'.graph.walk .counting fun _ => 0)
          (r'.graph.incident? fun b => (Graph.cluttered.kind? b).isSome) := by
  have hg : Graph.cluttered.WellFormed := by decide
  have hssa : Graph.cluttered.DefinedOnce := hg.definedOnce_iff.mpr (by decide)
  obtain ⟨count, r', hok, -, -, -, hwalk⟩ :=
    Routine.tidy_walk (.mk Graph.cluttered .new none none) hg (.inr hssa)
  exact ⟨hg, hssa, count, r', hok, (hwalk .counting fun _ => 0).1⟩

end FlowGraph
