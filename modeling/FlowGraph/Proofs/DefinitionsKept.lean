import FlowGraph.Proofs.Upkeep

/-! # Definitions stay single, and first

Where every variable is defined once and before its uses, tidying leaves it so.  Phi functions that
are made into copies are the delicate part: for a while some of them are copies already and the
others are still to come.  `DefinedOnceWith` counts a copy to come as a definition at the head of
the block, where its phi function was.

A graph without phi functions owes nothing to its variables.  Both kinds of graphs are covered at
once by asking for single definitions of some variables only, those of all phi functions among them.
-/
namespace FlowGraph
namespace Graph

variable {g g' : Graph} {among : Var → Prop}

/-- **Some variables have at most one definition**, which comes before their uses; phi functions
define no others. -/
structure DefinedOnceIn (g : Graph) (among : Var → Prop) : Prop where
  of_phi : ∀ {b v}, g.Defines (.phi b v) v → among v
  unique : ∀ {v site site'}, among v → g.Defines site v → g.Defines site' v → site' = site
  before_use : ∀ {b k v site}, among v → g.kind? b = some k → v ∈ k.uses → g.Defines site v →
    g.Dominates site.block b
  before_given : ∀ {e a b d v w site}, among w → g.edge? e = some ⟨a, b, d⟩ →
    g.given b e v = some w → g.Defines site w → g.Dominates site.block a

theorem phi?_of_given {b : BlockId} {e : EdgeId} {v w : Var} (h : g.given b e v = some w) :
    ∃ p, g.phi? b v.name = some p ∧ Phis.lhs v.name p = v ∧ p.arg? e = some w := by
  obtain ⟨block, hb, hgiven⟩ := Option.bind_eq_some_iff.mp h
  rw [phi?_of_block? hb]
  exact Phis.given_eq_some_iff.mp hgiven

theorem given_of_phi? {b : BlockId} {name : String} {p : Phi} (hp : g.phi? b name = some p)
    {e : EdgeId} {w : Var} (hw : p.arg? e = some w) : g.given b e (Phis.lhs name p) = some w := by
  obtain ⟨block, hb, hp⟩ := Option.bind_eq_some_iff.mp hp
  rw [given_of_block? hb]
  exact Phis.given_eq_some_iff.mpr ⟨p, hp, rfl, hw⟩

/-- All variables are defined once. -/
theorem definedOnceIn_true_iff : g.DefinedOnceIn (fun _ => True) ↔ g.DefinedOnce := by
  constructor
  · intro h
    refine ⟨h.unique trivial, h.before_use trivial, fun hp hv he hdef => ?_⟩
    exact h.before_given trivial he (given_of_phi? hp hv) hdef
  · intro h
    refine ⟨fun _ => trivial, fun _ => h.unique, fun _ => h.before_use, fun _ he hw hdef => ?_⟩
    obtain ⟨p, hp, -, harg⟩ := phi?_of_given hw
    exact h.before_arg hp harg he hdef

/-- Without phi functions there is nothing to ask for. -/
theorem PhiFree.definedOnceIn (h : g.PhiFree) : g.DefinedOnceIn fun _ => False where
  of_phi hdef := by
    generalize hsite : Site.phi _ _ = site at hdef
    cases hdef with
    | statement => cases hsite
    | phi hp =>
      obtain ⟨block, hb, hp⟩ := Option.bind_eq_some_iff.mp hp
      rw [h hb] at hp
      cases hp
  unique := False.elim
  before_use := False.elim
  before_given := False.elim

theorem exists_definedOnceIn (h : g.PhiFree ∨ g.DefinedOnce) : ∃ among, g.DefinedOnceIn among := by
  rcases h with hfree | honce
  · exact ⟨_, hfree.definedOnceIn⟩
  · exact ⟨_, definedOnceIn_true_iff.mpr honce⟩

/-! ### Less of a graph -/

/-- A graph defines what another does if its statements and phi functions are there too. -/
theorem Defines.mono {site : Site} {v : Var} (h : g'.Defines site v)
    (hkind : ∀ {b s}, g'.kind? b = some (.statement s) → g.kind? b = some (.statement s))
    (hphi : ∀ {b name p}, g'.phi? b name = some p →
      ∃ p', g.phi? b name = some p' ∧ p'.version = p.version) : g.Defines site v := by
  cases h with
  | statement hk hv => exact .statement (hkind hk) hv
  | @phi b name p hp =>
    obtain ⟨p', hp', hversion⟩ := hphi hp
    have hlhs : Phis.lhs name p' = Phis.lhs name p := congrArg (Var.mk name) hversion
    exact hlhs ▸ .phi hp'

theorem Route.mono {p : List BlockId} {b : BlockId} (h : g'.Route p b)
    (hleads : ∀ {a b}, g'.Leads a b → g.Leads a b) : g.Route p b := by
  induction h with
  | start => exact .start
  | step _ hl ih => exact .step ih (hleads hl)

/-- **A graph with fewer edges**, on which the phi functions give what they gave. -/
structure Thins (g g' : Graph) : Prop where
  exists_edge : ∀ {e a b d}, g'.edge? e = some ⟨a, b, d⟩ → ∃ d', g.edge? e = some ⟨a, b, d'⟩
  given_eq : ∀ {e a b d}, g'.edge? e = some ⟨a, b, d⟩ → ∀ v, g'.given b e v = g.given b e v

theorem Thins.route (h : g.Thins g') {p : List BlockId} {b : BlockId} (hp : g'.Route p b) :
    g.Route p b :=
  hp.mono fun ⟨e, _, he⟩ => (h.exists_edge he).elim fun d' he' => ⟨e, d', he'⟩

/-- **Definitions stay single** in a graph with fewer edges, statements and phi functions. -/
theorem DefinedOnceIn.of_less (h : g.DefinedOnceIn among) (hthins : g.Thins g')
    (hdef : ∀ {site v}, g'.Defines site v → g.Defines site v)
    (hkind : ∀ {b k v}, g'.kind? b = some k → v ∈ k.uses → g.kind? b = some k) :
    g'.DefinedOnceIn among := by
  have hdom : ∀ {a b}, g.Dominates a b → g'.Dominates a b := fun h p hp => h p (hthins.route hp)
  refine ⟨fun h' => h.of_phi (hdef h'), fun hv hs hs' => h.unique hv (hdef hs) (hdef hs'),
    fun hv hk hin hs => hdom (h.before_use hv (hkind hk hin) hin (hdef hs)), fun hw he hg hs => ?_⟩
  obtain ⟨d', he'⟩ := hthins.exists_edge he
  exact hdom (h.before_given hw he' (hthins.given_eq he _ ▸ hg) (hdef hs))

theorem Block.get?_foldl_without (es : List EdgeId) (block : Block) {name : String} {p : Phi}
    (hp : (es.foldl (fun block e => block.without e) block).phis.get? name = some p) :
    ∃ p', block.phis.get? name = some p' ∧ p'.version = p.version := by
  induction es generalizing block with
  | nil => exact ⟨p, hp, rfl⟩
  | cons e es ih =>
    obtain ⟨q, hq, hversion⟩ := ih _ hp
    simp only [Block.without, Phis.map, OrdMap.get?_mapValues, Option.map_eq_some_iff] at hq
    obtain ⟨p', hp', rfl⟩ := hq
    exact ⟨p', hp', hversion⟩

section
variable (hg : g.Listed)
include hg

theorem Listed.phi?_removeBlock (x : BlockId) {b : BlockId} {name : String} {p : Phi}
    (hp : (g.removeBlock x).phi? b name = some p) :
    ∃ p', g.phi? b name = some p' ∧ p'.version = p.version := by
  obtain ⟨block', hb', hp⟩ := Option.bind_eq_some_iff.mp hp
  cases hx : g.block? x with
  | none =>
    rw [Graph.removeBlock, hx] at hb'
    exact ⟨p, (phi?_of_block? hb' _).trans hp, rfl⟩
  | some block =>
    rw [hg.block?_removeBlock hx] at hb'
    split at hb'
    · cases hb'
    · obtain ⟨block₀, hb₀, rfl⟩ := Option.map_eq_some_iff.mp hb'
      rw [phi?_of_block? hb₀]
      exact Block.get?_foldl_without _ _ hp

theorem Listed.phi?_foldl_removeBlock (xs : List BlockId) {b : BlockId} {name : String} {p : Phi}
    (hp : (xs.foldl Graph.removeBlock g).phi? b name = some p) :
    ∃ p', g.phi? b name = some p' ∧ p'.version = p.version := by
  induction xs generalizing g with
  | nil => exact ⟨p, hp, rfl⟩
  | cons x xs ih =>
    obtain ⟨q, hq, hversion⟩ := ih (hg.removeBlock x).listed hp
    obtain ⟨p', hp', hversion'⟩ := hg.phi?_removeBlock x hq
    exact ⟨p', hp', hversion'.trans hversion⟩

/-- On an edge that stays, phi functions give the same. -/
theorem Listed.given_foldl_removeBlock (xs : List BlockId) {e : EdgeId} {a b : BlockId}
    {d : Direction} (he : (xs.foldl Graph.removeBlock g).edge? e = some ⟨a, b, d⟩) (v : Var) :
    (xs.foldl Graph.removeBlock g).given b e v = g.given b e v := by
  induction xs generalizing g with
  | nil => rfl
  | cons x xs ih =>
    have hrestricts := hg.removeBlock x
    refine (ih hrestricts.listed he).trans ?_
    obtain ⟨he₁, -⟩ := (hrestricts.listed.foldl_removeBlock xs).edge?_iff.mp he
    obtain ⟨he₀, ha, hb⟩ := hrestricts.edge?_iff.mp he₁
    cases hx : g.block? x with
    | none => rw [Graph.removeBlock, hx]
    | some block => exact hg.given_removeBlock hx he₀ ha hb v

end

theorem WellFormed.thins_pruned (hg : g.WellFormed) : g.Thins g.pruned where
  exists_edge he := ⟨_, (hg.restricts_pruned.edge?_iff.mp he).1⟩
  given_eq := hg.listed.given_foldl_removeBlock _

/-- **Unreachable blocks** may go. -/
theorem DefinedOnceIn.pruned (h : g.DefinedOnceIn among) (hg : g.WellFormed) :
    g.pruned.DefinedOnceIn among := by
  have hrestricts := hg.restricts_pruned
  refine h.of_less hg.thins_pruned ?_ fun hk _ => (hrestricts.kind?_eq_some hk).2
  exact fun hdef => hdef.mono (fun hk => (hrestricts.kind?_eq_some hk).2)
    (hg.listed.phi?_foldl_removeBlock _)

/-! ### A branch resolved -/

theorem WellFormed.phis_resolved (hg : g.WellFormed) (b c : BlockId) (kept dropped : EdgeId) :
    ((g.resolved b kept dropped).block? c).map Block.phis =
      (g.block? c).map fun block => (block.without dropped).phis := by
  rw [Graph.resolved, block?_modifyBlock]
  have hremoved := hg.listed.block?_removeEdge dropped c
  split
  · rw [Option.map_map]
    exact (congrArg (Option.map Block.phis) hremoved).trans (Option.map_map ..)
  · exact (congrArg (Option.map Block.phis) hremoved).trans (Option.map_map ..)

/-- On an edge that stays, phi functions give the same. -/
theorem WellFormed.given_resolved (hg : g.WellFormed) {b c : BlockId} {kept dropped e : EdgeId}
    (hne : e ≠ dropped) (v : Var) : (g.resolved b kept dropped).given c e v = g.given c e v := by
  have hphis := hg.phis_resolved b c kept dropped
  cases hc : g.block? c with
  | none =>
    rw [hc, Option.map_none, Option.map_eq_none_iff] at hphis
    rw [given, given, hphis, hc]
  | some block =>
    rw [hc, Option.map_some] at hphis
    obtain ⟨block', hc', hphis⟩ := Option.map_eq_some_iff.mp hphis
    rw [given_of_block? hc', given_of_block? hc, hphis]
    exact Phis.given_map_dropArg hne v

theorem WellFormed.thins_resolved (hg : g.WellFormed) {b t : BlockId} {d : Direction}
    {kept dropped : EdgeId} (hkept : g.edge? kept = some ⟨b, t, d⟩) (hne : kept ≠ dropped) :
    g.Thins (g.resolved b kept dropped) where
  exists_edge {e a c d'} he := by
    rcases (edge?_resolved hkept hne).mp he with ⟨-, -, he⟩ | ⟨rfl, hx⟩
    · exact ⟨_, he⟩
    · cases hx
      exact ⟨_, hkept⟩
  given_eq {e a c d'} he := by
    rcases (edge?_resolved hkept hne).mp he with ⟨-, hed, -⟩ | ⟨rfl, -⟩
    · exact hg.given_resolved hed
    · exact hg.given_resolved hne

/-- **A branch** may be resolved. -/
theorem DefinedOnceIn.resolved (h : g.DefinedOnceIn among) (hg : g.WellFormed) {b t : BlockId}
    {d : Direction} {kept dropped : EdgeId} (hkept : g.edge? kept = some ⟨b, t, d⟩)
    (hne : kept ≠ dropped) : (g.resolved b kept dropped).DefinedOnceIn among := by
  have hkind : ∀ {c k}, (g.resolved b kept dropped).kind? c = some k → k ≠ .empty →
      g.kind? c = some k := by
    intro c k hk hne
    rw [hg.kind?_resolved] at hk
    split at hk
    · obtain ⟨_, -, rfl⟩ := Option.map_eq_some_iff.mp hk
      exact absurd rfl hne
    · exact hk
  refine h.of_less (hg.thins_resolved hkept hne)
    (fun hdef => hdef.mono (fun hk => hkind hk nofun) fun {c name p} hp => ?phi)
    fun hk hv => hkind hk ?uses
  case phi =>
    obtain ⟨block', hc', hp⟩ := Option.bind_eq_some_iff.mp hp
    have hphis := hg.phis_resolved b c kept dropped
    rw [hc', Option.map_some] at hphis
    obtain ⟨block, hc, hphis⟩ := Option.map_eq_some_iff.mp hphis.symm
    rw [phi?_of_block? hc]
    exact Block.get?_foldl_without [dropped] block (hphis ▸ hp)
  case uses =>
    rintro rfl
    cases hv

/-! ### A block led past -/

/-- Nothing is handed on but what the successor takes on the link. -/
theorem handed_empty (own : Phis) (link e : EdgeId) (v : Var) :
    handed own .empty link e v = own.given link v := by
  have hnone : (.empty : Phis).get? v.name = none := rfl
  cases hp : own.get? v.name with
  | none =>
    simp only [handed_of_get?_eq_none hp, Phis.given, hp, hnone, Option.bind_none]
  | some p =>
    by_cases hlhs : Phis.lhs v.name p = v
    · rw [handed_of_lhs hp hlhs, Phis.given_of_lhs hp hlhs, hnone]
      cases harg : p.arg? link <;> simp only [passedValue, harg]
    · rw [handed_of_ne_lhs hp hlhs, Phis.given, hp, Option.bind_some, if_neg hlhs]

theorem given_bypassedPhis_empty {own : Phis} {link : EdgeId} {pairs : List (EdgeId × EdgeId)}
    {others : List EdgeId} {e : EdgeId} (hnot : ∀ old, (old, e) ∉ pairs) (v : Var) :
    Phis.given (bypassedPhis own .empty link pairs others) e v = own.given e v := by
  have hnone : (.empty : Phis).get? v.name = none := rfl
  rw [Phis.given, Phis.given, get?_bypassedPhis, hnone, Option.map_none, Option.or_none]
  cases own.get? v.name with
  | none => rfl
  | some p =>
    simp only [Option.map_some, Option.bind_some, lhs_mergedPhi, arg?_mergedPhi_other hnot]

section
variable {x s : BlockId} {link : EdgeId} {old succ : Block} (hx : g.EmptyBefore x s link old succ)
  (hbare : old.phis = .empty)
include hx

theorem EmptyBefore.wellFormed_detour : (g.detour x s link old succ).WellFormed :=
  (hx.rerouted.removable link hx.wellFormed hx.block_eq hx.isTerminal_eq hx.ne hx.succ_eq).1

/-- **An edge that is left** was there, or it comes from one that entered the block. -/
theorem EmptyBefore.edge?_leadPast_cases {e : EdgeId} {a b : BlockId} {d : Direction}
    (he : (g.leadPast x s link old succ).edge? e = some ⟨a, b, d⟩) : a ≠ x ∧ b ≠ x ∧
      (g.edge? e = some ⟨a, b, d⟩ ∨
        b = s ∧ ∃ o, (o, e) ∈ (g.redirectAll s old.preds).1 ∧ g.edge? o = some ⟨a, x, d⟩) := by
  rw [leadPast_eq hx.ne] at he
  obtain ⟨he', hax, hbx⟩ := (hx.wellFormed_detour.listed.removeBlock x).edge?_iff.mp he
  refine ⟨hax, hbx, ?_⟩
  rcases hx.edge?_led.mp he' with ⟨hold, -⟩ | ⟨o, a', d', hin, ho, heq⟩
  · exact .inl hold
  · cases heq
    exact .inr ⟨rfl, o, hin, ho⟩

/-- On it the phi functions give what they do before the block is removed. -/
theorem EmptyBefore.given_leadPast {e : EdgeId} {a b : BlockId} {d : Direction}
    (he : (g.leadPast x s link old succ).edge? e = some ⟨a, b, d⟩) (v : Var) :
    (g.leadPast x s link old succ).given b e v = (g.detour x s link old succ).given b e v := by
  have hmid := hx.wellFormed_detour.listed
  rw [leadPast_eq hx.ne] at he ⊢
  obtain ⟨he', hax, hbx⟩ := (hmid.removeBlock x).edge?_iff.mp he
  obtain ⟨old', hx'⟩ : ∃ old', (g.detour x s link old succ).block? x = some old' :=
    (hx.rerouted.removable link hx.wellFormed hx.block_eq hx.isTerminal_eq hx.ne hx.succ_eq).2.1.imp
      fun _ => And.left
  exact hmid.given_removeBlock hx' he' hax hbx v

/-- A route past the block is one through it. -/
theorem EmptyBefore.exists_route {p' : List BlockId} {b : BlockId}
    (h : (g.leadPast x s link old succ).Route p' b) :
    ∃ p, g.Route p b ∧ ∀ c ∈ p, c = x ∨ c ∈ p' := by
  induction h with
  | start => exact ⟨_, .start, fun c hc => .inr hc⟩
  | @step p' a b _ hl ih =>
    obtain ⟨e, d, he⟩ := hl
    obtain ⟨p, hp, hsub⟩ := ih
    have hgrow : ∀ c, c = x ∨ c ∈ p' → c = x ∨ c ∈ b :: p' := fun c =>
      Or.imp_right (List.mem_cons_of_mem b)
    obtain ⟨-, -, he | ⟨rfl, o, -, ho⟩⟩ := hx.edge?_leadPast_cases he
    · refine ⟨b :: p, .step hp ⟨e, d, he⟩, List.forall_mem_cons.mpr ⟨.inr List.mem_cons_self, ?_⟩⟩
      exact fun c hc => hgrow c (hsub c hc)
    · refine ⟨b :: x :: p, .step (.step hp ⟨o, d, ho⟩) ⟨_, _, hx.link_eq⟩, ?_⟩
      refine List.forall_mem_cons.mpr ⟨.inr List.mem_cons_self,
        List.forall_mem_cons.mpr ⟨.inl rfl, ?_⟩⟩
      exact fun c hc => hgrow c (hsub c hc)

/-- So what dominated a block still does, the block led past left aside. -/
theorem EmptyBefore.dominates_leadPast {a b : BlockId} (hab : g.Dominates a b) (hax : a ≠ x) :
    (g.leadPast x s link old succ).Dominates a b := by
  intro p' hp'
  obtain ⟨p, hp, hsub⟩ := hx.exists_route hp'
  exact (hsub a (hab p hp)).resolve_left hax

include hbare

/-- The successor keeps its phi functions. -/
theorem EmptyBefore.phi?_leadPast {b : BlockId} {name : String} {p : Phi}
    (hp : (g.leadPast x s link old succ).phi? b name = some p) :
    ∃ p', g.phi? b name = some p' ∧ p'.version = p.version := by
  rw [leadPast_eq hx.ne] at hp
  have hbx : b ≠ x := by
    rintro rfl
    obtain ⟨block, hb, -⟩ := Option.bind_eq_some_iff.mp hp
    rw [(hx.wellFormed_detour.listed.removeBlock b).block?_of_gone rfl] at hb
    cases hb
  obtain ⟨q, hq, hversion⟩ := hx.wellFormed_detour.listed.phi?_removeBlock x hp
  obtain ⟨block, hb, hget⟩ := Option.bind_eq_some_iff.mp hq
  by_cases hbs : b = s
  · subst hbs
    have hbody := hx.body_detour_self
    rw [hb, Option.map_some, Option.some.injEq] at hbody
    have hphis : block.phis = _ := congrArg Prod.snd hbody
    rw [hphis, hbare] at hget
    rcases of_get?_bypassedPhis hget with ⟨p', hp', rfl⟩ | ⟨p', hp', -⟩
    · refine ⟨p', (phi?_of_block? hx.succ_eq _).trans hp', ?_⟩
      exact (congrArg Var.version (lhs_mergedPhi ..)).symm.trans hversion
    · cases hp'
  · have hbody := hx.body_detour hbx hbs
    rw [hb] at hbody
    obtain ⟨block₀, hb₀, heq⟩ := Option.map_eq_some_iff.mp hbody.symm
    have hphis : block₀.phis = block.phis := congrArg Prod.snd heq
    exact ⟨q, (phi?_of_block? hb₀ _).trans (hphis ▸ hget), hversion⟩

/-- On an edge that is left the successor takes what it took on the link, unless the edge was there.
-/
theorem EmptyBefore.edge?_leadPast {e : EdgeId} {a b : BlockId} {d : Direction}
    (he : (g.leadPast x s link old succ).edge? e = some ⟨a, b, d⟩) : a ≠ x ∧ b ≠ x ∧
      (g.edge? e = some ⟨a, b, d⟩ ∧
          (∀ v, (g.leadPast x s link old succ).given b e v = g.given b e v) ∨
        b = s ∧ (∃ o, g.edge? o = some ⟨a, x, d⟩) ∧
          ∀ v, (g.leadPast x s link old succ).given b e v = g.given s link v) := by
  obtain ⟨hax, hbx, hcases⟩ := hx.edge?_leadPast_cases he
  refine ⟨hax, hbx, ?_⟩
  simp only [hx.given_leadPast he]
  rcases hcases with hold | ⟨rfl, o, hin, ho⟩
  · refine .inl ⟨hold, fun v => ?_⟩
    by_cases hbs : b = s
    · subst hbs
      have hpred := (hx.wellFormed.listed.mem_preds hx.succ_eq e).mpr ⟨_, hold, rfl⟩
      rw [given_of_body hx.body_detour_self, given_of_block? hx.succ_eq, hbare,
        given_bypassedPhis_empty fun o hnew => hx.new_notMem hnew hpred]
    · obtain ⟨block, hb⟩ : ∃ block, g.block? b = some block := hx.wellFormed.listed.target_live hold
      have hbody := hx.body_detour hbx hbs
      rw [hb, Option.map_some] at hbody
      rw [given_of_body hbody, given_of_block? hb]
      rfl
  · refine .inr ⟨rfl, ⟨o, ho⟩, fun v => ?_⟩
    rw [hx.given_detour hin, hbare, handed_empty, given_of_block? hx.succ_eq]

/-- **A block without phi functions** may be led past. -/
theorem DefinedOnceIn.leadPast (h : g.DefinedOnceIn among) :
    (g.leadPast x s link old succ).DefinedOnceIn among := by
  have hkind : ∀ {b k}, (g.leadPast x s link old succ).kind? b = some k →
      g.kind? b = some k := fun hk =>
    (hx.bypassed.kind?_iff.mp hk).2
  have hdef : ∀ {site v}, (g.leadPast x s link old succ).Defines site v →
      g.Defines site v := fun hdef =>
    hdef.mono hkind (hx.phi?_leadPast hbare)
  -- The block defines nothing.
  have hne : ∀ {site v}, g.Defines site v → site.block ≠ x := by
    rintro site v (@⟨b, s, _, hk, -⟩ | @⟨b, name, p, hp⟩) (rfl : b = x)
    · rw [hx.kind?_eq] at hk
      cases hk
    · rw [phi?_of_block? hx.block_eq, hbare] at hp
      cases hp
  have hdom : ∀ {a b}, g.Dominates a b → a ≠ x → (g.leadPast x s link old succ).Dominates a b :=
    hx.dominates_leadPast
  refine ⟨fun h' => h.of_phi (hdef h'), fun hv hs hs' => h.unique hv (hdef hs) (hdef hs'),
    fun hv hk hin hs => hdom (h.before_use hv (hkind hk) hin (hdef hs)) (hne (hdef hs)),
    fun {e a b d v w site} hw he hgiven hs => hdom ?_ (hne (hdef hs))⟩
  obtain ⟨-, -, ⟨he, hsame⟩ | ⟨rfl, ⟨o, ho⟩, hlink⟩⟩ := hx.edge?_leadPast hbare he
  · exact h.before_given hw he (hsame v ▸ hgiven) (hdef hs)
  · -- What the link took is defined before the block, and so before what leads to the block.
    have hbefore := h.before_given hw hx.link_eq (hlink v ▸ hgiven) (hdef hs)
    exact hbefore.pred (hne (hdef hs)) ⟨o, d, ho⟩

end

/-! ### Copies to come -/

/-- **A place that defines a variable** when the phi functions of a block are being made into
copies: a copy to come counts as a definition by its phi function. -/
def DefinesWith (g : Graph) (t : BlockId) (cs : List Ssa.Copy) (site : Site) (v : Var) : Prop :=
  g.Defines site v ∨ site = .phi t v ∧ v ∈ cs.map Ssa.Copy.dst

/-- **Some variables have at most one definition**, which comes before their uses, while copies are
still to come on the edge from `a` to `t`. -/
structure DefinedOnceWith (g : Graph) (among : Var → Prop) (e : EdgeId)
    (a t : BlockId) (d : Direction)
    (cs : List Ssa.Copy) : Prop where
  wellFormed : g.WellFormed
  edge_eq : g.edge? e = some ⟨a, t, d⟩
  solitary : g.Solitary t
  bare : ∀ name, g.phi? t name = none
  nodup : (cs.map Ssa.Copy.dst).Nodup
  of_phi : ∀ {b v}, g.DefinesWith t cs (.phi b v) v → among v
  unique : ∀ {v site site'}, among v → g.DefinesWith t cs site v → g.DefinesWith t cs site' v →
    site' = site
  before_use : ∀ {b k v site}, among v → g.kind? b = some k → v ∈ k.uses →
    g.DefinesWith t cs site v →
    g.Dominates site.block b
  before_given : ∀ {e a b d v w site}, among w → g.edge? e = some ⟨a, b, d⟩ →
    g.given b e v = some w → g.DefinesWith t cs site w → g.Dominates site.block a
  before_copy : ∀ {c site}, c ∈ cs → among c.src → g.DefinesWith t cs site c.src →
    g.Dominates site.block a

/-- With no copies to come, definitions are single. -/
theorem DefinedOnceWith.definedOnceIn {e : EdgeId} {a t : BlockId} {d : Direction}
    (h : g.DefinedOnceWith among e a t d []) : g.DefinedOnceIn among where
  of_phi hdef := h.of_phi (.inl hdef)
  unique hv hs hs' := h.unique hv (.inl hs) (.inl hs')
  before_use hv hk hin hs := h.before_use hv hk hin (.inl hs)
  before_given hw he hgiven hs := h.before_given hw he hgiven (.inl hs)

section
variable {e : EdgeId} {a t : BlockId} {d : Direction} {k : Kind} (hg : g.WellFormed)
  (he : g.edge? e = some ⟨a, t, d⟩)
include hg he

/-- A route over the new block is one over the edge. -/
theorem WellFormed.exists_route_splitEdge {p' : List BlockId} {b : BlockId}
    (h : (g.splitEdge e ⟨a, t, d⟩ k).graph.Route p' b) :
    (b ≠ g.nextBlock → ∃ p, g.Route p b ∧ p ⊆ p') ∧
    (b = g.nextBlock → ∃ p, g.Route p a ∧ p ⊆ p') := by
  induction h with
  | start =>
    obtain ⟨block, hb⟩ := hg.entry_live
    exact ⟨fun _ => ⟨_, .start, fun _ => id⟩, fun heq => absurd heq (ne_nextBlock hb)⟩
  | @step p' c b _ hl ih =>
    obtain ⟨e', d', he'⟩ := hl
    rcases (edge?_splitEdge_eq_some he).mp he' with ⟨-, hx⟩ | ⟨-, hx⟩ | ⟨-, hx⟩
    · obtain ⟨p, hp, hsub⟩ := ih.1 (hg.listed.source_ne_nextBlock hx)
      refine ⟨fun _ => ⟨b :: p, .step hp ⟨e', d', hx⟩, List.cons_subset_cons b hsub⟩, fun heq => ?_⟩
      exact absurd heq (hg.listed.target_ne_nextBlock hx)
    · cases hx
      obtain ⟨p, hp, hsub⟩ := ih.1 (hg.listed.source_ne_nextBlock he)
      exact ⟨fun hne => absurd rfl hne, fun _ =>
        ⟨p, hp, fun _ hc => List.mem_cons_of_mem _ (hsub hc)⟩⟩
    · cases hx
      obtain ⟨p, hp, hsub⟩ := ih.2 rfl
      refine ⟨fun _ => ⟨t :: p, .step hp ⟨e, d, he⟩, List.cons_subset_cons t hsub⟩, fun heq => ?_⟩
      exact absurd heq (hg.listed.target_ne_nextBlock he)

/-- Dominance among the blocks that were there stays. -/
theorem WellFormed.dominates_splitEdge {b c : BlockId} (h : g.Dominates b c)
    (hc : c ≠ g.nextBlock) :
    (g.splitEdge e ⟨a, t, d⟩ k).graph.Dominates b c := by
  intro p' hp'
  obtain ⟨p, hp, hsub⟩ := (hg.exists_route_splitEdge he hp').1 hc
  exact hsub (h p hp)

/-- The source of the edge dominates the new block. -/
theorem WellFormed.dominates_nextBlock :
    (g.splitEdge e ⟨a, t, d⟩ k).graph.Dominates a g.nextBlock := by
  intro p' hp'
  obtain ⟨p, hp, hsub⟩ := (hg.exists_route_splitEdge he hp').2 rfl
  exact hsub hp.mem_self

theorem WellFormed.solitary_splitEdge (hsole : g.Solitary t) :
    (g.splitEdge e ⟨a, t, d⟩ k).graph.Solitary t := by
  have honly : ∀ {e' a' d'}, (g.splitEdge e ⟨a, t, d⟩ k).graph.edge? e' = some ⟨a', t, d'⟩ →
      e' = g.tailOf := by
    intro e' a' d' he'
    rcases (edge?_splitEdge_eq_some he).mp he' with ⟨hne, hx⟩ | ⟨-, hx⟩ | ⟨heq, -⟩
    · exact absurd (hsole he hx) hne
    · exact (hg.listed.target_ne_nextBlock he (congrArg Edge.target hx)).elim
    · exact heq
  exact fun _ _ _ _ _ _ he₁ he₂ => (honly he₂).trans (honly he₁).symm

/-- The new block dominates the target if nothing else enters it. -/
theorem WellFormed.nextBlock_dominates (hsole : g.Solitary t) :
    (g.splitEdge e ⟨a, t, d⟩ k).graph.Dominates g.nextBlock t := by
  have htail := (edge?_splitEdge_eq_some he (k := k)).mpr (.inr (.inr ⟨rfl, rfl⟩))
  exact (hg.solitary_splitEdge he hsole).dominates (hg.wired.entry_closed he) htail

theorem WellFormed.phi?_splitEdge {b : BlockId} {name : String} {p : Phi}
    (hp : (g.splitEdge e ⟨a, t, d⟩ k).graph.phi? b name = some p) :
    ∃ p', g.phi? b name = some p' ∧ p'.version = p.version := by
  obtain ⟨block, hb, hp⟩ := Option.bind_eq_some_iff.mp hp
  rcases (hg.listed.block?_splitEdge_eq_some he).mp hb with ⟨-, rfl⟩ | ⟨old, hold, rfl⟩
  · cases hp
  · rw [Block.resplit, Phis.map, OrdMap.get?_mapValues] at hp
    obtain ⟨p', hp', rfl⟩ := Option.map_eq_some_iff.mp hp
    refine ⟨p', (phi?_of_block? hold name).trans hp', ?_⟩
    cases harg : p'.arg? e with
    | none => rw [Phi.moveArg_eq_self harg]
    | some v => simp only [Phi.moveArg, harg]; rfl

/-- The edge was not split if its target has a phi function and the target of the split edge has
none. -/
theorem WellFormed.given_splitEdge (hbare : ∀ name, g.phi? t name = none) {e' : EdgeId}
    {a' b : BlockId} {d' : Direction} {v w : Var}
    (he' : (g.splitEdge e ⟨a, t, d⟩ k).graph.edge? e' = some ⟨a', b, d'⟩)
    (hw : (g.splitEdge e ⟨a, t, d⟩ k).graph.given b e' v = some w) :
    g.edge? e' = some ⟨a', b, d'⟩ ∧ g.given b e' v = some w := by
  obtain ⟨p, hp, -, -⟩ := phi?_of_given hw
  obtain ⟨p', hp', -⟩ := hg.phi?_splitEdge he hp
  obtain ⟨old, hold, -⟩ := Option.bind_eq_some_iff.mp hp'
  have hbt : b ≠ t := by
    rintro rfl
    rw [hbare] at hp'
    cases hp'
  rcases (edge?_splitEdge_eq_some he).mp he' with ⟨-, hx⟩ | ⟨-, hx⟩ | ⟨-, hx⟩
  · have hb := (hg.listed.block?_splitEdge_eq_some he (k := k)).mpr (.inr ⟨old, hold, rfl⟩)
    have hphis : (old.resplit e g.headOf g.tailOf).phis = old.phis :=
      hg.listed.map_moveArg hold fun hin => hbt (hg.listed.target_eq hold hin he).symm
    rw [given_of_block? hb, hphis, ← given_of_block? hold] at hw
    exact ⟨hx, hw⟩
  · cases hx
    exact absurd rfl (ne_nextBlock hold)
  · cases hx
    exact absurd rfl hbt

end

section
variable {e : EdgeId} {a t : BlockId} {d : Direction} {c : Ssa.Copy} {cs : List Ssa.Copy}

/-- **A definition with one copy made** is one of before, or the copy in place of the one to come.
-/
theorem DefinedOnceWith.defines_splitEdge (h : g.DefinedOnceWith among e a t d (c :: cs))
    {site : Site} {v : Var}
    (hdef : (g.splitEdge e ⟨a, t, d⟩ (.statement (.copy c.dst c.src))).graph.DefinesWith
      t cs site v) :
    g.DefinesWith t (c :: cs) site v ∧ (v = c.dst → site ≠ .phi t v) ∨
      site = .statement g.nextBlock ∧ v = c.dst := by
  rcases hdef with hdef | ⟨rfl, hv⟩
  · cases hdef with
    | statement hk hv =>
      rw [h.wellFormed.listed.kind?_splitEdge h.edge_eq] at hk
      split at hk
      · rename_i hb
        cases hk
        exact .inr ⟨congrArg Site.statement hb, List.mem_singleton.mp hv⟩
      · exact .inl ⟨.inl (.statement hk hv), nofun⟩
    | @phi b name p hp =>
      obtain ⟨p', hp', hversion⟩ := h.wellFormed.phi?_splitEdge h.edge_eq hp
      have hlhs : Phis.lhs name p' = Phis.lhs name p := congrArg (Var.mk name) hversion
      refine .inl ⟨.inl (hlhs ▸ .phi hp'), fun _ heq => ?_⟩
      cases heq
      rw [h.bare] at hp'
      cases hp'
  · refine .inl ⟨.inr ⟨rfl, List.mem_cons_of_mem _ hv⟩, fun heq _ => ?_⟩
    exact (List.nodup_cons.mp h.nodup).1 (heq ▸ hv)

/-- What a definition dominated is dominated by the copy in its place. -/
theorem DefinedOnceWith.exists_site (h : g.DefinedOnceWith among e a t d (c :: cs)) {site : Site}
    {v : Var}
    (hdef : (g.splitEdge e ⟨a, t, d⟩ (.statement (.copy c.dst c.src))).graph.DefinesWith
      t cs site v) :
    ∃ site₀, g.DefinesWith t (c :: cs) site₀ v ∧ ∀ x ≠ g.nextBlock, g.Dominates site₀.block x →
      (g.splitEdge e ⟨a, t, d⟩ (.statement (.copy c.dst c.src))).graph.Dominates site.block x := by
  have hkeep {x y : BlockId} := h.wellFormed.dominates_splitEdge h.edge_eq
    (k := .statement (.copy c.dst c.src)) (b := x) (c := y)
  rcases h.defines_splitEdge hdef with ⟨hold, -⟩ | ⟨rfl, rfl⟩
  · exact ⟨site, hold, fun x hx hdom => hkeep hdom hx⟩
  · refine ⟨.phi t c.dst, .inr ⟨rfl, List.mem_cons_self⟩, fun x hx hdom => ?_⟩
    exact (h.wellFormed.nextBlock_dominates h.edge_eq h.solitary).trans (hkeep hdom hx)

/-- **One copy made.** -/
theorem DefinedOnceWith.splitEdge (h : g.DefinedOnceWith among e a t d (c :: cs)) :
    (g.splitEdge e ⟨a, t, d⟩ (.statement (.copy c.dst c.src))).graph.DefinedOnceWith among
      g.tailOf g.nextBlock t .always cs := by
  have hg := h.wellFormed
  have he := h.edge_eq
  have hlive : a ≠ g.nextBlock := hg.listed.source_ne_nextBlock he
  have hpending : g.DefinesWith t (c :: cs) (.phi t c.dst) c.dst := .inr ⟨rfl, List.mem_cons_self⟩
  -- The new block reads what the copy to come would have read after the source of the edge.
  have hcopy : ∀ {c' site}, c' ∈ c :: cs → among c'.src →
      (g.splitEdge e ⟨a, t, d⟩ (.statement (.copy c.dst c.src))).graph.DefinesWith
      t cs site c'.src →
      (g.splitEdge e ⟨a, t, d⟩ (.statement (.copy c.dst c.src))).graph.Dominates site.block
        g.nextBlock := by
    intro c' site hc' hin hdef
    obtain ⟨site₀, hold, hdom⟩ := h.exists_site hdef
    exact (hdom a hlive (h.before_copy hc' hin hold)).trans (hg.dominates_nextBlock he)
  constructor
  case wellFormed => exact hg.splitEdge he rfl nofun
  case edge_eq => exact (edge?_splitEdge_eq_some he).mpr (.inr (.inr ⟨rfl, rfl⟩))
  case solitary => exact hg.solitary_splitEdge he h.solitary
  case bare =>
    intro name
    refine Option.eq_none_iff_forall_ne_some.mpr fun p hp => ?_
    obtain ⟨p', hp', -⟩ := hg.phi?_splitEdge he hp
    rw [h.bare] at hp'
    cases hp'
  case nodup => exact (List.nodup_cons.mp h.nodup).2
  case of_phi =>
    intro b v hdef
    rcases h.defines_splitEdge hdef with ⟨hold, -⟩ | ⟨hsite, -⟩
    · exact h.of_phi hold
    · cases hsite
  case unique =>
    intro v site site' hv hs hs'
    rcases h.defines_splitEdge hs with ⟨hold, hne⟩ | ⟨rfl, rfl⟩ <;>
      rcases h.defines_splitEdge hs' with ⟨hold', hne'⟩ | ⟨rfl, heq⟩
    · exact h.unique hv hold hold'
    · subst heq
      exact absurd (h.unique hv hpending hold) (hne rfl)
    · exact absurd (h.unique hv hpending hold') (hne' rfl)
    · rfl
  case before_use =>
    intro b k v site hv hk hin hdef
    rw [hg.listed.kind?_splitEdge he] at hk
    split at hk
    · rename_i hb
      cases hk
      cases List.mem_singleton.mp hin
      exact hb ▸ hcopy List.mem_cons_self hv hdef
    · rename_i hb
      obtain ⟨site₀, hold, hdom⟩ := h.exists_site hdef
      exact hdom b hb (h.before_use hv hk hin hold)
  case before_given =>
    intro e' a' b d' v w site hw he' hgiven hdef
    obtain ⟨he', hgiven⟩ := hg.given_splitEdge he h.bare he' hgiven
    obtain ⟨site₀, hold, hdom⟩ := h.exists_site hdef
    exact hdom a' (hg.listed.source_ne_nextBlock he') (h.before_given hw he' hgiven hold)
  case before_copy => exact fun hc' => hcopy (List.mem_cons_of_mem _ hc')

/-- **All copies made.** -/
theorem DefinedOnceWith.foldlM_spliceNext (h : g.DefinedOnceWith among e a t d cs) (e₀ : EdgeId)
    {tail : EdgeId} (hok : (cs.foldlM (Ssa.spliceNext e₀) (e, g)).outcome = .ok (tail, g')) :
    g'.DefinedOnceIn among := by
  induction cs generalizing g e a d with
  | nil =>
    cases hok
    exact h.definedOnceIn
  | cons c cs ih =>
    rw [List.foldlM_cons,
      Run.outcome_bind_of_ok (Ssa.outcome_spliceNext h.wellFormed.listed h.edge_eq e₀ c)] at hok
    exact ih h.splitEdge hok

end

/-! ### Solo phi functions -/

section
variable {b a : BlockId} {block : Block} {e : EdgeId} {d : Direction} (hg : g.WellFormed)
  (hb : g.block? b = some block) (hpreds : block.preds = [e]) (he : g.edge? e = some ⟨a, b, d⟩)
include hg hb hpreds

theorem WellFormed.soloChain_eq :
    soloChain block.phis = (block.phis.copiesFor e).filter fun c => c.src ≠ c.dst := by
  refine Graph.soloChain_eq fun hp _ _ hw => ?_
  have hin := hg.listed.args_enter hb hp hw
  rw [hpreds] at hin
  exact List.mem_singleton.mp hin

theorem WellFormed.given_of_mem_soloChain {c : Ssa.Copy} (hc : c ∈ soloChain block.phis) :
    g.given b e c.dst = some c.src := by
  rw [hg.soloChain_eq hb hpreds] at hc
  rw [given_of_block? hb]
  exact Phis.mem_copiesFor_iff_given.mp (List.mem_filter.mp hc).1

include he

/-- **The phi functions are copies to come** once the block has forgotten them. -/
theorem DefinedOnceIn.forget (h : g.DefinedOnceIn among) :
    (g.forget b).DefinedOnceWith among e a b d (soloChain block.phis) := by
  have hphi : ∀ {c name p}, (g.forget b).phi? c name = some p → c ≠ b ∧ g.phi? c name = some p := by
    intro c name p hp
    obtain ⟨block', hc, hp⟩ := Option.bind_eq_some_iff.mp hp
    by_cases hcb : c = b
    · subst hcb
      rw [block?_forget_self hb] at hc
      cases hc
      cases hp
    · rw [block?_forget_of_ne hcb] at hc
      exact ⟨hcb, (phi?_of_block? hc name).trans hp⟩
  have hdef : ∀ {site v}, (g.forget b).DefinesWith b (soloChain block.phis) site v →
      g.Defines site v := by
    rintro site v (hdef | ⟨rfl, hv⟩)
    · refine hdef.mono (fun hk => (kind?_forget g b _).symm.trans hk) fun hp => ?_
      exact ⟨_, (hphi hp).2, rfl⟩
    · obtain ⟨c, hc, rfl⟩ := List.mem_map.mp hv
      obtain ⟨p, hp, hlhs, -⟩ := phi?_of_given (hg.given_of_mem_soloChain hb hpreds hc)
      exact hlhs ▸ .phi hp
  have hdom : ∀ {x y}, g.Dominates x y → (g.forget b).Dominates x y := fun h p hp =>
    h p (hp.mono id)
  constructor
  case wellFormed => exact (Grows.forget hg b).wellFormed
  case edge_eq => exact he
  case solitary => exact hg.listed.solitary_of_preds hb hpreds
  case bare => exact fun name => Option.eq_none_iff_forall_ne_some.mpr fun p hp => (hphi hp).1 rfl
  case nodup =>
    rw [hg.soloChain_eq hb hpreds]
    exact nodup_dst_filter e
  case of_phi => exact fun h' => h.of_phi (hdef h')
  case unique => exact fun hv hs hs' => h.unique hv (hdef hs) (hdef hs')
  case before_use =>
    exact fun hv hk hin hs =>
      hdom (h.before_use hv ((kind?_forget g b _).symm.trans hk) hin (hdef hs))
  case before_given =>
    intro e' a' c d' v w site hw he' hgiven hs
    obtain ⟨p, hp, -, harg⟩ := phi?_of_given hgiven
    exact hdom (h.before_given hw he' (given_of_phi? (hphi hp).2 harg) (hdef hs))
  case before_copy =>
    exact fun hc hin hs =>
      hdom (h.before_given hin he (hg.given_of_mem_soloChain hb hpreds hc) (hdef hs))

/-- **Solo phi functions** may become copies. -/
theorem DefinedOnceIn.simplifySolo (h : g.DefinedOnceIn among)
    (hok : (g.simplifySolo b).outcome = .ok g') : g'.DefinedOnceIn among := by
  have he' : (g.forget b).edge? e = some ⟨a, b, d⟩ := he
  obtain ⟨tail, g₁, hfold, -⟩ :=
    Ssa.foldlM_spliceNext (Grows.forget hg b).wellFormed he' e (soloChain block.phis)
  rw [outcome_simplifySolo hb hpreds hfold] at hok
  cases hok
  exact (h.forget hg hb hpreds he).foldlM_spliceNext e hfold

end

/-! ### Tidying -/

/-- **Definitions stay single** with every step of tidying up. -/
theorem Neatens.definedOnceIn (hg : g.WellFormed) (hstep : Neatens g g')
    (h : g.DefinedOnceIn among) :
    g'.DefinedOnceIn among := by
  cases hstep with
  | copied hb hok =>
    rcases hg.simplifySolo_cases hb hok with rfl | ⟨e, a, d, hpreds, he, -⟩
    · exact h
    · exact h.simplifySolo hg hb hpreds he hok
  | passed hx hbare => exact h.leadPast hx hbare

theorem DefinedOnceIn.of_neatens (hg : g.WellFormed) (h : g.DefinedOnceIn among)
    (hchain : Relation.ReflTransGen Neatens g g') : g'.DefinedOnceIn among := by
  induction hchain with
  | refl => exact h
  | tail hchain hlast ih => exact hlast.definedOnceIn (neater_of_neatens hg hchain).wellFormed ih

end Graph
end FlowGraph
