import FlowGraph.Proofs.DefinedOnce
import FlowGraph.Proofs.SoloPhis

/-! # Stepping over an empty block

An empty block is performed by performing its phi functions.  Taken out, it leaves them to its
successor: on each edge that used to enter it, one parallel assignment has to do what the block's
and its successor's did one after the other.  The successor looks for the block's phi functions by
base name.  Where that finds all that is needed (`HandsOn`), a graph from which the block is taken
out gets to the successor with the same values (`StepsOver`).

If a single edge is left to enter the successor, its phi functions become copies.  There is a
difference to a parallel assignment only if one of the blocks defines what its phi functions take,
and then it would have to dominate its own predecessor.
-/
namespace FlowGraph
namespace Graph

/-- A variable that a phi function of a block defines and whose base name the successor merges too.
Its phi function does not outlive the block. -/
def Superseded (g : Graph) (b s : BlockId) (v : Var) : Prop :=
  (g.phi? s v.name).isSome ∧ ∃ p ∈ g.phi? b v.name, Phis.lhs v.name p = v

/-- At most one edge enters a block. -/
def Solitary (g : Graph) (b : BlockId) : Prop :=
  ∀ ⦃e e' a a' d d'⦄, g.edge? e = some ⟨a, b, d⟩ → g.edge? e' = some ⟨a', b, d'⟩ → e' = e

/-- **A block whose successor can look for its phi functions by base name.** -/
structure HandsOn (g : Graph) (b s : BlockId) (link : EdgeId) : Prop where
  /-- An argument on the link that the block defines has the base name of the variable that takes
  it.  It may have an earlier one if both blocks have a single predecessor: there copies are made in
  the order of base names. -/
  by_name : ∀ {v w p}, g.given s link v = some w → g.phi? b w.name = some p →
    Phis.lhs w.name p = w → w.name = v.name ∨
      w.name < v.name ∧ g.phi? s w.name = none ∧ g.Solitary b ∧ g.Solitary s
  /-- No block that is reached reads a variable whose phi function is lost. -/
  unread : ∀ {c k v}, g.Reachable c → g.kind? c = some k → v ∈ k.uses → ¬ g.Superseded b s v
  /-- No phi function but those on the link takes it. -/
  untaken : ∀ {e a c d v w}, g.Reachable a → g.edge? e = some ⟨a, c, d⟩ → e ≠ link →
    g.given c e v = some w → ¬ g.Superseded b s w

variable {g : Graph}

/-! ### Blocks with a single predecessor -/

/-- The only predecessor of a block dominates it. -/
theorem Solitary.dominates {b a : BlockId} {e : EdgeId} {d : Direction} (hb : g.Solitary b)
    (hne : b ≠ entry) (he : g.edge? e = some ⟨a, b, d⟩) : g.Dominates a b := by
  intro p hp
  cases hp with
  | start => exact absurd rfl hne
  | step hp hl =>
    obtain ⟨e', d', he'⟩ := hl
    rw [hb he he', he] at he'
    cases he'
    exact List.mem_cons_of_mem _ hp.mem_self

/-- It is not dominated by the block. -/
theorem Solitary.not_dominates {b a : BlockId} {e : EdgeId} {d : Direction} (hb : g.Solitary b)
    (hne : b ≠ entry) (he : g.edge? e = some ⟨a, b, d⟩) (hab : a ≠ b) (hreach : g.Reachable b) :
    ¬ g.Dominates b a := fun h => hab ((hb.dominates hne he).antisymm h hreach)

theorem Solitary.preds_eq {b a : BlockId} {block : Block} {e : EdgeId} {d : Direction}
    (hb : g.Solitary b) (hg : g.Listed) (hblock : g.block? b = some block)
    (he : g.edge? e = some ⟨a, b, d⟩) : block.preds = [e] := by
  have hin := (hg.mem_preds hblock e).mpr ⟨_, he, rfl⟩
  have hnodup := hg.nodup_preds hblock
  have hall : ∀ e' ∈ block.preds, e' = e := by
    intro e' he'
    obtain ⟨⟨a', _, d'⟩, hedge, rfl⟩ := (hg.mem_preds hblock e').mp he'
    exact hb he hedge
  cases hpreds : block.preds with
  | nil =>
    rw [hpreds] at hin
    cases hin
  | cons e₁ es =>
    rw [hpreds] at hnodup hall
    obtain ⟨rfl, hall⟩ := List.forall_mem_cons.mp hall
    have hnil : es = [] := List.eq_nil_iff_forall_not_mem.mpr fun e₂ he₂ =>
      (List.nodup_cons.mp hnodup).1 (hall e₂ he₂ ▸ he₂)
    rw [hnil]

theorem Listed.solitary_of_preds (hg : g.Listed) {b : BlockId} {block : Block} {e : EdgeId}
    (hb : g.block? b = some block) (hpreds : block.preds = [e]) : g.Solitary b := by
  have hsole : ∀ {e' a d}, g.edge? e' = some ⟨a, b, d⟩ → e' = e := fun he' => by
    have hin := (hg.mem_preds hb _).mpr ⟨_, he', rfl⟩
    rw [hpreds] at hin
    exact List.mem_singleton.mp hin
  exact fun _ _ _ _ _ _ he he' => (hsole he').trans (hsole he).symm

/-- The slots not in use are those of before and that of the block. -/
theorem Bypassed.kind?_eq_none_iff {g' : Graph} {x s : BlockId} {link : EdgeId} {old succ : Block}
    (h : Bypassed g g' x s link old succ) {b : BlockId} :
    g'.kind? b = none ↔ b = x ∨ g.kind? b = none := by
  constructor
  · intro hnone
    refine or_iff_not_imp_left.mpr fun hbx => ?_
    cases hk : g.kind? b with
    | none => rfl
    | some k =>
      rw [h.kind?_iff.mpr ⟨hbx, hk⟩] at hnone
      cases hnone
  · intro hb
    cases hk : g'.kind? b with
    | none => rfl
    | some k =>
      obtain ⟨hbx, hk⟩ := h.kind?_iff.mp hk
      rw [hk] at hb
      exact absurd (hb.resolve_right (Option.some_ne_none k)) hbx

/-- A single edge enters the successor if single edges entered both blocks. -/
theorem Bypassed.solitary_iff {g' : Graph} {x s : BlockId} {link : EdgeId} {old succ : Block}
    (h : Bypassed g g' x s link old succ) (hx : g.EmptyBefore x s link old succ) {e : EdgeId}
    {a : BlockId} {d : Direction} (he : g.edge? e = some ⟨a, x, d⟩) :
    g'.Solitary s ↔ g.Solitary x ∧ g.Solitary s := by
  have hg := hx.wellFormed
  constructor
  · intro hs
    obtain ⟨e', he', -⟩ := h.led he
    refine ⟨fun e₁ e₂ _ _ _ _ he₁ he₂ => ?_, ?_⟩
    · obtain ⟨e₁', he₁', -⟩ := h.led he₁
      obtain ⟨e₂', he₂', -⟩ := h.led he₂
      rw [hs he₁' he₂', he₁'] at he₂'
      cases he₂'
      exact hg.edge_unique he₂ he₁
    · have honly : ∀ {e₁ a₁ d₁}, g.edge? e₁ = some ⟨a₁, s, d₁⟩ → e₁ = link := by
        intro e₁ a₁ d₁ he₁
        by_cases ha : a₁ = x
        · exact hx.eq_link (ha ▸ he₁)
        · -- it stays, next to the one that is led past the block
          have he₁' := (h.kept he₁ ha hx.ne).1
          rw [hs he' he₁', he'] at he₁'
          cases he₁'
          rw [hg.edge_unique he₁ he, he] at he₁
          cases he₁
          exact absurd rfl hx.ne
      exact fun _ _ _ _ _ _ he₁ he₂ => (honly he₂).trans (honly he₁).symm
  · rintro ⟨hsolex, hsoles⟩ e₁ e₂ a₁ a₂ d₁ d₂ he₁ he₂
    have hled : ∀ {e a d}, g'.edge? e = some ⟨a, s, d⟩ → ∃ o, g.edge? o = some ⟨a, x, d⟩ :=
      fun he => (h.into he).resolve_left fun hkept => hkept.1 (hsoles hx.link_eq hkept.2)
    obtain ⟨o₁, ho₁⟩ := hled he₁
    obtain ⟨o₂, ho₂⟩ := hled he₂
    rw [hsolex ho₁ ho₂, ho₁] at ho₂
    cases ho₂
    exact h.wellFormed.edge_unique he₂ he₁

/-! ### Ways past the block -/

/-- **A graph that goes past an empty block.**  Instead of entering the block and leaving it by the
link, a walk gets to the successor by way of inserted copies, if any, and gives all variables but
those superseded what they got before. -/
structure StepsOver (g g' : Graph) (x s : BlockId) (link : EdgeId) : Prop where
  wellFormed : g'.WellFormed
  kind?_of_ne : ∀ {b k}, b ≠ x → g.kind? b = some k → g'.kind? b = some k
  gone : g'.kind? x = none
  inserted : ∀ {b k}, g'.kind? b = some k → g.kind? b = none →
    ∃ c : Ssa.Copy, k = .statement (.copy c.dst c.src)
  kept : ∀ {e a t d}, g.edge? e = some ⟨a, t, d⟩ → a ≠ x → t ≠ x →
    g'.edge? e = some ⟨a, t, d⟩ ∧ ∀ v, g'.source t e v = g.source t e v
  past : ∀ {e a d}, g.edge? e = some ⟨a, x, d⟩ → ∀ {V : Type} {I : Interpretation V} {k : Kind}
    {m : Memory V}, g.kind? a = some k → k.way I m.store = d →
    ∃ n σ, steps (g'.advance I) (n + 1) ⟨a, m⟩ = some ⟨s, σ, (k.perform I m).shown⟩ ∧
      (∀ v, ¬ g.Superseded x s v →
        σ v = (k.perform I m).store (g.source x e (g.source s link v))) ∧
      ∀ i, 0 < i → i < n + 1 → ∀ {u}, steps (g'.advance I) i ⟨a, m⟩ = some u →
        g.kind? u.block = none

theorem source_of_block? {b : BlockId} {block : Block} (hb : g.block? b = some block) (e : EdgeId)
    (v : Var) : g.source b e v = block.phis.source e v := by
  rw [source, given_of_block? hb, Phis.source]

theorem atOnce_phiCopies {e : EdgeId} {a b : BlockId} {d : Direction}
    (he : g.edge? e = some ⟨a, b, d⟩) {V : Type} (σ : Store V) (v : Var) :
    Ssa.atOnce (g.phiCopies e) σ v = σ (g.source b e v) := by
  rw [Ssa.atOnce_apply, origin_phiCopies he]

/-- A step along an edge. -/
theorem WellFormed.advance_eq (hg : g.WellFormed) {V : Type} {I : Interpretation V} {a b : BlockId}
    {k : Kind} {e : EdgeId} {m : Memory V} (hk : g.kind? a = some k)
    (he : g.edge? e = some ⟨a, b, k.way I m.store⟩) : g.advance I ⟨a, m⟩ =
      some ⟨b, Ssa.atOnce (g.phiCopies e) (k.perform I m).store, (k.perform I m).shown⟩ :=
  hg.advanceBy_eq_some_iff.mpr ⟨k, e, hk, he, rfl⟩

section
variable {x s : BlockId} {link e : EdgeId} {old succ : Block} (hx : g.EmptyBefore x s link old succ)
include hx

theorem EmptyBefore.lhs_ne {v : Var} (hv : ¬ g.Superseded x s v) {p q : Phi}
    (hp : succ.phis.get? v.name = some p) (hq : old.phis.get? v.name = some q) :
    Phis.lhs v.name q ≠ v := by
  intro hlhs
  refine hv ⟨?_, q, ?_, hlhs⟩
  · rw [phi?_of_block? hx.succ_eq, hp]
    rfl
  · rw [phi?_of_block? hx.block_eq]
    exact hq

theorem HandsOn.name_eq (h : g.HandsOn x s link) {v w : Var} {q : Phi}
    (hw : succ.phis.given link v = some w) (hq : old.phis.get? w.name = some q)
    (hlhs : Phis.lhs w.name q = w) : w.name = v.name ∨
      w.name < v.name ∧ succ.phis.get? w.name = none ∧ g.Solitary x ∧ g.Solitary s := by
  rw [← phi?_of_block? hx.succ_eq]
  exact h.by_name ((given_of_block? hx.succ_eq link v).trans hw)
    ((phi?_of_block? hx.block_eq _).trans hq) hlhs

/-- **The successor merges** what the block merged. -/
theorem Bypassed.stepsOver {g' : Graph} (h : Bypassed g g' x s link old succ)
    (hhands : g.HandsOn x s link) (hmany : ¬ g'.Solitary s) : StepsOver g g' x s link where
  wellFormed := h.wellFormed
  kind?_of_ne hbx hk := h.kind?_iff.mpr ⟨hbx, hk⟩
  gone := h.kind?_eq_none_iff.mpr (.inl rfl)
  inserted {b k} hk hnone := by
    rw [h.kind?_eq_none_iff.mpr (.inr hnone)] at hk
    cases hk
  kept := h.kept
  past {e a d} he {V I k m} hk hway := by
    obtain ⟨e', he', hgiven⟩ := h.led he
    refine ⟨0, Ssa.atOnce (g'.phiCopies e') (k.perform I m).store, ?_, fun v hv => ?_,
      fun i hpos hlt => by omega⟩
    · rw [steps_succ, h.wellFormed.advance_eq (h.kind?_iff.mpr ⟨hx.source_ne he, hk⟩) (hway ▸ he')]
      rfl
    · have hfused := getD_handed (hx.lhs_ne hv) (fun hw hq hlhs =>
        (hhands.name_eq hx hw hq hlhs).resolve_right fun hsole =>
          hmany ((h.solitary_iff hx he).mpr hsole.2.2)) e
      rw [atOnce_phiCopies he', source, hgiven, hfused, source_of_block? hx.block_eq,
        source_of_block? hx.succ_eq]

/-! ### Chains past the block -/

omit hx in
theorem defines_of_lhs {b : BlockId} {block : Block} (hb : g.block? b = some block) {v : Var}
    {p : Phi} (hp : block.phis.get? v.name = some p) (hlhs : Phis.lhs v.name p = v) :
    g.Defines (.phi b v) v := by
  have hdef : g.Defines (.phi b (Phis.lhs v.name p)) (Phis.lhs v.name p) :=
    .phi ((phi?_of_block? hb _).trans hp)
  rwa [hlhs] at hdef

/-- What is handed on was defined by one of the two blocks. -/
theorem EmptyBefore.defines_of_handed {v w : Var}
    (h : handed succ.phis old.phis link e v = some w) :
    g.Defines (.phi s v) v ∨ g.Defines (.phi x v) v := by
  cases hp : succ.phis.get? v.name with
  | some p =>
    by_cases hlhs : Phis.lhs v.name p = v
    · exact .inl (defines_of_lhs hx.succ_eq hp hlhs)
    · rw [handed_of_ne_lhs hp hlhs] at h
      cases h
  | none =>
    rw [handed_of_get?_eq_none hp] at h
    obtain ⟨q, hq, hlhs, -⟩ := Phis.given_eq_some_iff.mp h
    exact .inr (defines_of_lhs hx.block_eq hq hlhs)

omit hx in
/-- A definition comes before the ends of the edges on which phi functions take it. -/
theorem DefinedOnce.before_given (hssa : g.DefinedOnce) {b a : BlockId} {block : Block}
    (hb : g.block? b = some block) {d : Direction} (he : g.edge? e = some ⟨a, b, d⟩) {v w : Var}
    (hw : block.phis.given e v = some w) {site : Site} (hdef : g.Defines site w) :
    g.Dominates site.block a := by
  obtain ⟨p, hp, -, harg⟩ := Phis.given_eq_some_iff.mp hw
  exact hssa.before_arg ((phi?_of_block? hb _).trans hp) harg he hdef

variable (hreach : g.Reachable x) (hsoles : g.Solitary s)
include hreach hsoles

theorem EmptyBefore.not_dominates : ¬ g.Dominates s x :=
  hsoles.not_dominates (hx.wellFormed.wired.entry_closed hx.link_eq) hx.link_eq hx.ne.symm
    (hreach.step ⟨_, _, hx.link_eq⟩)

variable (hssa : g.DefinedOnce)
include hssa

/-- What the block takes is defined by neither block. -/
theorem EmptyBefore.handed_eq_none (hsolex : g.Solitary x) {a : BlockId} {d : Direction}
    (he : g.edge? e = some ⟨a, x, d⟩) {v w : Var} (hw : old.phis.given e v = some w) :
    handed succ.phis old.phis link e w = none := by
  cases hz : handed succ.phis old.phis link e w with
  | none => rfl
  | some z =>
    exfalso
    rcases hx.defines_of_handed hz with hdef | hdef
    · have hdom := hssa.before_given hx.block_eq he hw hdef
      exact hx.not_dominates hreach hsoles (hdom.trans (hsolex.dominates hx.ne_entry he))
    · exact hsolex.not_dominates hx.ne_entry he (hx.source_ne he) hreach
        (hssa.before_given hx.block_eq he hw hdef)

/-- What the successor takes on the link is not defined by itself. -/
theorem EmptyBefore.lhs_ne_arg {v w : Var} {p : Phi} (hw : succ.phis.given link v = some w)
    (hp : succ.phis.get? w.name = some p) : Phis.lhs w.name p ≠ w := fun hlhs =>
  hx.not_dominates hreach hsoles
    (hssa.before_given hx.succ_eq hx.link_eq hw (defines_of_lhs hx.succ_eq hp hlhs))

/-- **Copies do** what the phi functions of both blocks did, if a single edge enters the successor.
-/
theorem Bypassed.stepsOver_chain {g₂ g' : Graph} (h : Bypassed g g₂ x s link old succ)
    (hhands : g.HandsOn x s link) {succ₂ : Block} (hs₂ : g₂.block? s = some succ₂) {e' : EdgeId}
    {a' : BlockId} {d' : Direction} (hpreds : succ₂.preds = [e'])
    (he' : g₂.edge? e' = some ⟨a', s, d'⟩) (hcopied : SoloCopied g₂ g' s)
    (hchain : CopyChain g' (fun c => g₂.kind? c = none) a' d' (soloChain succ₂.phis) s)
    (hgone : g'.kind? x = none) : StepsOver g g' x s link := by
  have hlost : ∀ {b}, g.kind? b = none → g₂.kind? b = none := fun hb =>
    h.kind?_eq_none_iff.mpr (.inr hb)
  refine ⟨hcopied.wellFormed, fun hbx hk => hcopied.kind?_eq (h.kind?_iff.mpr ⟨hbx, hk⟩), hgone,
    fun hk hb => hcopied.inserted hk (hlost hb), fun {e a t d} he hax htx => ?kept,
    fun {e a d} he {V I k m} hk hway => ?past⟩
  case kept =>
    have hts : t ≠ s := fun heq => hx.ne_link he hax (hsoles hx.link_eq (heq ▸ he))
    obtain ⟨he₂, hsource⟩ := h.kept he hax htx
    obtain ⟨he₃, hsource'⟩ := hcopied.kept he₂ hts
    exact ⟨he₃, fun v => (hsource' v).trans (hsource v)⟩
  case past =>
    have hsole₂ := h.wellFormed.listed.solitary_of_preds hs₂ hpreds
    have hsolex := ((h.solitary_iff hx he).mp hsole₂).1
    obtain ⟨e₂, he₂, hgiven⟩ := h.led he
    cases hsole₂ he' he₂
    rw [he'] at he₂
    cases he₂
    have hchain' : CopyChain g' (fun c => g.kind? c = none) a' d' (soloChain succ₂.phis) s := by
      refine hchain.mono id (fun _ => id) fun {b k'} hb hk' => ⟨?_, hk'⟩
      refine (h.kind?_eq_none_iff.mp hb).resolve_left fun heq => ?_
      rw [heq, hgone] at hk'
      cases hk'
    have hk' := hcopied.kind?_eq (h.kind?_iff.mpr ⟨hx.source_ne he, hk⟩)
    obtain ⟨n, hn, hinner⟩ := hchain'.steps_advance hcopied.wellFormed
      (fun he hb => hcopied.bare he (hb.imp_left hlost)) hk' hway
    refine ⟨n, _, hn, fun v hv => ?_, hinner⟩
    rw [soloChain_eq fun hp _ _ hw =>
      List.mem_singleton.mp (hpreds ▸ h.wellFormed.listed.args_enter hs₂ hp hw),
      source_of_block? hx.block_eq, source_of_block? hx.succ_eq]
    exact inOrder_handed (fun v => (given_of_block? hs₂ e' v).symm.trans (hgiven v))
      (hx.handed_eq_none hreach hsoles hssa hsolex he) (hx.lhs_ne_arg hreach hsoles hssa)
      (hx.lhs_ne hv) (fun hw hq hlhs => (hhands.name_eq hx hw hq hlhs).imp_right fun hlt =>
        ⟨hlt.1, hlt.2.1⟩) _

end

/-! ### The operation -/

section
variable {x s : BlockId} {link : EdgeId} {old succ : Block} (hx : g.EmptyBefore x s link old succ)
include hx

theorem EmptyBefore.outcome_bypass (hpreds : old.preds ≠ []) : (g.bypass x).outcome =
    ((g.leadPast x s link old succ).simplifySolo s).outcome := by
  have hd : old.kind.directions = [.always] := by rw [hx.empty]; rfl
  have hsuccs : old.succs = [link] := hx.wellFormed.succs_eq hx.block_eq hd hx.link_eq
  rw [Graph.bypass, Run.outcome_liftM_bind (block_eq_ok hx.block_eq)]
  simp only [hx.empty, hsuccs, Kind.isTerminal, Kind.isBranch, Bool.false_eq_true, if_false,
    List.isEmpty_cons]
  rw [Run.outcome_liftM_bind (hx.wellFormed.onwardEdge_eq_ok hx.block_eq hd hx.link_eq),
    Run.outcome_liftM_bind (edge_eq_ok hx.link_eq)]
  simp only [if_neg hx.ne, List.isEmpty_iff, hpreds, if_false]
  obtain ⟨hreroute, hdiscard⟩ := hx.wellFormed.listed.rerouteAll_preds hx.block_eq hx.succ_eq
  rw [Run.outcome_liftM_bind (block_eq_ok hx.succ_eq), Run.outcome_liftM_bind hreroute,
    Run.outcome_bind_of_ok (Run.outcome_report _), Run.outcome_liftM_bind (hdiscard _)]
  rfl

/-- **Taking a block out** that hands its phi functions on makes the graph step over it. -/
theorem EmptyBefore.stepsOver (hreach : g.Reachable x) (hssa : g.DefinedOnce)
    (hhands : g.HandsOn x s link) :
    ∃ g', (g.bypass x).outcome = .ok g' ∧ StepsOver g g' x s link := by
  have hg := hx.wellFormed
  have htakes := hg.takesOut_rerouted hx.block_eq hx.isTerminal_eq hx.link_eq hx.ne hx.succ_eq
  obtain ⟨succ₂, hs₂⟩ := htakes.live
  obtain ⟨a, -, e, d, he⟩ := hreach.pred hx.ne_entry
  have hpreds : old.preds ≠ [] :=
    List.ne_nil_of_mem ((hg.listed.mem_preds hx.block_eq e).mpr ⟨_, he, rfl⟩)
  rw [hx.outcome_bypass hpreds]
  by_cases hsole : (g.leadPast x s link old succ).Solitary s
  · obtain ⟨e', he', -⟩ := hx.bypassed.led he
    have hpreds₂ := hsole.preds_eq htakes.wellFormed.listed hs₂ he'
    obtain ⟨g', hok, hcopied, hchain⟩ := htakes.wellFormed.simplifySolo_chain hs₂ hpreds₂ he'
    refine ⟨g', hok, hx.bypassed.stepsOver_chain hx hreach
      ((hx.bypassed.solitary_iff hx he).mp hsole).2 hssa hhands hs₂ hpreds₂ he' hcopied hchain ?_⟩
    -- the copies take new slots
    obtain ⟨g'', hok', hgrows⟩ := htakes.wellFormed.grows_simplifySolo hs₂
    rw [hok] at hok'
    cases hok'
    exact Option.map_eq_none_iff.mpr (htakes.follows.block?_stale hgrows.follows hx.block_eq
      (Option.map_eq_none_iff.mp (hx.bypassed.kind?_eq_none_iff.mpr (.inl rfl))))
  · exact ⟨_, simplifySolo_of_ne hs₂ fun e hpreds =>
      hsole (htakes.wellFormed.listed.solitary_of_preds hs₂ hpreds),
      hx.bypassed.stepsOver hx hhands hsole⟩

end

end Graph
end FlowGraph
