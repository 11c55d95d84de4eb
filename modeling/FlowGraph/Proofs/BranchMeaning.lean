import FlowGraph.Proofs.TidyMeaning

/-! # What resolving a branch means

Where a branch has one outcome at all its visits, a walk after it is resolved does the same but for
the tests of this branch.  What a call gives may depend on all that was shown before it, tests among
it, and the tests of the branch are shown no more.  So walks are compared in which they are not
shown either (`hushedWalk`); for calls that do not heed tests this makes no difference.
-/
namespace FlowGraph

variable {V : Type} {I : Interpretation V}

/-! ### Tests that are not shown -/

/-- Whether an observation is that of a test. -/
def Observation.isTest : Observation V → Bool
  | .branched _ => true
  | _ => false

/-- What is left of a list of observations without the tests. -/
def Observation.untested (shown : List (Observation V)) : List (Observation V) :=
  shown.filter (!·.isTest)

/-- **Calls that do not heed tests.** -/
def Interpretation.Unheeding (I : Interpretation V) : Prop :=
  ∀ {shown shown'}, Observation.untested shown = Observation.untested shown' → ∀ function args,
    I.call shown function args = I.call shown' function args

/-- Two visits of the same block with the same values, that have shown the same but for tests. -/
structure Visit.SameUntested (u u' : Visit V) : Prop where
  block_eq : u'.block = u.block
  store_eq : u'.memory.store = u.memory.store
  shown_eq : Observation.untested u'.memory.shown = Observation.untested u.memory.shown

theorem Observation.untested_append (xs ys : List (Observation V)) :
    untested (xs ++ ys) = untested xs ++ untested ys :=
  List.filter_append ..

section
variable (hI : I.Unheeding) {m m' : Memory V} (hstore : m'.store = m.store)
  (hshown : Observation.untested m'.shown = Observation.untested m.shown)
include hI hstore hshown

theorem Interpretation.Unheeding.value_eq (x : Expr) : x.value I m' = x.value I m := by
  cases x with
  | call function args => simp only [Expr.value, hstore, hI hshown]
  | _ => simp only [Expr.value, hstore]

/-- **Blocks do the same** where only tests were shown differently. -/
theorem Interpretation.Unheeding.perform_eq (k : Kind) :
    (k.perform I m').store = (k.perform I m).store ∧
      Observation.untested (k.perform I m').shown = Observation.untested (k.perform I m).shown := by
  cases k with
  | statement s =>
    cases s with
    | assign lhs byRef rhs =>
      simp only [Kind.perform, Statement.perform, hI.value_eq hstore hshown, hstore,
        Observation.untested_append, hshown, and_self]
    | eval x =>
      simp only [Kind.perform, Statement.perform, hI.value_eq hstore hshown, hstore,
        Observation.untested_append, hshown, and_self]
    | ret x =>
      simp only [Kind.perform, Statement.perform, hstore, Observation.untested_append,
        hshown, and_self]
    | _ => exact ⟨hstore, hshown⟩
  | branch b =>
    simp only [Kind.perform, Branch.perform, hstore, Observation.untested_append, hshown, and_self]
  | _ => exact ⟨hstore, hshown⟩

end

namespace Graph

variable {g : Graph} {b : BlockId} {br : Branch}

/-- **One step of a walk in which the tests of one block are not shown.** -/
def hushed (I : Interpretation V) (g : Graph) (b : BlockId) (u : Visit V) : Option (Visit V) :=
  (g.advance I u).map fun w =>
    if u.block = b then ⟨w.block, w.memory.store, u.memory.shown⟩ else w

/-- **The walk of a graph in which the tests of one block are not shown.** -/
def hushedWalk (I : Interpretation V) (g : Graph) (b : BlockId) (σ : Store V) (n : Nat) :
    Option (Visit V) :=
  steps (g.hushed I b) n ⟨entry, σ, []⟩

theorem map_block_hushed (u : Visit V) :
    (g.hushed I b u).map Visit.block = (g.advance I u).map Visit.block := by
  rw [hushed, Option.map_map]
  refine congrArg (Option.map · _) (funext fun w => ?_)
  rw [Function.comp_apply]
  split <;> rfl

/-- Calls that do not heed tests do not notice that some are not shown. -/
theorem rel_hushed (hI : I.Unheeding) (hk : g.kind? b = some (.branch br)) {u u' : Visit V}
    (hu : u.SameUntested u') : Option.Rel Visit.SameUntested (g.hushed I b u) (g.advance I u') := by
  obtain ⟨a, m⟩ := u
  obtain ⟨a', m'⟩ := u'
  obtain ⟨rfl, hstore, hshown⟩ := hu
  dsimp only at hstore hshown
  cases hka : g.kind? a' with
  | none =>
    simp only [hushed, advance, advanceBy, hka, Option.bind_eq_bind, Option.bind_none,
      Option.map_none]
    exact .none
  | some k =>
    obtain ⟨hstore', hshown'⟩ := hI.perform_eq hstore hshown k
    cases hl : g.leads a' (k.way I m.store) with
    | none =>
      simp only [hushed, advance, advanceBy, hka, hl, hstore, Option.bind_eq_bind, Option.bind_some,
        Option.bind_none, Option.map_none]
      exact .none
    | some x =>
      simp only [hushed, advance, advanceBy, hka, hl, hstore, Option.bind_eq_bind, Option.bind_some,
        Option.pure_def, Option.map_some]
      refine .some ?_
      split
      · -- The branch shows nothing but its test.
        rename_i hab
        subst hab
        rw [hka] at hk
        cases hk
        refine ⟨rfl, congrArg (Ssa.atOnce (g.phiCopies x.1)) hstore', hshown'.trans ?_⟩
        exact (Observation.untested_append ..).trans (List.append_nil _)
      · exact ⟨rfl, congrArg (Ssa.atOnce (g.phiCopies x.1)) hstore', hshown'⟩

/-- **Walks do not differ** by tests that are not shown, if calls do not heed tests. -/
theorem rel_hushedWalk (hI : I.Unheeding) (hk : g.kind? b = some (.branch br))
    (σ : Store V) (n : Nat) :
    Option.Rel Visit.SameUntested (g.hushedWalk I b σ n) (g.walk I σ n) := by
  rw [walk_eq_steps]
  exact Accompanies.rel_steps (rel_hushed hI hk) ⟨rfl, rfl, rfl⟩ n

theorem sameTale_hushedWalk (hI : I.Unheeding) (hk : g.kind? b = some (.branch br)) (σ : Store V)
    (watched : BlockId → Bool) : SameTale (g.walk I σ) (g.incident? watched) (g.hushedWalk I b σ)
      (g.incident? watched) := by
  have hsame : ∀ {u u' : Visit V}, u.SameUntested u' →
      g.incident? watched u = g.incident? watched u' := by
    rintro u u' ⟨hblock, hstore, -⟩
    rw [incident?, incident?, reads, reads, hblock, hstore]
  have haccompanies : Accompanies (g.hushed I b) (g.incident? watched) (g.advance I)
      (g.incident? watched) Visit.SameUntested := .of_rel hsame (rel_hushed hI hk)
  rw [walk_eq_steps]
  exact haccompanies.symm.sameTale ⟨rfl, rfl, rfl⟩

/-- Then the branch has the same outcomes, whether or not its tests are shown. -/
theorem outcome_hushedWalk (hI : I.Unheeding) (hk : g.kind? b = some (.branch br)) {σ : Store V}
    {outcome : Bool} (hout : ∀ n u, g.walk I σ n = some u → u.block = b →
      br.outcome I u.memory.store = outcome) (n : Nat) (u : Visit V)
    (hu : g.hushedWalk I b σ n = some u) (hub : u.block = b) :
    br.outcome I u.memory.store = outcome := by
  have hrel := rel_hushedWalk hI hk σ n
  rw [hu] at hrel
  generalize hu' : g.walk I σ n = x at hrel
  cases hrel with
  | @some _ u' hsame =>
    rw [← hsame.store_eq]
    exact hout n u' hu' (hsame.block_eq.trans hub)

theorem WellFormed.hushedWalk_ended_iff (hg : g.WellFormed) (σ : Store V) :
    (∃ n, g.hushedWalk I b σ n = none) ↔ ∃ n u, g.hushedWalk I b σ n = some u ∧ u.block = exit :=
  hg.steps_ended_iff map_block_hushed .entry

/-! ### The branch resolved -/

section
variable {t o : BlockId} {kept dropped : EdgeId} {outcome : Bool} (hg : g.WellFormed)
  (hk : g.kind? b = some (.branch br)) (hkept : g.edge? kept = some ⟨b, t, .ofOutcome outcome⟩)
  (hdropped : g.edge? dropped = some ⟨b, o, .ofOutcome !outcome⟩)
include hg hk hkept hdropped

/-- A step takes the edge that is kept, and shows no test. -/
theorem WellFormed.advance_resolved {a : BlockId} {m : Memory V} (ha : g.Reachable a)
    (hout : a = b → br.outcome I m.store = outcome) :
    (g.resolved b kept dropped).advance I ⟨a, m⟩ = g.hushed I b ⟨a, m⟩ := by
  have hd := ofOutcome_ne outcome
  have hg' := hg.resolved hk hkept hdropped hd
  obtain ⟨block, hb⟩ := hg.live_of_reachable ha
  have hka := kind?_of_block? hb
  by_cases hab : a = b
  · subst hab
    have hk' : (g.resolved a kept dropped).kind? a = some .empty := by
      rw [hg.kind?_resolved, if_pos rfl, hk, Option.map_some]
    have he' := (hg.edge?_resolved_self hk hkept hdropped hd).mpr ⟨rfl, rfl, rfl⟩
    have he : g.edge? kept = some ⟨a, t, (Kind.branch br).way I m.store⟩ := by
      rw [hkept, Kind.way, hout rfl]
    have hstore : Ssa.atOnce ((g.resolved a kept dropped).phiCopies kept) m.store =
        Ssa.atOnce (g.phiCopies kept) m.store := by
      funext v
      rw [atOnce_phiCopies he', atOnce_phiCopies he, source, source,
        hg.given_resolved (ne_of_directions hkept hdropped hd)]
    rw [hg'.advance_eq hk' he', hushed, hg.advance_eq hk he, Option.map_some, if_pos rfl]
    exact congrArg (fun σ => some (Visit.mk t ⟨σ, m.shown⟩)) hstore
  · have hk' : (g.resolved b kept dropped).kind? a = some block.kind := by
      rw [hg.kind?_resolved, if_neg hab, hka]
    have hshow : g.hushed I b ⟨a, m⟩ = g.advance I ⟨a, m⟩ := by
      simp only [hushed, if_neg hab, Option.map_id']
    rw [hshow]
    rcases hg.exit_or_leaves hka I m.store with hexit | ⟨e, c, he⟩
    · rw [hg.advance_exit hexit, hg'.advance_exit hexit]
    · have he' := (edge?_resolved_of_ne hkept hdropped hd hab).mpr he
      refine hg.advance_congr hg' hka hk' he he' fun v => congrArg (Option.getD · v) ?_
      refine hg.given_resolved ?_ v
      rintro rfl
      exact hab (congrArg Edge.source (Option.some.inj (he.symm.trans hdropped)))

/-- **The branch resolved** does what the branch did, where it has one outcome. -/
theorem WellFormed.sameTale_resolved {σ : Store V} {watched : BlockId → Bool}
    (hwatched : watched b = false)
    (hout : ∀ n u, g.hushedWalk I b σ n = some u → u.block = b →
      br.outcome I u.memory.store = outcome) :
    SameTale (g.hushedWalk I b σ) (g.incident? watched) ((g.resolved b kept dropped).walk I σ)
      ((g.resolved b kept dropped).incident? watched) := by
  have haccompanies : Accompanies (g.hushed I b) (g.incident? watched)
      ((g.resolved b kept dropped).advance I) ((g.resolved b kept dropped).incident? watched)
      fun u u' => u' = u ∧ ∃ n, g.hushedWalk I b σ n = some u := by
    refine .of_rel ?tell ?step
    case tell =>
      rintro _ u ⟨rfl, -⟩
      by_cases hub : u.block = b
      · rw [incident?_unwatched fun _ => hub ▸ hwatched,
          incident?_unwatched fun _ => hub ▸ hwatched]
      · exact incident?_congr (by rw [hg.kind?_resolved, if_neg hub])
    case step =>
      rintro _ u ⟨rfl, n, hn⟩
      have hu : g.Reachable u.block := hg.reachable_of_steps map_block_hushed .entry hn
      rw [hg.advance_resolved hk hkept hdropped hu (hout n u hn)]
      cases hw : g.hushed I b u with
      | none => exact .none
      | some w =>
        refine .some ⟨rfl, n + 1, ?_⟩
        rw [hushedWalk, steps_next, ← hushedWalk, hn, Option.bind_some, hw]
  rw [walk_eq_steps]
  exact haccompanies.sameTale ⟨rfl, 0, rfl⟩

end

/-- **Resolving a branch** is followed by one change that tidying makes too. -/
theorem WellFormed.exists_resolveBranch (hg : g.WellFormed) (hk : g.kind? b = some (.branch br))
    {t o : BlockId} {kept dropped : EdgeId} {outcome : Bool}
    (hkept : g.edge? kept = some ⟨b, t, .ofOutcome outcome⟩)
    (hdropped : g.edge? dropped = some ⟨b, o, .ofOutcome !outcome⟩) :
    ∃ g', (g.resolveBranch b outcome).outcome = .ok g' ∧
    Neatens (g.resolved b kept dropped) g' := by
  have hd := ofOutcome_ne outcome
  obtain ⟨block, hb, hkind⟩ := block?_of_kind? hk
  have hbranch : block.kind.isBranch = true := by rw [hkind]; rfl
  obtain ⟨orphan, ho⟩ := hg.listed.target_live hdropped
  obtain ⟨orphan', ho'⟩ : ∃ orphan', (g.resolved b kept dropped).block? o = some orphan' :=
    hg.live_resolved ho
  obtain ⟨g', hok, -⟩ := (hg.resolved hk hkept hdropped hd).grows_simplifySolo ho'
  exact ⟨g', (hg.outcome_resolveBranch hb hbranch hkept hdropped).trans hok, .copied ho' hok⟩

/-- Whom an onlooker watches who leaves one block of a graph aside. -/
def others (g : Graph) (b c : BlockId) : Bool := c ≠ b && (g.kind? c).isSome

/-- **Resolving a branch and tidying** leaves what is done as it is, but for the tests of the
branch. -/
theorem WellFormed.exists_resolve_sameTale (hg : g.WellFormed) {among : Var → Prop}
    (hdef : g.DefinedOnceIn among) (hk : g.kind? b = some (.branch br)) (outcome : Bool) :
    ∃ g₁ count g', (g.resolveBranch b outcome).outcome = .ok g₁ ∧
    g₁.tidy.outcome = .ok (count, g') ∧
      g'.WellFormed ∧ g'.Reached ∧ (∀ k, g'.kind? b = some k → k = .empty) ∧
      (∀ c k, g'.kind? c = some k → g.kind? c = none → ∃ lhs rhs, k = .statement (.copy lhs rhs)) ∧
      ∀ {V : Type} (I : Interpretation V) (σ : Store V), (∀ n u, g.hushedWalk I b σ n = some u →
        u.block = b → br.outcome I u.memory.store = outcome) →
        SameTale (g.hushedWalk I b σ) (g.incident? (g.others b)) (g'.walk I σ)
          (g'.incident? (g.others b)) := by
  obtain ⟨kept, t, hkept⟩ := hg.exists_outcome hk outcome
  obtain ⟨dropped, o, hdropped⟩ := hg.exists_outcome hk !outcome
  have hresolved := hg.maintains_resolved hk hkept hdropped (ofOutcome_ne outcome)
  have hempty : (g.resolved b kept dropped).kind? b = some .empty := by
    rw [hg.kind?_resolved, if_pos rfl, hk, Option.map_some]
  have hdef' := hdef.resolved hg hkept (ne_of_directions hkept hdropped (ofOutcome_ne outcome))
  obtain ⟨g₁, hok₁, hstep⟩ := hg.exists_resolveBranch hk hkept hdropped
  have hneater₁ := hstep.neater hresolved.wellFormed
  obtain ⟨count, g', hok, hneater, hreached, hsame⟩ :=
    hneater₁.wellFormed.exists_tidy_sameTale (hstep.definedOnceIn hresolved.wellFormed hdef')
  have hadds := (hneater₁.addsCopies.trans hneater₁.wellFormed.addsCopies_pruned).trans
    hneater.addsCopies
  refine ⟨g₁, count, g', hok₁, hok, hneater.wellFormed, hreached, fun k hk' => ?empty,
    fun c k hk' hnone => ?copies, fun {V} I σ hout => ?walk⟩
  case empty =>
    rcases hadds.kind?_cases hk' with hold | ⟨hnone, -⟩
    · rw [hempty] at hold
      exact (Option.some.inj hold).symm
    · rw [hempty] at hnone
      cases hnone
  case copies =>
    rcases hadds.kind?_cases hk' with hold | ⟨-, c, hc⟩
    · rw [hg.kind?_resolved, hnone] at hold
      split at hold <;> cases hold
    · exact ⟨c.dst, c.src, hc⟩
  case walk =>
    have hunwatched : g.others b b = false := by simp [others]
    have hlive : ∀ {c}, g.others b c = true → ∃ k, g.kind? c = some k := fun {c} hc =>
      Option.isSome_iff_exists.mp ((Bool.and_eq_true ..).mp hc).2
    have hcopied := sameTale_of_neatens hresolved.follows hlive hresolved.wellFormed hdef'
      (.single hstep) I σ
    have htidied := hsame (hresolved.follows.trans hneater₁.follows) hlive I σ
    exact ((hg.sameTale_resolved hk hkept hdropped hunwatched hout).trans hcopied).trans htidied

end Graph

/-- **Resolving a branch keeps the meaning of a graph** without phi functions, or in which every
variable is defined at most once and before its uses, for all walks in which the branch has the
given outcome at every visit.  Its block becomes empty, or goes, and nothing but copies is inserted.
The tests of the branch and inserted copies left aside, a walk of the result performs the same
statements and tests the same branches in the same order, reads the same values, and ends the same
way.  As calls may depend on what was shown, the tests of the branch are not shown before either,
unless calls do not heed tests. -/
theorem Routine.resolveBranch_walk (r : Routine) (hg : r.graph.WellFormed)
    (h : r.graph.PhiFree ∨ r.graph.DefinedOnce) {b : BlockId} {br : Branch}
    (hk : r.graph.kind? b = some (.branch br)) (outcome : Bool) :
    ∃ r', (r.resolveBranch b outcome).outcome = .ok r' ∧ r'.graph.WellFormed ∧
      (∀ k, r'.graph.kind? b = some k → k = .empty) ∧
      (∀ c k, r'.graph.kind? c = some k → r.graph.kind? c = none →
        ∃ lhs rhs, k = .statement (.copy lhs rhs)) ∧
      ∀ {V : Type} (I : Interpretation V) (σ : Store V) (w : Nat → Option (Visit V)),
        w = r.graph.hushedWalk I b σ ∨ I.Unheeding ∧ w = r.graph.walk I σ →
        (∀ n u, w n = some u → u.block = b → br.outcome I u.memory.store = outcome) →
        SameTale w (r.graph.incident? (r.graph.others b))
          (r'.graph.walk I σ) (r'.graph.incident? (r.graph.others b)) ∧
        ((∃ n u, w n = some u ∧ u.block = Graph.exit) ↔
          ∃ n u, r'.graph.walk I σ n = some u ∧ u.block = Graph.exit) ∧
        ((∀ n, w n ≠ none) ↔ ∀ n, r'.graph.walk I σ n ≠ none) := by
  obtain ⟨among, hdef⟩ := Graph.exists_definedOnceIn h
  obtain ⟨g₁, count, g', hok₁, hok, hg', hreached, hempty, hcopies, hsame⟩ :=
    hg.exists_resolve_sameTale hdef hk outcome
  refine ⟨({ r with graph := g₁ } : Routine).withGraph g', ?_, hg', hempty, hcopies,
    fun {V} I σ w hw hout => ?_⟩
  · rw [Routine.resolveBranch, Run.outcome_bind_of_ok hok₁]
    exact Run.outcome_bind_of_ok (Routine.outcome_tidy { r with graph := g₁ } hok hg' hreached) _
  · have hexit := hg'.walk_ended_iff (I := I) σ
    rcases hw with rfl | ⟨hI, rfl⟩
    · have htale := hsame I σ hout
      refine ⟨htale, ?_, htale.endless_iff⟩
      exact ((hg.hushedWalk_ended_iff σ).symm.trans htale.ended_iff).trans hexit
    · have htale := (Graph.sameTale_hushedWalk hI hk σ (r.graph.others b)).trans
        (hsame I σ (Graph.outcome_hushedWalk hI hk hout))
      refine ⟨htale, ?_, htale.endless_iff⟩
      exact ((hg.walk_ended_iff σ).symm.trans htale.ended_iff).trans hexit

theorem Routine.preheader_resolved :
    Graph.preheader.WellFormed ∧ Graph.preheader.DefinedOnce ∧ Interpretation.counting.Unheeding ∧
      (∀ n u, Graph.preheader.walk .counting (fun _ => 7) n = some u → u.block = ⟨2⟩ →
        Branch.outcome .counting u.memory.store ⟨.plain "c", "then", "else"⟩ = true) ∧
      ∃ r', ((Routine.mk Graph.preheader .new none none).resolveBranch ⟨2⟩ true).outcome = .ok r' ∧
        SameTale (Graph.preheader.walk .counting fun _ => 7)
          (Graph.preheader.incident? (Graph.preheader.others ⟨2⟩))
          (r'.graph.walk .counting fun _ => 7)
          (r'.graph.incident? (Graph.preheader.others ⟨2⟩)) := by
  have hg : Graph.preheader.WellFormed := by decide
  have hssa : Graph.preheader.DefinedOnce := hg.definedOnce_iff.mpr (by decide)
  have hcalls : Interpretation.counting.Unheeding := fun _ _ _ => rfl
  have hout : ∀ n u, Graph.preheader.walk .counting (fun _ => 7) n = some u → u.block = ⟨2⟩ →
      Branch.outcome .counting u.memory.store ⟨.plain "c", "then", "else"⟩ = true := by
    have hover : (Graph.preheader.walk .counting (fun _ => 7) 9).isNone = true := by decide
    have hvisits : ∀ n < 9, ∀ u ∈ Graph.preheader.walk .counting (fun _ => 7) n, u.block = ⟨2⟩ →
        Branch.outcome .counting u.memory.store ⟨.plain "c", "then", "else"⟩ = true := by decide
    intro n u hu hub
    rcases Nat.lt_or_ge n 9 with hlt | hge
    · exact hvisits n hlt u hu hub
    · obtain ⟨k, rfl⟩ := Nat.exists_eq_add_of_le hge
      rw [Graph.walk_add, Option.isNone_iff_eq_none.mp hover] at hu
      cases hu
  obtain ⟨r', hok, -, -, -, hwalk⟩ :=
    Routine.resolveBranch_walk (.mk Graph.preheader .new none none) hg
    (.inr hssa) (b := ⟨2⟩) rfl true
  exact ⟨hg, hssa, hcalls, hout, r', hok, (hwalk .counting _ _ (.inr ⟨hcalls, rfl⟩) hout).1⟩

end FlowGraph
