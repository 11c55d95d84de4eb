import FlowGraph.Proofs.ConversionMeaning
import FlowGraph.Proofs.Outcomes
import FlowGraph.Proofs.Schedule
import FlowGraph.Proofs.Splicing
import FlowGraph.Proofs.Steps

/-! # Leaving single assignment form keeps the meaning of a graph

The conversion goes from block to block, and at each block from edge to edge.  What it has done at
any point is said by `Leaves`: every edge it has passed is a chain of copies that does what the phi
functions do at once, every edge it has yet to pass is as it was, and so are the phi functions of
every block it has yet to come to.

At the end every edge is a chain.  A walk of the result goes through the chains where a walk of the
graph before takes an edge, so leaving out the blocks on them both visit the same blocks.
-/
namespace FlowGraph

/-- **Every phi function has an argument for every edge that enters its block.** -/
def Graph.PhisComplete (g : Graph) : Prop :=
  ∀ ⦃b block⦄, g.block? b = some block → ∀ ⦃name p⦄, block.phis.get? name = some p →
    ∀ e ∈ block.preds, ∃ v, p.arg? e = some v

theorem Graph.phisComplete_iff_forall {g : Graph} : g.PhisComplete ↔
    ∀ block ∈ g.liveBlocks, ∀ x ∈ block.phis.entries, ∀ e ∈ block.preds,
      (x.2.arg? e).isSome = true := by
  constructor
  · intro h block hblock x hx e he
    obtain ⟨b, hb⟩ := Graph.mem_liveBlocks.mp hblock
    exact Option.isSome_iff_exists.mpr (h hb (OrdMap.get?_eq_some_iff.mpr hx) e he)
  · intro h b block hb name p hp e he
    exact Option.isSome_iff_exists.mp
      (h block (Graph.mem_liveBlocks.mpr ⟨b, hb⟩) (name, p) (OrdMap.get?_eq_some_iff.mp hp) e he)

instance (g : Graph) : Decidable g.PhisComplete :=
  decidable_of_iff _ Graph.phisComplete_iff_forall.symm

/-- **The supply has handed out all temporaries that occur in a graph.** -/
def NameSupply.Covers (names : NameSupply) (g : Graph) : Prop :=
  ∀ ⦃v⦄, g.Occurs v → ¬ names.Unused v

theorem NameSupply.covers_iff_forall {names : NameSupply} {g : Graph} : names.Covers g ↔
    ∀ v ∈ g.liveBlocks.flatMap Block.occurrences, v.name = temporaryName →
      v.version.all (· ≤ names.lastVersion temporaryName) = true := by
  simp only [Graph.mem_occurrences]
  constructor
  · rintro h ⟨_, _ | n⟩ hv rfl
    · rfl
    · exact decide_eq_true (Nat.le_of_not_lt fun hlt => h hv ⟨n, rfl, hlt⟩)
  · rintro h _ hv ⟨n, rfl, hlt⟩
    exact absurd (of_decide_eq_true (h _ hv rfl)) (Nat.not_le_of_lt hlt)

instance (names : NameSupply) (g : Graph) : Decidable (names.Covers g) :=
  decidable_of_iff _ NameSupply.covers_iff_forall.symm

/-! ### The copies of an edge -/

/-- The variables of the copies on an edge occur in the phi functions at its end. -/
theorem Graph.occurs_of_phiCopies {g : Graph} {e : EdgeId} {c : Ssa.Copy} (hc : c ∈ g.phiCopies e) :
    g.Occurs c.dst ∧ g.Occurs c.src := by
  rw [Graph.phiCopies] at hc
  split at hc
  · rename_i block hb
    obtain ⟨edge, -, hb⟩ := Option.bind_eq_some_iff.mp hb
    obtain ⟨name, p, hp, hdst, hsrc⟩ := Phis.mem_copiesFor.mp hc
    exact ⟨⟨_, block, hb, Block.mem_occurrences.mpr (.inl ⟨name, p, hp, .inl hdst⟩)⟩,
      ⟨_, block, hb, Block.mem_occurrences.mpr (.inl ⟨name, p, hp, .inr ⟨e, hsrc⟩⟩)⟩⟩
  · cases hc

namespace Ssa

/-- An edge has its copies, or a phi function has no argument for it. -/
theorem copiesOn_cases (b : BlockId) (ps : Phis) (e : EdgeId) :
    copiesOn b ps e = .ok (ps.copiesFor e) ∨
      ∃ name p, ps.get? name = some p ∧ p.arg? e = none ∧
        copiesOn b ps e = .error (.missingPhiArg (Phis.lhs name p) p b e) := by
  have hall : ∀ x ∈ ps.toList, ∃ name, ps.get? name = some x.2 ∧ x.1 = Phis.lhs name x.2 := by
    intro x hx
    obtain ⟨y, hy, rfl⟩ := List.mem_map.mp hx
    exact ⟨y.1, OrdMap.get?_eq_some_iff.mpr hy, rfl⟩
  rw [copiesOn, Phis.copiesFor]
  revert hall
  induction ps.toList with
  | nil => exact fun _ => .inl rfl
  | cons x xs ih =>
    intro hall
    obtain ⟨⟨name, hname, hlhs⟩, hxs⟩ := List.forall_mem_cons.mp hall
    obtain ⟨lhs, p⟩ := x
    obtain rfl : lhs = Phis.lhs name p := hlhs
    simp only [List.mapM_cons, List.filterMap_cons]
    cases harg : p.arg? e with
    | none => exact .inr ⟨name, p, hname, harg, rfl⟩
    | some v =>
      rcases ih hxs with hok | ⟨name', p', hp', hnone, herr⟩
      · left
        rw [hok]
        rfl
      · right
        refine ⟨name', p', hp', hnone, ?_⟩
        rw [herr]
        rfl

/-- With complete phi functions every edge has its copies. -/
theorem copiesOn_eq_ok {g : Graph} (hg : g.WellFormed) (hphis : g.PhisComplete) {e : EdgeId}
    {a b : BlockId} {d : Direction} (he : g.edge? e = some ⟨a, b, d⟩) {block : Block}
    (hb : g.block? b = some block) : copiesOn b block.phis e = .ok (g.phiCopies e) := by
  have hin : e ∈ block.preds := (hg.listed.mem_preds hb e).mpr ⟨_, he, rfl⟩
  rw [Graph.phiCopies_eq he hb]
  rcases copiesOn_cases b block.phis e with hok | ⟨name, p, hp, hnone, -⟩
  · exact hok
  · obtain ⟨v, hv⟩ := hphis hb hp e hin
    cases hnone.symm.trans hv

/-- What is done about an edge: its copies are put in sequence, and then onto it. -/
theorem outcome_leaveEdge {b : BlockId} {ps : Phis} {s : Leaving} {e tail : EdgeId}
    {copies cs : List Copy} {names : NameSupply} {g : Graph}
    (hcopies : copiesOn b ps e = .ok copies) (hsched : schedule copies s.names = .ok (cs, names))
    (hsplice : (cs.foldlM (spliceNext e) (e, s.graph)).outcome = .ok (tail, g)) :
    (leaveEdge b ps s e).outcome = .ok ⟨s.copies + cs.length, names, g⟩ := by
  have hput : (spliceCopies e cs s.graph).outcome = .ok g := Run.outcome_bind_of_ok hsplice _
  rw [leaveEdge, Run.outcome_liftM_bind hcopies, Run.outcome_liftM_bind hsched]
  exact Run.outcome_bind_of_ok hput _

/-! ### What has been done -/

/-- A block that was put onto an edge. -/
def Inserted (g : Graph) (b : BlockId) : Prop := g.block? b = none

/-- **The state of the conversion** of `g` when the edges `passed` are chains and the blocks
`cleared` have no phi functions any more. -/
structure Leaves (g : Graph) (names : NameSupply) (passed : EdgeId → Prop)
    (cleared : BlockId → Prop) (s : Leaving) : Prop where
  wellFormed : s.graph.WellFormed
  later : names.Later s.names
  edge?_eq : ∀ {e x}, g.edge? e = some x → ¬ passed e → s.graph.edge? e = some x
  chain : ∀ {e a t d}, g.edge? e = some ⟨a, t, d⟩ → passed e →
    ∃ cs, s.graph.CopyChain (Inserted g) a d cs t ∧ ∀ {V : Type} (σ : Store V) (v : Var),
      ¬ names.HandedOut s.names v → inOrder cs σ v = atOnce (g.phiCopies e) σ v
  block?_eq : ∀ {b block}, g.block? b = some block → ¬ cleared b →
    ∃ block', s.graph.block? b = some block' ∧ block'.phis = block.phis ∧ block'.preds = block.preds
  kind?_eq : ∀ {b k}, g.kind? b = some k → s.graph.kind? b = some k
  phis_eq : ∀ {b block'}, s.graph.block? b = some block' → Inserted g b ∨ cleared b →
    block'.phis = .empty
  inserted : ∀ {b k}, s.graph.kind? b = some k → Inserted g b →
    ∃ c : Copy, k = .statement (.copy c.dst c.src)

namespace Leaves

variable {g : Graph} {names : NameSupply} {passed passed' : EdgeId → Prop}
  {cleared cleared' : BlockId → Prop} {s : Leaving}

theorem start (hg : g.WellFormed) :
    Leaves g names (fun _ => False) (fun _ => False) ⟨0, names, g⟩ where
  wellFormed := hg
  later := .refl _
  edge?_eq := fun h _ => h
  chain := fun _ h => h.elim
  block?_eq := fun hb _ => ⟨_, hb, rfl, rfl⟩
  kind?_eq := id
  phis_eq := fun hb h => h.elim (fun hnone => by rw [Inserted, hb] at hnone; cases hnone) False.elim
  inserted := fun hk hnone => by
    rw [Graph.kind?, hnone] at hk
    cases hk

theorem not_inserted (h : Leaves g names passed cleared s) {b : BlockId}
    (hb : s.graph.block? b = none) : Inserted g b := by
  cases hg : g.block? b with
  | none => exact hg
  | some block =>
    have := h.kind?_eq (Graph.kind?_of_block? hg)
    rw [Graph.kind?, hb] at this
    cases this

/-- A chain on one more edge. -/
theorem onto (h : Leaves g names passed cleared s) (hg : g.WellFormed) {e : EdgeId} {a b : BlockId}
    {d : Direction} (he : g.edge? e = some ⟨a, b, d⟩) (hclear : cleared b) (hnew : ¬ passed e)
    {s' : Leaving} {cs : List Copy} (honto : s.graph.CopiesOnto e s'.graph)
    (hchain : s'.graph.CopyChain (fun b => s.graph.block? b = none) a d cs b)
    (hlater : s.names.Later s'.names) (hsame : ∀ {V : Type} (σ : Store V) (v : Var),
      ¬ s.names.HandedOut s'.names v → inOrder cs σ v = atOnce (g.phiCopies e) σ v) :
    Leaves g names (fun e' => passed e' ∨ e' = e) cleared s' := by
  have hkind : ∀ {c k}, s.graph.kind? c = some k → s'.graph.kind? c = some k := by
    intro c k hk
    obtain ⟨block, hc, rfl⟩ := Graph.block?_of_kind? hk
    obtain ⟨block', hc', hkind, -⟩ := honto.block?_of_live hc
    rw [Graph.kind?_of_block? hc', hkind]
  constructor
  case wellFormed => exact honto.wellFormed
  case later => exact h.later.trans hlater
  case edge?_eq =>
    intro e' x hx hnot
    exact honto.edge?_of_ne (fun heq => hnot (.inr heq)) (h.edge?_eq hx fun hp => hnot (.inl hp))
  case chain =>
    rintro e' a' t' d' he' (hp | rfl)
    · obtain ⟨cs', hchain', hsame'⟩ := h.chain he' hp
      refine ⟨cs', hchain'.mono (fun {e₁ t₁} h₁ => ?_) (fun {e₁ c t₁ d₁} hc h₁ => ?_)
        fun {c k} hc hk => ⟨hc, hkind hk⟩, fun σ v hv => ?_⟩
      · -- The chain begins with another edge, since it leaves another block or in another
        -- direction.
        refine honto.edge?_of_ne ?_ h₁
        rintro rfl
        rw [h.edge?_eq he hnew] at h₁
        cases h₁
        exact hnew (hg.edge_unique he' he ▸ hp)
      · -- Further on it leaves new blocks, and the edge leaves an old one.
        refine honto.edge?_of_ne ?_ h₁
        rintro rfl
        rw [h.edge?_eq he hnew] at h₁
        cases h₁
        exact hg.listed.source_ne he hc rfl
      · exact hsame' σ v fun hh => hv (hh.first hlater)
    · rw [he] at he'
      cases he'
      exact ⟨cs, hchain.mono id (fun _ => id) fun hc hk => ⟨h.not_inserted hc, hk⟩,
        fun σ v hv => hsame σ v fun hh => hv (hh.second h.later)⟩
  case block?_eq =>
    intro c block hc hnot
    obtain ⟨block₁, hc₁, hphis, hpreds⟩ := h.block?_eq hc hnot
    obtain ⟨block₂, hc₂, -, -, hsame⟩ := honto.block?_of_live hc₁
    -- The edge enters a block that is cleared, so it is not among those that enter this one.
    have hout : e ∉ block₁.preds := fun hin => by
      have hbc : b = c := h.wellFormed.listed.target_eq hc₁ hin (h.edge?_eq he hnew)
      exact hnot (hbc ▸ hclear)
    exact ⟨block₂, hc₂, (hsame hout).2.trans hphis, (hsame hout).1.trans hpreds⟩
  case kind?_eq => exact fun hk => hkind (h.kind?_eq hk)
  case phis_eq =>
    intro c block₂ hc₂ hor
    cases hc₁ : s.graph.block? c with
    | none => exact (honto.block?_inserted hc₂ hc₁).1
    | some block₁ =>
      obtain ⟨block', hc', -, hphis, -⟩ := honto.block?_of_live hc₁
      rw [hc₂] at hc'
      cases hc'
      exact hphis (h.phis_eq hc₁ hor)
  case inserted =>
    intro c k hk hins
    obtain ⟨block₂, hc₂, rfl⟩ := Graph.block?_of_kind? hk
    cases hc₁ : s.graph.block? c with
    | none => exact (honto.block?_inserted hc₂ hc₁).2
    | some block₁ =>
      obtain ⟨block', hc', hkind, -⟩ := honto.block?_of_live hc₁
      rw [hc₂] at hc'
      cases hc'
      rw [hkind]
      exact h.inserted (Graph.kind?_of_block? hc₁) hins

/-- **One edge.** -/
theorem leaveEdge (h : Leaves g names passed cleared s) (hg : g.WellFormed) (hphis : g.PhisComplete)
    (hold : names.Covers g) {e : EdgeId} {a b : BlockId} {d : Direction}
    (he : g.edge? e = some ⟨a, b, d⟩) {block : Block} (hb : g.block? b = some block)
    (hclear : cleared b) (hnew : ¬ passed e) :
    ∃ s', (leaveEdge b block.phis s e).outcome = .ok s' ∧
      Leaves g names (fun e' => passed e' ∨ e' = e) cleared s' := by
  have hused : ∀ c ∈ g.phiCopies e, ¬ s.names.Unused c.dst ∧ ¬ s.names.Unused c.src := fun c hc =>
    ⟨fun hu => hold (Graph.occurs_of_phiCopies hc).1 (h.later _ hu),
      fun hu => hold (Graph.occurs_of_phiCopies hc).2 (h.later _ hu)⟩
  obtain ⟨cs, names', hsched, hlater, hsame⟩ := schedule_spec
    (Graph.phiCopies_eq he hb ▸ block.phis.nodup_copiesFor e) hused
  obtain ⟨tail, g', hsplice, honto, hchain⟩ :=
    foldlM_spliceNext h.wellFormed (h.edge?_eq he hnew) e cs
  exact ⟨⟨s.copies + cs.length, names', g'⟩,
    outcome_leaveEdge (copiesOn_eq_ok hg hphis he hb) hsched hsplice,
    h.onto hg he hclear hnew honto hchain hlater hsame⟩

theorem congr (h : Leaves g names passed cleared s) (hp : ∀ e, passed' e ↔ passed e)
    (hc : ∀ b, cleared' b ↔ cleared b) : Leaves g names passed' cleared' s := by
  obtain rfl : passed' = passed := funext fun e => propext (hp e)
  obtain rfl : cleared' = cleared := funext fun b => propext (hc b)
  exact h

/-- Several edges that enter a block. -/
theorem leaveEdges (h : Leaves g names passed cleared s) (hg : g.WellFormed)
    (hphis : g.PhisComplete) (hold : names.Covers g) {b : BlockId} {block : Block}
    (hb : g.block? b = some block) (hclear : cleared b) {es : List EdgeId}
    (hes : ∀ e ∈ es, ∃ x, g.edge? e = some x ∧ x.target = b) (hnodup : es.Nodup)
    (hnew : ∀ e ∈ es, ¬ passed e) :
    ∃ s', (es.foldlM (Ssa.leaveEdge b block.phis) s).outcome = .ok s' ∧
      Leaves g names (fun e => passed e ∨ e ∈ es) cleared s' := by
  refine Run.exists_foldlM (fun passed s => Leaves g names passed cleared s) hnodup hnew
    (fun {passed s} h e he hpassed => ?_) h
  obtain ⟨⟨a, _, d⟩, he, rfl⟩ := hes e he
  exact h.leaveEdge hg hphis hold he hb hclear hpassed

/-- The phi functions of a block are taken out. -/
theorem clear (h : Leaves g names passed cleared s) (b : BlockId) :
    Leaves g names passed (fun c => cleared c ∨ c = b)
      { s with graph := s.graph.modifyBlock b fun block => { block with phis := .empty } } := by
  have hout := Graph.SameOutline.modifyBlock s.graph b
    (f := fun block => { block with phis := .empty }) fun _ => rfl
  have hkind : ∀ c, (s.graph.modifyBlock b fun block => { block with phis := .empty }).kind? c =
      s.graph.kind? c := by
    intro c
    rw [Graph.kind?, Graph.block?_modifyBlock]
    split
    · rw [Option.map_map]
      rfl
    · rfl
  have hphis : ∀ {c block'}, (s.graph.modifyBlock b fun block =>
      { block with phis := .empty }).block? c = some block' →
        c = b ∧ block'.phis = .empty ∨ c ≠ b ∧ s.graph.block? c = some block' := by
    intro c block' hc
    rw [Graph.block?_modifyBlock] at hc
    split at hc
    · obtain ⟨old, -, rfl⟩ := Option.map_eq_some_iff.mp hc
      exact .inl ⟨‹_›, rfl⟩
    · exact .inr ⟨‹_›, hc⟩
  constructor
  case wellFormed =>
    refine h.wellFormed.of_outline hout (fun c => by rw [hkind]) fun {c block'} hc {name p} hp => ?_
    rcases hphis hc with ⟨-, hempty⟩ | ⟨-, hc⟩
    · rw [hempty] at hp
      cases hp
    · exact h.wellFormed.listed.args_enter hc hp
  case later => exact h.later
  case edge?_eq => exact h.edge?_eq
  case chain =>
    intro e a t d he hp
    obtain ⟨cs, hchain, hsame⟩ := h.chain he hp
    exact ⟨cs, hchain.mono id (fun _ => id) fun hc hk => ⟨hc, (hkind _).trans hk⟩, hsame⟩
  case block?_eq =>
    intro c block hc hnot
    obtain ⟨block', hc', hp⟩ := h.block?_eq hc fun hcl => hnot (.inl hcl)
    refine ⟨block', ?_, hp⟩
    rw [Graph.block?_modifyBlock, if_neg fun heq => hnot (.inr heq), hc']
  case kind?_eq => exact fun hk => (hkind _).trans (h.kind?_eq hk)
  case phis_eq =>
    intro c block' hc hor
    rcases hphis hc with ⟨-, hempty⟩ | ⟨hne, hc⟩
    · exact hempty
    · exact h.phis_eq hc (hor.imp_right fun hcl => hcl.resolve_right hne)
  case inserted => exact fun hk => h.inserted ((hkind _).symm.trans hk)

/-- The edges that enter some blocks. -/
def Entering (g : Graph) (blocks : BlockId → Prop) (e : EdgeId) : Prop :=
  ∃ x, g.edge? e = some x ∧ blocks x.target

theorem entering_or (b : BlockId) (e : EdgeId) :
    Entering g (fun c => cleared c ∨ c = b) e ↔
      Entering g cleared e ∨ ∃ x, g.edge? e = some x ∧ x.target = b := by
  simp only [Entering, and_or_left, exists_or]

/-- **One block.** -/
theorem leaveBlock (h : Leaves g names (Entering g cleared) cleared s) (hg : g.WellFormed)
    (hphis : g.PhisComplete) (hold : names.Covers g) {b : BlockId} {block : Block}
    (hb : g.block? b = some block) (hnew : ¬ cleared b) :
    ∃ s', (leaveBlock s b).outcome = .ok s' ∧
      Leaves g names (Entering g fun c => cleared c ∨ c = b) (fun c => cleared c ∨ c = b) s' := by
  have hapart : ∀ {e x}, g.edge? e = some x → x.target = b → ¬ Entering g cleared e := by
    rintro e x hx rfl ⟨y, hy, hc⟩
    rw [hx] at hy
    cases hy
    exact hnew hc
  obtain ⟨block', hb', hsame, hpreds⟩ := h.block?_eq hb hnew
  have hlook : s.graph.block b = .ok block' := by rw [Graph.block, hb']
  by_cases hempty : block.phis.isEmpty = true
  · refine ⟨s, ?_, ?_⟩
    · rw [Ssa.leaveBlock, Run.outcome_liftM_bind hlook, hsame, if_pos hempty]
      rfl
    · -- Without phi functions an edge is a chain of no copies.
      have hnone := OrdMap.isEmpty_iff.mp hempty
      refine { h with edge?_eq := ?_, chain := ?_, block?_eq := ?_, phis_eq := ?_ }
      · exact fun hx hnot => h.edge?_eq hx fun hp => hnot ((entering_or b _).mpr (.inl hp))
      · intro e a t d he hp
        rcases (entering_or b e).mp hp with hp | ⟨x, hx, rfl⟩
        · exact h.chain he hp
        · have hx' := hx
          rw [he] at hx
          cases hx
          refine ⟨[], .nil (h.edge?_eq he (hapart he rfl)), fun σ v _ => ?_⟩
          rw [Graph.phiCopies_eq he hb, hnone]
          rfl
      · exact fun hc hnot => h.block?_eq hc fun hcl => hnot (.inl hcl)
      · rintro c block₁ hc (hins | hcl | rfl)
        · exact h.phis_eq hc (.inl hins)
        · exact h.phis_eq hc (.inr hcl)
        · rw [hb'] at hc
          cases hc
          rw [hsame, hnone]
  · obtain ⟨s', hok, h'⟩ := (h.clear b).leaveEdges hg hphis hold hb (.inr rfl)
      (fun e he => (hg.listed.mem_preds hb e).mp he) (hg.listed.nodup_preds hb) fun e he => by
        obtain ⟨x, hx, ht⟩ := (hg.listed.mem_preds hb e).mp he
        exact hapart hx ht
    refine ⟨s', ?_, h'.congr (fun e => ?_) fun _ => Iff.rfl⟩
    · rw [Ssa.leaveBlock, Run.outcome_liftM_bind hlook, hsame, hpreds, if_neg hempty]
      exact hok
    · rw [entering_or, hg.listed.mem_preds hb]

/-- Several blocks. -/
theorem leaveBlocks (h : Leaves g names (Entering g cleared) cleared s) (hg : g.WellFormed)
    (hphis : g.PhisComplete) (hold : names.Covers g) {bs : List BlockId}
    (hlive : ∀ b ∈ bs, ∃ block, g.block? b = some block) (hnodup : bs.Nodup)
    (hnew : ∀ b ∈ bs, ¬ cleared b) :
    ∃ s', (bs.foldlM Ssa.leaveBlock s).outcome = .ok s' ∧
      Leaves g names (Entering g fun c => cleared c ∨ c ∈ bs) (fun c => cleared c ∨ c ∈ bs) s' := by
  refine Run.exists_foldlM (fun cleared s => Leaves g names (Entering g cleared) cleared s)
    hnodup hnew
    (fun {cleared s} h b hb hnotyet => ?_) h
  obtain ⟨block, hb⟩ := hlive b hb
  exact h.leaveBlock hg hphis hold hb hnotyet

end Leaves

/-- **The conversion succeeds** on every well-formed graph with complete phi functions, and leaves a
chain of copies in place of every edge. -/
theorem leave_spec {g : Graph} {names : NameSupply} (hg : g.WellFormed) (hphis : g.PhisComplete)
    (hold : names.Covers g) :
    ∃ s : Leaving, (leave names g).outcome = .ok (s.names, s.graph) ∧
      Leaves g names (fun _ => True) (fun _ => True) s := by
  have hstart : Leaves g names (Leaves.Entering g fun _ => False) (fun _ => False) ⟨0, names, g⟩ :=
    (Leaves.start hg).congr (fun e => by simp [Leaves.Entering]) fun _ => Iff.rfl
  obtain ⟨s, hok, h⟩ := hstart.leaveBlocks hg hphis hold
    (fun b hb => hg.listed.mem_blockIds.mp hb) hg.listed.nodup_blockIds fun _ _ => id
  refine ⟨s, ?_, { h with edge?_eq := ?_, chain := ?_, block?_eq := ?_, phis_eq := ?_ }⟩
  · rw [leave, Run.outcome_bind_of_ok hok]
    rfl
  · exact fun _ hnot => absurd trivial hnot
  · exact fun he _ => h.chain he ⟨_, he,
      .inr (hg.listed.mem_blockIds.mpr (hg.listed.target_live he))⟩
  · exact fun _ hnot => absurd trivial hnot
  · intro b block' hb _
    refine h.phis_eq hb ?_
    cases hlive : g.block? b with
    | none => exact .inl hlive
    | some block => exact .inr (.inr (hg.listed.mem_blockIds.mpr ⟨block, hlive⟩))

end Ssa

/-! ### Walks -/

section Walks
variable {V : Type} {I : Interpretation V}

theorem Graph.walk_add (g : Graph) (σ : Store V) (m n : Nat) :
    g.walk I σ (m + n) = (g.walk I σ m).bind (steps (g.advance I) n) := by
  induction n generalizing m with
  | zero =>
    rw [Nat.add_zero]
    cases g.walk I σ m <;> rfl
  | succ n ih =>
    have hshift := ih (m + 1)
    rw [Nat.succ_add_eq_add_succ] at hshift
    rw [hshift, Graph.walk, Option.bind_assoc]
    rfl

theorem Graph.walk_between {g : Graph} {σ : Store V} {n k : Nat} {u : Visit V} {P : Visit V → Prop}
    (hu : g.walk I σ n = some u)
    (h : ∀ i, 0 < i → i < k → ∀ {x}, steps (g.advance I) i u = some x → P x) :
    ∀ i, n < i → i < n + k → ∀ x, g.walk I σ i = some x → P x := by
  intro i hlt hlt' x hx
  obtain ⟨j, rfl⟩ := Nat.exists_eq_add_of_lt hlt
  rw [Nat.add_assoc, Graph.walk_add, hu, Option.bind_some] at hx
  exact h (j + 1) (Nat.succ_pos j) (by omega) hx

/-- **A walk along a chain** makes its copies, at blocks of the chain only. -/
theorem Graph.CopyChain.steps_advance {g : Graph} (hg : g.WellFormed)
    {inner : BlockId → Prop} {s t : BlockId} {d : Direction} {cs : List Ssa.Copy}
    (hfree : ∀ {e a b d}, g.edge? e = some ⟨a, b, d⟩ → inner b ∨ b = t → g.phiCopies e = [])
    (h : g.CopyChain inner s d cs t) {k : Kind} (hk : g.kind? s = some k) {m : Memory V}
    (hd : k.way I m.store = d) :
    ∃ n, steps (g.advance I) (n + 1) ⟨s, m⟩ =
        some ⟨t, Ssa.inOrder cs (k.perform I m).store, (k.perform I m).shown⟩ ∧
      ∀ i, 0 < i → i < n + 1 → ∀ {u}, steps (g.advance I) i ⟨s, m⟩ = some u → inner u.block := by
  have hadvance : ∀ {e s b d k} {m : Memory V}, g.edge? e = some ⟨s, b, d⟩ → inner b ∨ b = t →
      g.kind? s = some k → k.way I m.store = d → g.advance I ⟨s, m⟩ = some ⟨b, k.perform I m⟩ := by
    intro e s b d k m he hb hk hd
    refine hg.advanceBy_eq_some_iff.mpr ⟨k, e, hk, hd ▸ he, ?_⟩
    rw [hfree he hb]
    rfl
  induction h generalizing k m with
  | nil he =>
    refine ⟨0, ?_, fun i hpos hlt => by omega⟩
    rw [steps_succ, hadvance he (.inr rfl) hk hd]
    rfl
  | @cons e s d b c cs t he hb hkb _ ih =>
    obtain ⟨n, hn, hinner⟩ := ih hfree hkb (m := k.perform I m) rfl hadvance
    have hfirst := hadvance he (.inl hb) hk hd
    refine ⟨n + 1, ?_, fun i hpos hlt u hu => ?_⟩
    · rw [steps_succ, hfirst, Option.bind_some, hn]
      simp only [Kind.perform, Statement.copy, Statement.perform, Expr.value, Expr.shows,
        List.append_nil, Ssa.inOrder_cons]
    · cases i with
      | zero => exact absurd hpos (Nat.lt_irrefl 0)
      | succ i =>
        rw [steps_succ, hfirst, Option.bind_some] at hu
        rcases Nat.eq_zero_or_pos i with rfl | hpos
        · cases hu
          exact hb
        · exact hinner i hpos (Nat.lt_of_succ_lt_succ hlt) hu

/-- **Two visits of the same block** that show the same, and agree on all variables but some. -/
structure Visit.SameBut (except : Var → Prop) (u u' : Visit V) : Prop where
  block_eq : u'.block = u.block
  shown_eq : u'.memory.shown = u.memory.shown
  store_eq : ∀ v, ¬ except v → u'.memory.store v = u.memory.store v

namespace Ssa.Leaves

variable {g : Graph} {names : NameSupply} {s : Leaving}
  (h : Leaves g names (fun _ => True) (fun _ => True) s)
include h

theorem phiFree : s.graph.PhiFree := fun _ _ hb => h.phis_eq hb (.inr trivial)

/-- **One step before is a chain of steps after.** -/
theorem advance (hg : g.WellFormed) (hold : names.Covers g) {u u' : Visit V}
    (hlive : ∃ block, g.block? u.block = some block)
    (hu : u.SameBut (names.HandedOut s.names) u') :
    g.advance I u = none ∧ s.graph.advance I u' = none ∨
      ∃ w w' n, g.advance I u = some w ∧ steps (s.graph.advance I) (n + 1) u' = some w' ∧
        w.SameBut (names.HandedOut s.names) w' ∧ (∃ block, g.block? w.block = some block) ∧
        ∀ i, 0 < i → i < n + 1 → ∀ {x}, steps (s.graph.advance I) i u' = some x →
          Inserted g x.block := by
  have hused : ∀ {v}, g.Occurs v → ¬ names.HandedOut s.names v := fun hv =>
    NameSupply.not_handedOut_of_used (hold hv)
  obtain ⟨block, hb⟩ := hlive
  have hk := Graph.kind?_of_block? hb
  cases hadv : g.advance I u with
  | none =>
    left
    refine ⟨rfl, ?_⟩
    rcases hg.advanceBy_eq_none_iff.mp hadv with hnone | hexit
    · rw [hk] at hnone
      cases hnone
    · exact h.wellFormed.advanceBy_eq_none_iff.mpr (.inr (hu.block_eq.trans hexit))
  | some w =>
    right
    obtain ⟨k, e, hk', he, hw⟩ := hg.advanceBy_eq_some_iff.mp hadv
    rw [hk] at hk'
    cases hk'
    obtain ⟨hway, hshown, hstore⟩ := block.kind.perform_congr (I := I) hu.shown_eq
      fun v hv => hu.store_eq v (hused (Graph.occurs_of_use hk hv))
    obtain ⟨cs, hchain, hsame⟩ := h.chain he trivial
    obtain ⟨n, hn, hinner⟩ := hchain.steps_advance h.wellFormed
      (fun _ _ => h.phiFree.phiCopies _) (h.kind?_eq hk) hway
    obtain ⟨b', m'⟩ := u'
    obtain rfl : b' = u.block := hu.block_eq
    refine ⟨w, _, n, rfl, hn, ⟨rfl, ?_, fun v hv => ?_⟩, hg.listed.target_live he, hinner⟩
    · rw [hw]
      exact hshown
    · -- What a variable gets on the edge is old, so it has the same value in both walks.
      have horigin : ¬ names.HandedOut s.names (origin (g.phiCopies e) v) := by
        by_cases hfix : origin (g.phiCopies e) v = v
        · rwa [hfix]
        · exact hused (Graph.occurs_of_phiCopies (mem_of_origin_ne hfix)).2
      rw [hw]
      refine (hsame _ v hv).trans ?_
      simp only [atOnce_apply]
      exact hstore (hu.store_eq _ horigin)

/-- **Whole walks**, at the pace of the chains. -/
theorem exists_pace_walk (hg : g.WellFormed) (hold : names.Covers g) (σ : Store V) :
    ∃ pace : Nat → Nat, pace 0 = 0 ∧ StrictMono pace ∧
      (∀ n, Option.Rel (Visit.SameBut (names.HandedOut s.names)) (g.walk I σ n)
        (s.graph.walk I σ (pace n))) ∧
      ∀ i, (∃ n, pace n = i) ∨ ∀ u, s.graph.walk I σ i = some u → Inserted g u.block := by
  obtain ⟨pace, hzero, hmono, htogether, hbetween⟩ := exists_pace
    (fun n m => Option.Rel (fun u u' => u.SameBut (names.HandedOut s.names) u' ∧
      ∃ block, g.block? u.block = some block) (g.walk I σ n) (s.graph.walk I σ m))
    (fun i => ∀ u, s.graph.walk I σ i = some u → Inserted g u.block)
    (.some ⟨⟨rfl, rfl, fun _ _ => rfl⟩,
      (Graph.block?_of_kind? hg.wired.entry_kind).imp fun _ => And.left⟩) fun {n m} hnm => by
      rw [Graph.walk]
      generalize hw : g.walk I σ n = wn at hnm
      generalize hw' : s.graph.walk I σ m = wm at hnm
      cases hnm with
      | none =>
        refine ⟨m + 1, Nat.lt_succ_self m, ?_, fun i h₁ h₂ => by omega⟩
        rw [Graph.walk, hw']
        exact .none
      | @some u u' hu =>
        rw [Option.bind_some]
        rcases h.advance (I := I) hg hold hu.2 hu.1 with
          ⟨hnone, hnone'⟩ | ⟨w, w', k, hadv, hsteps, hsame, hlive, hinner⟩
        · refine ⟨m + 1, Nat.lt_succ_self m, ?_, fun i h₁ h₂ => by omega⟩
          rw [Graph.walk, hw', Option.bind_some, hnone, hnone']
          exact .none
        · refine ⟨m + (k + 1), Nat.lt_add_of_pos_right (Nat.succ_pos k), ?_,
            Graph.walk_between hw' hinner⟩
          rw [Graph.walk_add, hw', Option.bind_some, hadv, hsteps]
          exact .some ⟨hsame, hlive⟩
  exact ⟨pace, hzero, hmono, fun n => rel_imp And.left (htogether n), hbetween⟩

end Ssa.Leaves
end Walks

/-- **Leaving single assignment form keeps the meaning of a graph** with complete phi functions.
The walk of the result passes through copies that were not there before; apart from these it visits
the same blocks in the same order, shows the same, and gives every variable but the new temporaries
the same value. -/
theorem Routine.outOfSsa_walk (r : Routine) (hg : r.graph.WellFormed) (hphis : r.graph.PhisComplete)
    (hold : r.names.Covers r.graph) :
    ∃ r', r.outOfSsa.outcome = .ok r' ∧ r'.graph.PhiFree ∧
      (∀ b k, r.graph.kind? b = some k → r'.graph.kind? b = some k) ∧
      (∀ b k, r'.graph.kind? b = some k → r.graph.kind? b = none →
        ∃ lhs rhs, k = .statement (.copy lhs rhs)) ∧
      ∀ {V : Type} (I : Interpretation V) (σ : Store V), ∃ pace : Nat → Nat,
        pace 0 = 0 ∧ StrictMono pace ∧
        (∀ n, Option.Rel (Visit.SameBut (r.names.HandedOut r'.names)) (r.graph.walk I σ n)
          (r'.graph.walk I σ (pace n))) ∧
        ∀ i, (∃ n, pace n = i) ∨
          ∀ u, r'.graph.walk I σ i = some u → r.graph.kind? u.block = none := by
  obtain ⟨s, hok, h⟩ := Ssa.leave_spec hg hphis hold
  refine ⟨Routine.withGraph { r with names := s.names } s.graph, ?_, h.phiFree,
    fun _ _ => h.kind?_eq, fun b k hk hnone => ?_, fun I σ => ?_⟩
  · rw [Routine.outOfSsa, Run.outcome_bind_of_ok hok]
    exact Routine.settle_spec _ h.wellFormed
  · obtain ⟨c, hc⟩ := h.inserted hk (Option.map_eq_none_iff.mp hnone)
    exact ⟨c.dst, c.src, hc⟩
  · obtain ⟨pace, hzero, hmono, hrel, hbetween⟩ := h.exists_pace_walk (I := I) hg hold σ
    exact ⟨pace, hzero, hmono, hrel, fun i => (hbetween i).imp_right fun hi u hu =>
      Option.map_eq_none_iff.mpr (hi u hu)⟩

/-- A loop in which two variables swap their values at every turn. -/
def Graph.swapping : Graph where
  name := "swapping"
  blocks := #[
    some { id := ⟨0⟩, kind := .entry, succs := [⟨0⟩] },
    some { id := ⟨1⟩, kind := .exit, preds := [⟨2⟩] },
    some { id := ⟨2⟩, kind := .branch ⟨.versioned "i" 2, "more", "done"⟩
           phis := .ofList [
             ("i", ⟨some 2, .ofList [(⟨0⟩, .versioned "i" 1), (⟨1⟩, .versioned "j" 2)]⟩),
             ("j", ⟨some 2, .ofList [(⟨0⟩, .versioned "j" 1), (⟨1⟩, .versioned "i" 2)]⟩)]
           preds := [⟨0⟩, ⟨1⟩], succs := [⟨1⟩, ⟨2⟩] }]
  edges := #[some ⟨⟨0⟩, ⟨2⟩, .always⟩, some ⟨⟨2⟩, ⟨2⟩, .onTrue⟩, some ⟨⟨2⟩, ⟨1⟩, .onFalse⟩]

theorem Routine.swapping_walk :
    Graph.swapping.WellFormed ∧ Graph.swapping.PhisComplete ∧ NameSupply.new.Covers Graph.swapping ∧
      ∃ r', (Routine.mk Graph.swapping .new none none).outOfSsa.outcome = .ok r' ∧
        r'.graph.PhiFree ∧ ∃ pace : Nat → Nat, pace 0 = 0 ∧ StrictMono pace ∧
          ∀ n, Option.Rel (Visit.SameBut (NameSupply.new.HandedOut r'.names))
            (Graph.swapping.walk .counting (fun v => v.version.getD 0) n)
            (r'.graph.walk .counting (fun v => v.version.getD 0) (pace n)) := by
  refine ⟨by decide, by decide, by decide, ?_⟩
  obtain ⟨r', hok, hfree, -, -, hwalk⟩ := Routine.outOfSsa_walk (.mk Graph.swapping .new none none)
    (by decide) (by decide) (by decide)
  obtain ⟨pace, hzero, hmono, hrel, -⟩ := hwalk .counting fun v => v.version.getD 0
  exact ⟨r', hok, hfree, pace, hzero, hmono, hrel⟩

end FlowGraph
