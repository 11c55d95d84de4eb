import FlowGraph.Proofs.Wiring

/-! # The structural check is exact

`Consistent` says record by record what a graph has to be: every block under its own handle, every
edge between blocks in use, every list made of the edges that touch its block, and for each kind of
block the outgoing edges that it needs.  Nothing is presupposed of the two tables: any record may
stand in any slot.

The rounds of the check share the work.  The lists of the blocks are compared with the table of
edges first, and only then is the table compared with the lists, so that either round alone would
let a list with a foreign, a missing or a repeated edge pass.  The last round looks up the listed
edges without asking whether they are in use; `inspect` is the check with those lookups as what they
are, questions without an answer for a handle that is not in use.
-/
namespace FlowGraph

theorem Kind.directions_of_onward {k : Kind} (hbranch : k.isBranch = false) (hexit : k ≠ .exit) :
    k.directions = [.always] := by
  cases k with
  | exit => exact absurd rfl hexit
  | branch => cases hbranch
  | entry | statement | empty => rfl

namespace Graph

variable {g : Graph}

/-- **A consistent graph**, record by record. -/
structure Consistent (g : Graph) : Prop where
  /-- Every block records the handle of its slot. -/
  id_eq : ∀ {b block}, g.block? b = some block → block.id = b
  /-- Every edge joins blocks in use. -/
  ends_live : ∀ {e edge}, g.edge? e = some edge →
    g.isLive edge.source = true ∧ g.isLive edge.target = true
  /-- The outgoing list of a block is made of the edges that leave it, once each. -/
  succs_exact : ∀ {b block}, g.block? b = some block → block.succs.Nodup ∧
    ∀ e, e ∈ block.succs ↔ ∃ edge, g.edge? e = some edge ∧ edge.source = b
  /-- The incoming list of a block is made of the edges that enter it, once each. -/
  preds_exact : ∀ {b block}, g.block? b = some block → block.preds.Nodup ∧
    ∀ e, e ∈ block.preds ↔ ∃ edge, g.edge? e = some edge ∧ edge.target = b
  entry_block : ∃ block, g.block? entry = some block ∧ block.kind = .entry ∧ block.preds = []
  exit_block : ∃ block, g.block? exit = some block ∧ block.kind = .exit ∧ block.succs = []
  /-- A branch has one edge for each outcome, and no other edge leaves it. -/
  branch_edges : ∀ {b block br}, g.block? b = some block → block.kind = .branch br →
    ∃ e e' t t', g.edge? e = some ⟨b, t, .onTrue⟩ ∧ g.edge? e' = some ⟨b, t', .onFalse⟩ ∧
      ∀ e'' edge, g.edge? e'' = some edge → edge.source = b → e'' = e ∨ e'' = e'
  /-- Any other block but an exit has one edge, whatever the outcome. -/
  onward_edge : ∀ {b block}, g.block? b = some block → block.kind.isBranch = false →
    block.kind ≠ .exit → ∃ e t, g.edge? e = some ⟨b, t, .always⟩ ∧
      ∀ e' edge, g.edge? e' = some edge → edge.source = b → e' = e
  /-- A phi function has arguments for edges into its block only. -/
  args_enter : ∀ {b block}, g.block? b = some block → ∀ {name p}, block.phis.get? name = some p →
    ∀ {e v}, p.arg? e = some v → ∃ edge, g.edge? e = some edge ∧ edge.target = b

/-! ### Records and directions -/

/-- The terminal blocks as the lists show them. -/
theorem Wired.terminals (hg : g.Wired) :
    (∃ first, g.block? entry = some first ∧ first.kind = .entry ∧ first.preds = []) ∧
      ∃ last, g.block? exit = some last ∧ last.kind = .exit ∧ last.succs = [] :=
  checkTerminals_eq_ok.mp (hg.toListed.checkTerminals_iff.mpr
    ⟨⟨hg.entry_kind, fun _ _ => hg.entry_closed⟩, hg.exit_kind, fun _ _ => hg.exit_closed⟩)

theorem Wired.consistent (hg : g.Wired) : g.Consistent where
  id_eq := hg.id_eq
  ends_live he := ⟨isLive_iff.mpr (hg.source_live he), isLive_iff.mpr (hg.target_live he)⟩
  succs_exact hb := ⟨hg.nodup_succs hb, hg.mem_succs hb⟩
  preds_exact hb := ⟨hg.nodup_preds hb, hg.mem_preds hb⟩
  entry_block := hg.terminals.1
  exit_block := hg.terminals.2
  branch_edges {b block br} hb hbr := by
    have hk : g.kind? b = some (.branch br) := hbr ▸ kind?_of_block? hb
    have hne : Kind.branch br ≠ .exit := by simp
    obtain ⟨e, t, he⟩ := (hg.ways hk hne .onTrue).mpr (by simp [Kind.directions])
    obtain ⟨e', t', he'⟩ := (hg.ways hk hne .onFalse).mpr (by simp [Kind.directions])
    refine ⟨e, e', t, t', he, he', ?_⟩
    rintro e'' ⟨_, t'', d⟩ he'' rfl
    have hd := (hg.ways hk hne d).mp ⟨e'', t'', he''⟩
    rcases List.mem_pair.mp hd with rfl | rfl
    · exact .inl (hg.one_way hk hne he'' he)
    · exact .inr (hg.one_way hk hne he'' he')
  onward_edge {b block} hb hbranch hexit := by
    have hk := kind?_of_block? hb
    have hdirs := Kind.directions_of_onward hbranch hexit
    obtain ⟨e, t, he⟩ := (hg.ways hk hexit .always).mpr (by simp [hdirs])
    refine ⟨e, t, he, ?_⟩
    rintro e' ⟨_, t', d⟩ he' rfl
    have hd := (hg.ways hk hexit d).mp ⟨e', t', he'⟩
    rw [hdirs, List.mem_singleton] at hd
    subst hd
    exact hg.one_way hk hexit he' he
  args_enter hb _ _ hp _ _ hv := (hg.mem_preds hb _).mp (hg.args_enter hb hp hv)

namespace Consistent

theorem listed (hg : g.Consistent) : g.Listed where
  id_eq := hg.id_eq
  mem_succs hb := (hg.succs_exact hb).2
  mem_preds hb := (hg.preds_exact hb).2
  nodup_succs hb := (hg.succs_exact hb).1
  nodup_preds hb := (hg.preds_exact hb).1
  source_live he := isLive_iff.mp (hg.ends_live he).1
  target_live he := isLive_iff.mp (hg.ends_live he).2
  args_enter hb _ _ hp _ _ hv := ((hg.preds_exact hb).2 _).mpr (hg.args_enter hb hp hv)

/-- The edges that leave a block are one for each of its directions. -/
theorem outgoing (hg : g.Consistent) {b : BlockId} {k : Kind} (hk : g.kind? b = some k)
    (hexit : k ≠ .exit) :
    (∀ d, (∃ e t, g.edge? e = some ⟨b, t, d⟩) ↔ d ∈ k.directions) ∧
      ∀ {d e e' t t'}, g.edge? e = some ⟨b, t, d⟩ → g.edge? e' = some ⟨b, t', d⟩ → e = e' := by
  obtain ⟨block, hb, rfl⟩ := block?_of_kind? hk
  cases hbranch : block.kind.isBranch with
  | true =>
    obtain ⟨br, hbr⟩ : ∃ br, block.kind = .branch br := by
      cases hkind : block.kind <;> simp_all [Kind.isBranch]
    obtain ⟨e, e', t, t', he, he', hall⟩ := hg.branch_edges hb hbr
    rw [hbr]
    refine ⟨fun d => ⟨?_, fun hd => ?_⟩, fun {d e₁ e₂ t₁ t₂} h₁ h₂ => ?_⟩
    · rintro ⟨e'', t'', he''⟩
      rcases hall e'' _ he'' rfl with rfl | rfl
      · simp_all [Kind.directions]
      · simp_all [Kind.directions]
    · rcases List.mem_pair.mp hd with rfl | rfl
      · exact ⟨e, t, he⟩
      · exact ⟨e', t', he'⟩
    · -- Both edges are for the same outcome, so both are `e` or both are `e'`.
      rcases hall e₁ _ h₁ rfl with rfl | rfl <;> rcases hall e₂ _ h₂ rfl with rfl | rfl <;> grind
  | false =>
    obtain ⟨e, t, he, hall⟩ := hg.onward_edge hb hbranch hexit
    rw [Kind.directions_of_onward hbranch hexit]
    refine ⟨fun d => ⟨?_, fun hd => ?_⟩, fun {d e₁ e₂ t₁ t₂} h₁ h₂ => ?_⟩
    · rintro ⟨e', t', he'⟩
      obtain rfl := hall e' _ he' rfl
      simp_all
    · obtain rfl := List.mem_singleton.mp hd
      exact ⟨e, t, he⟩
    · exact (hall e₁ _ h₁ rfl).trans (hall e₂ _ h₂ rfl).symm

theorem wired (hg : g.Consistent) : g.Wired := by
  have hterm := hg.listed.checkTerminals_iff.mp
    (checkTerminals_eq_ok.mpr ⟨hg.entry_block, hg.exit_block⟩)
  exact { hg.listed with
    entry_kind := hterm.1.1
    entry_closed := fun he => hterm.1.2 _ _ he
    exit_kind := hterm.2.1
    exit_closed := fun he => hterm.2.2 _ _ he
    ways := fun hk hexit => (hg.outgoing hk hexit).1
    one_way := fun hk hexit => (hg.outgoing hk hexit).2 }

end Consistent

/-- **What the check asks for**, record by record. -/
theorem wired_iff_consistent : g.Wired ↔ g.Consistent := ⟨Wired.consistent, Consistent.wired⟩

/-! ### Lookups -/

/-- The rounds of the check that ask whether a handle is in use before they follow it. -/
def checkTables (g : Graph) : Verdict := do
  g.liveSlots.forM fun (block, slot) => g.checkLists block slot
  g.liveEdges.forM fun (e, edge) => g.checkEdge e edge
  g.checkTerminals

/-- The directions of the outgoing edges of a block, each of which has to be in use. -/
def lookUpDirections (g : Graph) (block : Block) : Answer (List Direction) :=
  block.succs.mapM fun e => return (← g.edge e).direction

/-- The outgoing edges of a block against its kind. -/
def inspectOutgoing (g : Graph) (block : Block) : ExceptT Violation Answer Unit := do
  let directions ← g.lookUpDirections block
  match block.kind with
  | .exit => pure ()
  | .branch _ =>
    demand (directions.length = 2 && .onTrue ∈ directions && .onFalse ∈ directions)
      (.malformedBranch block.id)
  | _ => demand (directions = [.always]) (.badOutDegree block.id directions.length)

/-- **The check as a run of lookups**: a verdict, or the fault of a lookup that had no answer. -/
def inspect (g : Graph) : ExceptT Violation Answer Unit := do
  g.checkTables
  g.liveBlocks.forM g.inspectOutgoing

theorem checkWiring_eq_checkTables_bind :
    g.checkWiring = (g.checkTables >>= fun _ => g.liveBlocks.forM g.checkOutgoing) := by
  simp only [checkWiring, checkTables, bind_assoc]

/-- Once the tables have passed, no list names an edge that is not in use. -/
theorem Listed.of_checkTables (h : g.checkTables = .ok ()) : g.Listed := by
  simp only [checkTables, bind_eq_ok, forM_eq_ok, Prod.forall, mem_liveSlots, mem_liveEdges] at h
  obtain ⟨⟨⟩, hlists, ⟨⟩, hedges, -⟩ := h
  exact listed_of_checks (fun b block hb => hlists block b.slot hb) hedges

theorem Listed.lookUpDirections (hg : g.Listed) {b : BlockId} {block : Block}
    (hb : g.block? b = some block) : g.lookUpDirections block = .ok (g.outward block) := by
  have hlive : ∀ e ∈ block.succs, ∃ edge, g.edge? e = some edge := fun e he =>
    ((hg.mem_succs hb e).mp he).imp fun _ h => h.1
  unfold Graph.lookUpDirections outward
  revert hlive
  induction block.succs with
  | nil => exact fun _ => rfl
  | cons e es ih =>
    intro hlive
    obtain ⟨⟨edge, he⟩, hrest⟩ := List.forall_mem_cons.mp hlive
    have hedge : g.edge e = .ok edge := by rw [Graph.edge, he]
    rw [List.mapM_cons, hedge, ih hrest, List.filterMap_cons, he]
    rfl

/-- Where the lists agree with the table, the last round finds what it looks up. -/
theorem Listed.inspectOutgoing (hg : g.Listed) {block : Block} (hblock : block ∈ g.liveBlocks) :
    (g.inspectOutgoing block).run = .ok (g.checkOutgoing block) := by
  obtain ⟨b, hb⟩ := mem_liveBlocks.mp hblock
  unfold Graph.inspectOutgoing checkOutgoing
  rw [hg.lookUpDirections hb]
  cases block.kind <;> rfl

theorem run_forM_inspectOutgoing {blocks : List Block}
    (h : ∀ block ∈ blocks, (g.inspectOutgoing block).run = .ok (g.checkOutgoing block)) :
    (blocks.forM g.inspectOutgoing).run = .ok (blocks.forM g.checkOutgoing) := by
  induction blocks with
  | nil => rfl
  | cons block blocks ih =>
    obtain ⟨hone, hrest⟩ := List.forall_mem_cons.mp h
    have hinspect : ((block :: blocks).forM g.inspectOutgoing).run =
        (g.inspectOutgoing block >>= fun _ => blocks.forM g.inspectOutgoing).run := rfl
    have hcheck : (block :: blocks).forM g.checkOutgoing =
        (g.checkOutgoing block >>= fun _ => blocks.forM g.checkOutgoing) := rfl
    rw [hinspect, hcheck, ExceptT.run_bind, hone]
    cases g.checkOutgoing block with
    | error v => rfl
    | ok u => exact ih hrest

/-- **No lookup of the check is without an answer.** -/
theorem run_inspect (g : Graph) : g.inspect.run = .ok g.checkWiring := by
  rw [checkWiring_eq_checkTables_bind, inspect, ExceptT.run_bind]
  cases h : g.checkTables with
  | error v => rfl
  | ok u =>
    exact run_forM_inspectOutgoing fun block hblock =>
      (Listed.of_checkTables h).inspectOutgoing hblock

/-- **The structural check is exact**, whatever records the tables hold: it passes on the consistent
graphs and on no others.  And it always comes to a verdict: in none of its rounds does a lookup meet
a handle that is not in use. -/
theorem checkWiring_exact (g : Graph) :
    (g.checkWiring = .ok () ↔ g.Consistent) ∧ g.inspect.run = .ok g.checkWiring :=
  ⟨checkWiring_iff.trans wired_iff_consistent, g.run_inspect⟩

end Graph
end FlowGraph
