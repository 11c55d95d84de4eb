import FlowGraph.Proofs.ForwardEdges

/-! # From the top down

The forward edges have no cycle, so their topological order exists, over all slots.  Without the
slots that are not in use it is the order from the top down.  An edge that closes no loop is a
forward edge, so it leads down.  A forward edge leads to every block but the entry, and so some
block stands before it: the entry comes first.
-/
namespace FlowGraph
namespace Graph

variable {g : Graph}

/-- An edge between blocks in use leads down, if it is a forward edge. -/
theorem sublist_filter_isLive {order : List Nat} {a b : BlockId}
    (ha : ∃ block, g.block? a = some block)
    (hb : ∃ block, g.block? b = some block) (h : [b.slot, a.slot].Sublist order) :
    [a, b].Sublist ((order.reverse.map BlockId.mk).filter g.isLive) := by
  obtain ⟨_, ha⟩ := ha
  obtain ⟨_, hb⟩ := hb
  have hkept : [a, b].filter g.isLive = [a, b] := by simp [isLive, ha, hb]
  rw [← hkept]
  exact (h.reverse.map BlockId.mk).filter g.isLive

/-- **The order from the top down exists**, for forward edges without a cycle. -/
theorem WellFormed.exists_topDown (hg : g.WellFormed) :
    ∃ order, g.topDown = .ok order ∧ order.Nodup ∧
      (∀ b, b ∈ order ↔ ∃ block, g.block? b = some block) ∧ order.head? = some entry ∧
      ∀ b s, g.Leads b s → ¬ Relation.ReflTransGen g.Leads s b → [b, s].Sublist order := by
  obtain ⟨edges, hforward, hedges⟩ := hg.forwardGraph_spec
  obtain ⟨slots, hslots, hnodup, hmem, hsorted⟩ :=
    Digraph.exists_inverseOrder hedges.closed hedges.acyclic
  have hrun : g.topDown = .ok ((slots.reverse.map BlockId.mk).filter g.isLive) := by
    rw [topDown, hforward]
    simp only [bind, Except.bind, hslots]
    rfl
  generalize horder : (slots.reverse.map BlockId.mk).filter g.isLive = order at hrun
  have hnodup' : order.Nodup := by
    rw [← horder]
    refine (List.Nodup.map (fun _ _ h => congrArg BlockId.slot h) ?_).filter _
    exact List.nodup_reverse.mpr hnodup
  have hmem' : ∀ b, b ∈ order ↔ ∃ block, g.block? b = some block := by
    intro b
    have hslot : b ∈ slots.reverse.map BlockId.mk ↔ b.slot < g.blocks.size := by
      rw [List.mem_map, ← hedges.size_eq, ← hmem]
      constructor
      · rintro ⟨slot, hslot, rfl⟩
        exact List.mem_reverse.mp hslot
      · exact fun h => ⟨b.slot, List.mem_reverse.mpr h, rfl⟩
    rw [← horder, List.mem_filter, hslot, isLive, Option.isSome_iff_exists]
    exact ⟨fun h => h.2, fun h => ⟨h.elim fun _ hb => slot_lt_of_block? hb, h⟩⟩
  have hdown : ∀ {a b : BlockId}, (∃ block, g.block? a = some block) →
      (∃ block, g.block? b = some block) → b.slot ∈ edges.successors a.slot →
      [a, b].Sublist order := fun ha hb hedge =>
    horder ▸ sublist_filter_isLive ha hb (hsorted _ _ hedge)
  refine ⟨order, hrun, hnodup', hmem', ?_, fun b s hl hback => ?_⟩
  · cases order with
    | nil => exact absurd ((hmem' entry).mpr hg.entry_live) List.not_mem_nil
    | cons b rest =>
      -- A forward edge to the first block would come from a block before it.
      by_contra hne
      have hb : b ≠ entry := fun heq => hne (congrArg some heq)
      obtain ⟨block, hlive⟩ := (hmem' b).mp List.mem_cons_self
      obtain ⟨a, ha, hedge⟩ := hedges.entered hlive hb
      have hafter : b ∈ rest := by
        cases hdown ha ⟨block, hlive⟩ hedge with
        | cons _ h => exact h.subset (by simp)
        | cons_cons _ h => exact h.subset (by simp)
      exact (List.nodup_cons.mp hnodup').1 hafter
  · obtain ⟨e, d, he⟩ := hl
    exact hdown (hg.listed.source_live he) (hg.listed.target_live he)
      ((hedges.covers ⟨e, d, he⟩).resolve_right hback)

/-- **The order from the top down is topological up to cycles.**  It exists for every well-formed
graph, lists every block in use once and begins with the entry.  Where an edge leads from one block
to another and no path leads back, the one stands before the other.  The order from the bottom up is
its reverse. -/
theorem WellFormed.topDown_ordered (hg : g.WellFormed) :
    ∃ order, g.topDown = .ok order ∧ g.bottomUp = .ok order.reverse ∧ order.Nodup ∧
      (∀ b, b ∈ order ↔ ∃ block, g.block? b = some block) ∧ order.head? = some entry ∧
      ∀ b s, g.Leads b s → ¬ Relation.ReflTransGen g.Leads s b → [b, s].Sublist order := by
  obtain ⟨order, hrun, hnodup, hmem, hhead, hdown⟩ := hg.exists_topDown
  refine ⟨order, hrun, ?_, hnodup, hmem, hhead, hdown⟩
  rw [bottomUp, hrun]
  rfl

/-- A loop, a removed block, and out of reach a block that leads to itself and, through another,
into the loop. -/
def eddy : Graph where
  name := "eddy"
  blocks := #[
    some { id := ⟨0⟩, kind := .entry, succs := [⟨0⟩] },
    some { id := ⟨1⟩, kind := .exit, preds := [⟨3⟩] },
    some { id := ⟨2⟩,
           kind := .branch ⟨.plain "on", "", ""⟩, preds := [⟨0⟩, ⟨2⟩], succs := [⟨1⟩, ⟨3⟩] },
    none,
    some { id := ⟨4⟩, kind := .empty, preds := [⟨1⟩, ⟨6⟩], succs := [⟨2⟩] },
    some { id := ⟨5⟩, kind := .branch ⟨.plain "on", "", ""⟩, preds := [⟨4⟩], succs := [⟨4⟩, ⟨5⟩] },
    some { id := ⟨6⟩, kind := .empty, preds := [⟨5⟩], succs := [⟨6⟩] }]
  edges := #[some ⟨⟨0⟩, ⟨2⟩, .always⟩, some ⟨⟨2⟩, ⟨4⟩, .onTrue⟩, some ⟨⟨4⟩, ⟨2⟩, .always⟩,
    some ⟨⟨2⟩, ⟨1⟩, .onFalse⟩, some ⟨⟨5⟩, ⟨5⟩, .onTrue⟩, some ⟨⟨5⟩, ⟨6⟩, .onFalse⟩,
    some ⟨⟨6⟩, ⟨4⟩, .always⟩]

/-- What is out of reach comes before the part of the loop that it leads into. -/
theorem topDown_ordered_eddy : eddy.WellFormed ∧
    ∃ order, eddy.topDown = .ok order ∧ order = [⟨0⟩, ⟨5⟩, ⟨6⟩, ⟨2⟩, ⟨1⟩, ⟨4⟩] ∧
      [⟨6⟩, ⟨4⟩].Sublist order := by
  have hg : eddy.WellFormed := by decide
  obtain ⟨order, horder, -, -, -, -, hdown⟩ := hg.topDown_ordered
  have hstays : ∀ x ∈ eddy.liveEdges, x.2.source ∈ [(⟨1⟩ : BlockId), ⟨2⟩, ⟨4⟩] →
      x.2.target ∈ [(⟨1⟩ : BlockId), ⟨2⟩, ⟨4⟩] := by decide
  have hback : ¬ Relation.ReflTransGen eddy.Leads ⟨4⟩ ⟨6⟩ := by
    intro h
    have hin : (⟨6⟩ : BlockId) ∈ [(⟨1⟩ : BlockId), ⟨2⟩, ⟨4⟩] := by
      refine Relation.ReflTransGen.head_induction_on (motive := fun a _ =>
        a ∈ [(⟨1⟩ : BlockId), ⟨2⟩, ⟨4⟩] → (⟨6⟩ : BlockId) ∈ [(⟨1⟩ : BlockId), ⟨2⟩, ⟨4⟩]) h id ?_
        (by decide)
      rintro a c ⟨e, d, he⟩ - ih ha
      exact ih (hstays _ (mem_liveEdges.mpr he) ha)
    exact absurd hin (by decide)
  refine ⟨hg, order, horder, ?_, hdown ⟨6⟩ ⟨4⟩ ⟨⟨6⟩, .always, rfl⟩ hback⟩
  have hrun : eddy.topDown = .ok [⟨0⟩, ⟨5⟩, ⟨6⟩, ⟨2⟩, ⟨1⟩, ⟨4⟩] := by decide +kernel
  exact Except.ok.inj (horder.symm.trans hrun)

end Graph
end FlowGraph
