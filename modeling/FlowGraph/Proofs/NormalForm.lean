import FlowGraph.Proofs.Histories
import FlowGraph.Proofs.Neatening
import FlowGraph.Proofs.Rebuilding

/-! # Tidying comes to rest

Whatever was done to a routine before, tidying it succeeds.  It leaves no block that it could take
out another time, so a second time it does nothing.
-/
namespace FlowGraph
namespace Graph

variable {g : Graph}

/-! ### Graphs at rest -/

theorem AtRest.tidyAt (hrest : g.AtRest) (count : Nat) (b : BlockId) :
    (tidyAt (count, g) b).outcome = .ok (count, g) := by
  rw [Graph.tidyAt]
  split
  · rename_i hlive
    obtain ⟨block, hb⟩ := Option.isSome_iff_exists.mp hlive
    rw [Run.outcome_liftM_bind (hrest hb)]
    rfl
  · rfl

theorem AtRest.tidyPass (hrest : g.AtRest) : g.tidyPass.outcome = .ok (0, g) := by
  rw [Graph.tidyPass]
  induction g.blockIds with
  | nil => rfl
  | cons b bs ih => rw [List.foldlM_cons, Run.outcome_bind_of_ok (hrest.tidyAt 0 b), ih]

/-- With all blocks reached there is nothing to remove. -/
theorem WellFormed.pruneUnreachable_of_nil (hg : g.WellFormed) (h : g.unreachable = []) :
    g.pruneUnreachable.outcome = .ok (0, g) := by
  rw [hg.outcome_pruneUnreachable_bind, h]
  refine Run.outcome_bind_of_ok (a := g) ?_ _
  rw [List.filter_eq_nil_iff.mpr fun b _ => by simp]
  rfl

/-- **A graph at rest** is left exactly as it is. -/
theorem WellFormed.tidy_atRest (hg : g.WellFormed) (hr : g.Reached) (hrest : g.AtRest) :
    g.tidy.outcome = .ok (0, g) := by
  rw [Graph.tidy, Run.outcome_bind_of_ok (hg.pruneUnreachable_of_nil (hg.reached_iff.mp hr))]
  dsimp only
  rw [tidyPasses, bind_assoc, Run.outcome_bind_of_ok hrest.tidyPass]
  rfl

/-- An empty block that is not idle has phi functions or is its own only successor. -/
theorem AtRest.empty (hrest : g.AtRest) (hg : g.WellFormed) {b : BlockId} {block : Block}
    (hb : g.block? b = some block) (hk : block.kind = .empty) :
    block.phis ≠ .empty ∨ g.targets b = [b] := by
  have hkind : g.kind? b = some .empty := hk ▸ kind?_of_block? hb
  obtain ⟨link, s, hlink⟩ := (hg.wired.ways hkind nofun .always).mpr List.mem_cons_self
  have hidle := hrest hb
  rw [hg.isIdle_empty hb hk hlink, Except.ok.injEq, Bool.and_eq_false_iff] at hidle
  refine hidle.imp (fun hphis hempty => ?_) fun hs => ?_
  · rw [hempty] at hphis
    cases hphis
  · have hself : s = b := by simpa using hs
    subst hself
    have hsuccs : block.succs = [link] := hg.succs_eq hb (by rw [hk]; rfl) hlink
    simp [targets, hb, hsuccs, hlink]

end Graph

namespace Routine

/-- **Tidying comes to rest.**  Whatever was done to a routine before, tidying succeeds.  The entry
then reaches every block but perhaps the exit, an empty block has phi functions or is its own only
successor, and every statement and branch that was reached is where it was.  Tidying once more
counts no block and changes nothing. -/
theorem tidy_normalForm {p : Procedure} {r₀ r : Routine} {as : List Action}
    (h₀ : (ofProcedure p).outcome = .ok r₀) (h : (r₀.acts as).outcome = .ok r) :
    ∃ count r', r.tidy.outcome = .ok (count, r') ∧
      (∀ b block, r'.graph.block? b = some block → b ≠ Graph.exit → r'.graph.Reachable b) ∧
      (∀ b block, r'.graph.block? b = some block → block.kind = .empty →
        block.phis ≠ .empty ∨ r'.graph.targets b = [b]) ∧
      (∀ b k, r.graph.Reachable b → r.graph.kind? b = some k →
        (∃ s, k = .statement s) ∨ (∃ br, k = .branch br) → r'.graph.kind? b = some k) ∧
      r'.tidy.outcome = .ok (0, r') := by
  have hg₀ : r₀.graph.WellFormed := (Passage.layable_of_ofProcedure h₀).2.wellFormed
  have hg : r.graph.WellFormed := (evolves_acts hg₀ h).wellFormed
  obtain ⟨count, g', hok, hchain, hreached, hrest⟩ := hg.exists_tidy
  have hneater := Graph.neater_of_neatens hg.pruned hchain
  refine ⟨count, r.withGraph g', r.outcome_tidy hok hneater.wellFormed hreached,
    fun b block hb hexit => (hreached hb).resolve_left hexit,
    fun b block hb hk => hrest.empty hneater.wellFormed hb hk, fun b k hb hk hwork => ?_, ?_⟩
  · refine hneater.kind?_eq ((hg.kind?_pruned hb).trans hk) ?_
    rintro rfl
    rcases hwork with ⟨_, hs⟩ | ⟨_, hbr⟩
    · cases hs
    · cases hbr
  · have hagain : (r.withGraph g').graph.tidy.outcome = .ok (0, g') :=
      hneater.wellFormed.tidy_atRest hreached hrest
    exact outcome_tidy _ hagain hneater.wellFormed hreached

/-- Operations that leave a block which nothing enters, in front of one with phi functions, and an
empty block between two others. -/
def disarray : List Action := [
  .toSsa,
  .replace ⟨5⟩ [],
  .batch [.addBlock .empty, .addEdge ⟨13⟩ ⟨3⟩],
  .putBetween ⟨2⟩ ⟨3⟩ .empty]

theorem disarray_normalForm : ∃ r₀ r,
    (ofProcedure Passage.swapLoop).outcome = .ok r₀ ∧ (r₀.acts disarray).outcome = .ok r ∧
      ∃ count r', r.tidy.outcome = .ok (count, r') ∧ 0 < count ∧
        (∀ b block, r'.graph.block? b = some block → b ≠ Graph.exit → r'.graph.Reachable b) ∧
        (∀ b block, r'.graph.block? b = some block → block.kind = .empty →
          block.phis ≠ .empty ∨ r'.graph.targets b = [b]) ∧
        (∀ b k, r.graph.Reachable b → r.graph.kind? b = some k →
          (∃ s, k = .statement s) ∨ (∃ br, k = .branch br) → r'.graph.kind? b = some k) ∧
        r'.tidy.outcome = .ok (0, r') := by
  have hrun : ((ofProcedure Passage.swapLoop).outcome.toOption.any fun r₀ =>
      (r₀.acts disarray).outcome.toOption.any fun r =>
        r.tidy.outcome.toOption.any fun s => 0 < s.1) = true := by
    decide +kernel
  obtain ⟨r₀, h₀, hrun⟩ := Run.exists_ok_of_any hrun
  obtain ⟨r, h, hrun⟩ := Run.exists_ok_of_any hrun
  obtain ⟨s, hs, hcount⟩ := Run.exists_ok_of_any hrun
  obtain ⟨count, r', hok, hrest⟩ := tidy_normalForm h₀ h
  rw [hok] at hs
  cases hs
  exact ⟨r₀, r, h₀, h, count, r', hok, of_decide_eq_true hcount, hrest⟩

end Routine
end FlowGraph
