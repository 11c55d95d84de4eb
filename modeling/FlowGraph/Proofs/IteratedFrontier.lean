import FlowGraph.Proofs.Conversion

/-! # Phi functions stand on iterated frontiers

The conversion into single assignment form gives a block a phi function for a variable if and only
if the block is on the iterated frontier of the assignments to it.  Blocks out of reach are removed
before phi functions are placed; on iterated frontiers they have no influence (`joins_iff`).
-/
namespace FlowGraph
namespace Graph

variable {g g' : Graph}

section
variable (hg : g.WellFormed) (h : Restricts g g' (· ∈ g.unreachable))
include hg h

theorem Restricts.dominates_iff {a b : BlockId} : g'.Dominates a b ↔ g.Dominates a b :=
  forall_congr' fun _ => imp_congr_left
    (h.route_iff (hg.notMem_unreachable .entry) hg.closed_unreachable)

/-- Without the blocks out of reach, frontiers are the same. -/
theorem Restricts.inFrontier_iff {x y : BlockId} : g'.InFrontier x y ↔ g.InFrontier x y := by
  obtain ⟨-, hreach, -⟩ := hg.restricts_unreachable h
  simp only [InFrontier, hreach, h.dominates_iff hg]
  refine and_congr_left fun _ => exists_congr fun p => and_congr_right fun hp =>
    and_congr_right fun _ => exists_congr fun e => exists_congr fun d => ?_
  rw [h.edge?_iff]
  refine ⟨fun he => he.1, fun he => ⟨he, hg.notMem_unreachable hp, ?_⟩⟩
  exact hg.notMem_unreachable (hp.step ⟨e, d, he⟩)

/-- Without the blocks out of reach, definitions meet in the same places. -/
theorem Restricts.joins_iff {n : String} {y : BlockId} : g'.Joins n y ↔ g.Joins n y := by
  obtain ⟨-, hreach, -⟩ := hg.restricts_unreachable h
  constructor
  · intro hj
    induction hj with
    | assigned hx hk hv hn hf =>
      exact .assigned ((hreach _).mp hx) (h.kind?_eq_some hk).2 hv hn ((h.inFrontier_iff hg).mp hf)
    | again _ hf ih => exact .again ih ((h.inFrontier_iff hg).mp hf)
  · intro hj
    induction hj with
    | assigned hx hk hv hn hf =>
      exact .assigned ((hreach _).mpr hx) ((h.kind?_of_left (hg.notMem_unreachable hx)).trans hk)
        hv hn
        ((h.inFrontier_iff hg).mpr hf)
    | again _ hf ih => exact .again ih ((h.inFrontier_iff hg).mpr hf)

end

end Graph

namespace Routine

/-- **Phi functions are placed exactly on the iterated frontiers.**  Of a well-formed graph without
phi functions, the conversion succeeds, and a block has a phi function for a variable if and only if
it is in the least set that holds the frontiers of the blocks that assign the variable and of its
own members.  The placement looks at blocks until none is pending, and it adds and reports one phi
function for each such block and variable. -/
theorem toSsa_iteratedFrontier (r : Routine) (hg : r.graph.WellFormed) (hp : r.graph.PhiFree) :
    ∃ r', r.toSsa.outcome = .ok r' ∧
      (∀ y n, r'.graph.hasPhi y n = true ↔ r.graph.Joins n y) ∧
      ∃ count, count = {p : BlockId × String | r.graph.Joins p.2 p.1}.ncard ∧
        (∃ name, .phisInserted count name ∈ r.toSsa.events) ∧
        ∃ r₁ d order g₁, r.prune.outcome = .ok r₁ ∧ Dominance.ofGraph r₁.graph = .ok d ∧
          (Ssa.place d (Web.ofGraph r₁.graph) r₁.graph).outcome = .ok (count, g₁) ∧
          r₁.graph.topDown = .ok order ∧
          Ssa.Empties d (Web.ofGraph r₁.graph) ⟨0, order, r₁.graph⟩ (count, g₁) := by
  obtain ⟨r₁, d, count, g₁, r', stops, hprune, hres, hd, hplace, hok, hevent, hver⟩ :=
    r.toSsa_steps hg hp
  obtain ⟨order, horder, hempties⟩ := hplace.empties
  refine ⟨r', hok, fun y n => hver.hasPhi_iff.trans (hres.joins_iff hg), count, ?_, ⟨_, hevent⟩, r₁,
    d, order, g₁, hprune, hd, hplace.run, horder, hempties⟩
  rw [hplace.count_eq]
  simp only [hres.joins_iff hg]

/-- The assignments to the variable that counts meet in front of the test, and only there. -/
theorem toSsa_iteratedFrontier_countdown :
    Graph.countdown.Joins "n" ⟨3⟩ ∧ ¬ Graph.countdown.Joins "n" ⟨4⟩ := by
  obtain ⟨r', hok, hiff, -⟩ :=
    toSsa_iteratedFrontier (.mk Graph.countdown .new none none) (by decide) (by decide)
  have hrun : (toSsa (.mk Graph.countdown .new none none)).outcome.toOption.any
      (fun r => r.graph.hasPhi ⟨3⟩ "n" && !r.graph.hasPhi ⟨4⟩ "n") = true := by
    decide +kernel
  rw [hok] at hrun
  simp only [Except.toOption, Option.any_some, Bool.and_eq_true, Bool.not_eq_true'] at hrun
  refine ⟨(hiff _ _).mp hrun.1, fun h => ?_⟩
  rw [(hiff _ _).mpr h] at hrun
  cases hrun.2

end Routine
end FlowGraph
