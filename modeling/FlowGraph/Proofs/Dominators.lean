import FlowGraph.Proofs.Frontier
import FlowGraph.Proofs.Outline
import FlowGraph.Routine

/-! # Answers about dominance

A routine answers questions about dominance from what was computed of its graph.  Here the answers
are compared with the routes of the graph: whether one block dominates another is found by climbing
the dominator tree (`climb_spec`), and right after a computation every answer is the true one,
whatever an earlier computation had left behind.
-/
namespace FlowGraph
namespace Dominance

variable {d : Dominance} {g : Graph}

/-! ### The tree -/

/-- Children are listed in the order of their slots. -/
theorem sorted_children (d : Dominance) (b : BlockId) :
    (d.children b).Pairwise fun c c' => c.slot < c'.slot := by
  apply List.pairwise_filterMap.mpr
  apply List.pairwise_iff_getElem.mpr
  intro i j hi hj hij c hc c' hc'
  simp only [List.getElem_zipIdx, Option.ite_none_right_eq_some, Option.some.injEq] at hc hc'
  obtain ⟨-, rfl⟩ := hc
  obtain ⟨-, rfl⟩ := hc'
  show 0 + i < 0 + j
  omega

theorem idomIn_of_live {b : BlockId} {block : Block} (hb : g.block? b = some block) :
    d.idomIn g b = .ok (d.parent? b) := by
  rw [idomIn, Graph.block, hb]
  rfl

theorem frontierIn_of_live {b : BlockId} {block : Block} (hb : g.block? b = some block) :
    d.frontierIn g b = .ok (d.frontierOf b) := by
  rw [frontierIn, Graph.block, hb]
  rfl

theorem idomIn_of_stale {b : BlockId} (hb : g.block? b = none) :
    d.idomIn g b = .error (.violation (.staleBlock b)) := by
  rw [idomIn, Graph.block, hb]
  rfl

theorem frontierIn_of_stale {b : BlockId} (hb : g.block? b = none) :
    d.frontierIn g b = .error (.violation (.staleBlock b)) := by
  rw [frontierIn, Graph.block, hb]
  rfl

namespace Describes

variable (hd : d.Describes g)
include hd

theorem parent?_entry : d.parent? Graph.entry = none := by
  refine Option.eq_none_iff_forall_ne_some.mpr fun a ha => ?_
  have hi := hd.parent?_iff.mp ha
  exact hi.ne hi.dominates.eq_entry

theorem parent?_of_not_reachable {b : BlockId} (hb : ¬ g.Reachable b) : d.parent? b = none :=
  Option.eq_none_iff_forall_ne_some.mpr fun _ ha => hb (hd.parent?_iff.mp ha).reachable

/-- **Climbing**, in any graph, finds the dominators of a reachable block, unless it comes to one
that is not in use there.  Each step up the tree leads to an earlier place of reverse postorder, so
a climb as long as the place of the block ends at the entry. -/
theorem climb_elsewhere (hg : g.WellFormed) (g' : Graph) {a b : BlockId} {fuel : Nat}
    (hb : g.Reachable b) (hfuel : place g b < fuel) :
    (∃ t, d.climb g' a fuel b = .ok t ∧ (t = true ↔ g.Dominates a b)) ∨
      ∃ c, g.Dominates c b ∧ g'.block? c = none ∧
        d.climb g' a fuel b = .error (.violation (.staleBlock c)) := by
  induction fuel generalizing b with
  | zero => omega
  | succ fuel ih =>
    by_cases hba : b = a
    · exact .inl ⟨true, by rw [climb, if_pos hba], iff_of_true rfl (hba ▸ .refl b)⟩
    rw [climb, if_neg hba]
    cases hlive : g'.block? b with
    | none => exact .inr ⟨b, .refl b, hlive, by rw [idomIn_of_stale hlive]; rfl⟩
    | some block =>
      rw [idomIn_of_live hlive]
      by_cases hne : b = Graph.entry
      · subst hne
        rw [hd.parent?_entry]
        exact .inl ⟨false, rfl, iff_of_false Bool.false_ne_true fun h => hba h.eq_entry.symm⟩
      · obtain ⟨c, hc⟩ := exists_immediate hg hb hne
        have hlt := place_lt_of_immediate hg hc
        rw [hd.parent?_iff.mpr hc]
        rcases ih (hc.dominates.reachable hb) (show place g c < fuel by omega) with
          ⟨t, ht, hiff⟩ | ⟨x, hx, hgone, herror⟩
        · -- what is above the parent is above the block, and nothing else is
          refine .inl ⟨t, ht, hiff.trans ⟨fun h => h.trans hc.dominates, fun h => ?_⟩⟩
          exact hc.closest h (Ne.symm hba)
        · exact .inr ⟨x, hx.trans hc.dominates, hgone, herror⟩

/-- **Climbing finds exactly the dominators** of a reachable block: in the graph itself they are all
in use. -/
theorem climb_spec (hg : g.WellFormed) {a b : BlockId} {fuel : Nat} (hb : g.Reachable b)
    (hfuel : place g b < fuel) :
    ∃ t, d.climb g a fuel b = .ok t ∧ (t = true ↔ g.Dominates a b) := by
  rcases hd.climb_elsewhere hg g hb hfuel with hfound | ⟨c, hc, hstale, -⟩
  · exact hfound
  · obtain ⟨block, hlive⟩ := hg.live_of_reachable (hc.reachable hb)
    cases hstale.symm.trans hlive

theorem dominates_spec (hg : g.WellFormed) {a b : BlockId} (hb : g.Reachable b) :
    ∃ t, d.dominates g a b = .ok t ∧ (t = true ↔ g.Dominates a b) := by
  apply hd.climb_spec hg hb
  have hplace := place_lt hg hb
  have hlen := length_order_le hg
  have hsize := hd.size_eq
  omega

end Describes

/-- **The outline determines the dominators**: the computation looks at nothing else. -/
theorem ofGraph_of_outline {g g' : Graph} (h : g.SameOutline g') : ofGraph g' = ofGraph g := by
  have hcandidate : candidate g' = candidate g := by
    funext rank t b
    rw [candidate, candidate, h.predecessors_eq]
  have himprove : improve g' = improve g := by
    funext rank order t
    have hat : improveAt g' rank = improveAt g rank := by
      funext s b
      rw [improveAt, improveAt, hcandidate]
    rw [improve, improve, hat]
  have hown : ownFrontier g' = ownFrontier g := by
    funext ids idom x
    rw [ownFrontier, ownFrontier, h.targets_eq]
  have hpostorder : g'.postorderFromEntry = g.postorderFromEntry := by
    rw [Graph.postorderFromEntry, Graph.postorderFromEntry, Graph.searchFrom, Graph.searchFrom,
      h.successors_eq, h.size_eq]
  simp only [ofGraph, immediate, frontiers, ownFrontiers, hpostorder, himprove, hown, h.size_eq,
    h.blockIds_eq, h.demandLive_eq]

end Dominance

namespace Routine

variable {r : Routine} {d : Dominance}

/-! ### What a routine answers -/

/-- **The answers about dominators are true** of the routes of the graph. -/
structure TellsDominators (r : Routine) : Prop where
  /-- One block dominates another if every route to the other passes through it. -/
  dominates : ∀ {a b}, r.graph.Reachable b →
    ∃ t, r.dominates a b = .ok t ∧ (t = true ↔ r.graph.Dominates a b)
  /-- The immediate dominator is the one strict dominator that all strict dominators dominate. -/
  idom : ∀ {b}, r.graph.Reachable b → b ≠ Graph.entry →
    ∃ a, r.idom b = .ok (some a) ∧ r.graph.ImmediatelyDominates a b ∧
      ∀ a', r.graph.ImmediatelyDominates a' b → a' = a
  idom_entry : r.idom Graph.entry = .ok none
  idom_unreachable : ∀ {b block}, r.graph.block? b = some block → ¬ r.graph.Reachable b →
    r.idom b = .ok none
  /-- The children of a block are listed once each, in the order of their slots. -/
  children : ∀ b, ∃ cs, r.idomChildren b = .ok cs ∧ (∀ c, c ∈ cs ↔ r.idom c = .ok (some b)) ∧
    cs.Pairwise fun c c' => c.slot < c'.slot

theorem knownDominance_eq (h : r.dominance = some d) : r.knownDominance = .ok d := by
  rw [knownDominance, h]

theorem idom_eq_ok_iff (h : r.dominance = some d) {b : BlockId} {a? : Option BlockId} :
    r.idom b = .ok a? ↔ (∃ block, r.graph.block? b = some block) ∧ d.parent? b = a? := by
  rw [Routine.idom, knownDominance_eq h]
  show d.idomIn r.graph b = _ ↔ _
  cases hb : r.graph.block? b with
  | some block => simp [Dominance.idomIn_of_live hb]
  | none =>
    rw [Dominance.idomIn, Graph.block, hb]
    simp only [reduceCtorEq, exists_const, false_and, iff_false]
    intro heq
    cases heq

theorem tellsDominators_of_describes (hg : r.graph.WellFormed) (h : r.dominance = some d)
    (hd : d.Describes r.graph) : r.TellsDominators where
  dominates hb := by
    rw [Routine.dominates, knownDominance_eq h]
    exact hd.dominates_spec hg hb
  idom {b} hb hne := by
    obtain ⟨a, ha⟩ := Dominance.exists_immediate hg hb hne
    refine ⟨a, ?_, ha, fun a' ha' => ha'.unique ha⟩
    exact (idom_eq_ok_iff h).mpr ⟨hg.live_of_reachable hb, hd.parent?_iff.mpr ha⟩
  idom_entry := (idom_eq_ok_iff h).mpr ⟨hg.entry_live, hd.parent?_entry⟩
  idom_unreachable hb hn := (idom_eq_ok_iff h).mpr ⟨⟨_, hb⟩, hd.parent?_of_not_reachable hn⟩
  children b := by
    refine ⟨d.children b, by rw [idomChildren, knownDominance_eq h]; rfl, fun c => ?_,
      d.sorted_children b⟩
    rw [idom_eq_ok_iff h]
    constructor
    · intro hc
      have hp : d.parent? c = some b := Dominance.mem_childrenIn.mp hc
      exact ⟨hg.live_of_reachable (hd.parent?_iff.mp hp).reachable, hp⟩
    · rintro ⟨-, hp⟩
      exact Dominance.mem_childrenIn.mpr hp

/-- A computation does not ask what was known before. -/
theorem refreshDominance_eq (h : Dominance.ofGraph r.graph = .ok d) :
    r.refreshDominance.outcome = .ok (d, { r with dominance := some d }) := by
  rw [refreshDominance, Run.outcome_liftM_bind h]
  rfl

theorem refreshDominance_spec (hg : r.graph.WellFormed) :
    ∃ d, r.refreshDominance.outcome = .ok (d, { r with dominance := some d }) ∧
      d.Describes r.graph := by
  obtain ⟨d, hok, hd⟩ := Dominance.ofGraph_spec hg
  exact ⟨d, refreshDominance_eq hok, hd⟩

/-- **Dominators are found**: on every well-formed graph the computation ends with a result, from
which the routine answers every question about dominators as the routes of the graph have it. -/
theorem refreshDominance_tellsDominators (r : Routine) (hg : r.graph.WellFormed) :
    ∃ d r', r.refreshDominance.outcome = .ok (d, r') ∧ r'.graph = r.graph ∧
      r'.TellsDominators := by
  obtain ⟨d, hok, hd⟩ := refreshDominance_spec hg
  exact ⟨d, _, hok, rfl, tellsDominators_of_describes hg rfl hd⟩

/-- A loop with two ways in, a block that leads to itself, a branch with both ways to the same
block, and a block that the entry does not reach. -/
def tangle : Routine where
  names := .new
  web := none
  graph :=
    { name := "tangle"
      blocks := #[
        some { id := ⟨0⟩, kind := .entry, succs := [⟨0⟩] },
        some { id := ⟨1⟩, kind := .exit, preds := [⟨8⟩, ⟨9⟩] },
        some { id := ⟨2⟩, kind := .branch ⟨.plain "a", "left", "right"⟩
               preds := [⟨0⟩], succs := [⟨1⟩, ⟨2⟩] },
        some { id := ⟨3⟩, kind := .branch ⟨.plain "b", "right", "spin"⟩
               preds := [⟨1⟩, ⟨5⟩, ⟨10⟩], succs := [⟨3⟩, ⟨4⟩] },
        some { id := ⟨4⟩, kind := .empty, preds := [⟨2⟩, ⟨3⟩], succs := [⟨5⟩] },
        some { id := ⟨5⟩, kind := .branch ⟨.plain "c", "spin", "last"⟩
               preds := [⟨4⟩, ⟨6⟩], succs := [⟨6⟩, ⟨7⟩] },
        some { id := ⟨6⟩, kind := .branch ⟨.plain "d", "out", "out"⟩
               preds := [⟨7⟩], succs := [⟨8⟩, ⟨9⟩] },
        some { id := ⟨7⟩, kind := .empty, succs := [⟨10⟩] }]
      edges := #[some ⟨⟨0⟩, ⟨2⟩, .always⟩, some ⟨⟨2⟩, ⟨3⟩, .onTrue⟩, some ⟨⟨2⟩, ⟨4⟩, .onFalse⟩,
        some ⟨⟨3⟩, ⟨4⟩, .onTrue⟩, some ⟨⟨3⟩, ⟨5⟩, .onFalse⟩, some ⟨⟨4⟩, ⟨3⟩, .always⟩,
        some ⟨⟨5⟩, ⟨5⟩, .onTrue⟩, some ⟨⟨5⟩, ⟨6⟩, .onFalse⟩, some ⟨⟨6⟩, ⟨1⟩, .onTrue⟩,
        some ⟨⟨6⟩, ⟨1⟩, .onFalse⟩, some ⟨⟨7⟩, ⟨3⟩, .always⟩] }
  -- out of date: it takes the last block for reachable
  dominance := some
    { postorder := [⟨7⟩, ⟨0⟩]
      idom := #[none, none, none, none, none, none, none, some ⟨0⟩]
      frontier := #[[], [], [], [], [], [], [], [⟨3⟩]] }

theorem tangle_tellsDominators : tangle.graph.WellFormed ∧
    ∃ d r', tangle.refreshDominance.outcome = .ok (d, r') ∧ r'.graph = tangle.graph ∧
      r'.TellsDominators :=
  ⟨by decide, refreshDominance_tellsDominators tangle (by decide)⟩

/-- **Frontiers are exact**: after the computation the frontier of a reachable block is what the
routes of the graph make it, and that of any other block is empty, whatever was known of it. -/
theorem refreshDominance_tellsFrontiers (r : Routine) (hg : r.graph.WellFormed) :
    ∃ d r', r.refreshDominance.outcome = .ok (d, r') ∧ r'.graph = r.graph ∧
      ∀ x block, r.graph.block? x = some block →
        ∃ ys, r'.frontier x = .ok ys ∧
          (r.graph.Reachable x → ∀ y, y ∈ ys ↔ r.graph.InFrontier x y) ∧
          (¬ r.graph.Reachable x → ys = []) := by
  obtain ⟨d, hok, hd⟩ := refreshDominance_spec hg
  refine ⟨d, _, hok, rfl, fun x block hx => ⟨d.frontierOf x, ?_, fun hr y => ?_, fun hn => ?_⟩⟩
  · exact Dominance.frontierIn_of_live hx
  · rw [hd.mem_frontierOf]
    exact and_iff_right hr
  · exact List.eq_nil_iff_forall_not_mem.mpr fun y hy => hn (hd.mem_frontierOf.mp hy).1

theorem tangle_tellsFrontiers : tangle.graph.WellFormed ∧
    tangle.frontier ⟨7⟩ = .ok [⟨3⟩] ∧
    ∃ d r', tangle.refreshDominance.outcome = .ok (d, r') ∧ r'.graph = tangle.graph ∧
      ∀ x block, tangle.graph.block? x = some block →
        ∃ ys, r'.frontier x = .ok ys ∧
          (tangle.graph.Reachable x → ∀ y, y ∈ ys ↔ tangle.graph.InFrontier x y) ∧
          (¬ tangle.graph.Reachable x → ys = []) :=
  ⟨by decide, rfl, refreshDominance_tellsFrontiers tangle (by decide)⟩

end Routine
end FlowGraph
