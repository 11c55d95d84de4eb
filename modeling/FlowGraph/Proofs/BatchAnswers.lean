import FlowGraph.Proofs.Completeness
import FlowGraph.Proofs.Erasure

/-! # Answers in the middle of a batch

While a batch runs, a routine keeps what it knew when the batch began.  If it knew no dominators
then, it declines to answer about them.  If it did, its answers are those for the graph with which
the batch began (`Recalls`), wherever the blocks that it looks at are still in use.

Dominance depends on nothing but where the blocks lead that can be reached.  So the answers are
right for the graph as it has become, too, while these lead where they led (`SameWays`).  Afterwards
they need not be: a batch that puts a block between the entry and the exit is told, before it is
over, that the entry still dominates the exit immediately.
-/
namespace FlowGraph
namespace Graph

variable {g g' : Graph}

/-! ### Graphs with the same routes -/

/-- **Every block that can be reached leads where it leads in the other graph.** -/
def SameWays (g g' : Graph) : Prop := ∀ a b, g.Reachable a → (g'.Leads a b ↔ g.Leads a b)

/-- A new edge from a block that cannot be reached is on no route. -/
theorem sameWays_of_push {edge : Edge} (hsource : ¬ g.Reachable edge.source)
    (h : g'.edges = g.edges.push (some edge)) : g.SameWays g' := by
  intro a b ha
  have hedge : ∀ e, g'.edge? e = if e.slot = g.edges.size then some edge else g.edge? e := by
    intro e
    rw [edge?, edge?, h, Array.getElem?_push]
    split <;> rfl
  simp only [Leads, hedge]
  constructor
  · rintro ⟨e, d, he⟩
    split at he
    · cases he
      exact absurd ha hsource
    · exact ⟨e, d, he⟩
  · rintro ⟨e, d, he⟩
    refine ⟨e, d, ?_⟩
    rw [if_neg (fun hslot => ?_), he]
    rw [edge?, hslot, Array.getElem?_eq_none (Nat.le_refl _)] at he
    cases he

namespace SameWays

variable (h : g.SameWays g')
include h

theorem route_iff {p : List BlockId} {b : BlockId} : g'.Route p b ↔ g.Route p b := by
  constructor
  · intro hp
    induction hp with
    | start => exact .start
    | step _ hl ih => exact ih.step ((h _ _ ⟨_, ih⟩).mp hl)
  · intro hp
    induction hp with
    | start => exact .start
    | step hp hl ih => exact ih.step ((h _ _ ⟨_, hp⟩).mpr hl)

theorem reachable_iff {b : BlockId} : g'.Reachable b ↔ g.Reachable b := by
  simp only [Reachable, h.route_iff]

theorem symm : g'.SameWays g := fun a b ha => (h a b (h.reachable_iff.mp ha)).symm

theorem dominates_iff {a b : BlockId} : g'.Dominates a b ↔ g.Dominates a b := by
  simp only [Dominates, h.route_iff]

theorem immediatelyDominates_iff {a b : BlockId} :
    g'.ImmediatelyDominates a b ↔ g.ImmediatelyDominates a b := by
  have carry : ∀ {g g' : Graph}, g.SameWays g' → g.ImmediatelyDominates a b →
      g'.ImmediatelyDominates a b := fun h hi =>
    { reachable := h.reachable_iff.mpr hi.reachable
      dominates := h.dominates_iff.mpr hi.dominates
      ne := hi.ne
      closest := fun hc hne => h.dominates_iff.mpr (hi.closest (h.dominates_iff.mp hc) hne) }
  exact ⟨carry h.symm, carry h⟩

theorem inFrontier_iff {x y : BlockId} : g'.InFrontier x y ↔ g.InFrontier x y := by
  simp only [InFrontier, h.reachable_iff, h.dominates_iff]
  refine and_congr_left fun _ => exists_congr fun p => and_congr_right fun hp => ?_
  exact and_congr_right fun _ => h p y hp

end SameWays

/-- Blocks that can be reached stay in use while they lead where they led. -/
theorem SameWays.live_of_reachable (h : g.SameWays g') (hg : g.WellFormed)
    (hg' : g'.withoutPhis.Listed) {b : BlockId} (hb : g'.Reachable b) :
    ∃ block, g'.block? b = some block := by
  have live : ∀ {b}, (∃ block, g'.withoutPhis.block? b = some block) →
      ∃ block, g'.block? b = some block := by
    rintro b ⟨_, hblock⟩
    rw [block?_withoutPhis] at hblock
    obtain ⟨block, hblock, -⟩ := Option.map_eq_some_iff.mp hblock
    exact ⟨block, hblock⟩
  by_cases hne : b = entry
  · subst hne
    obtain ⟨e, t, he⟩ := (hg.wired.ways hg.wired.entry_kind nofun .always).mpr (by decide)
    obtain ⟨e', d, he'⟩ := (h _ _ .entry).mpr ⟨e, _, he⟩
    exact live (hg'.source_live (e := e') he')
  · obtain ⟨a, -, e, d, he⟩ := hb.pred hne
    exact live (hg'.target_live (e := e) he)

end Graph

/-! ### Answers for another graph -/

namespace Routine

variable {r r' : Routine} {d : Dominance} {g : Graph}

/-- **Every question about dominance is declined**, because nothing is known. -/
def Declines (r : Routine) : Prop :=
  ∀ a b, r.idom b = .error (.dominanceOutOfDate r.graph.name) ∧
    r.frontier b = .error (.dominanceOutOfDate r.graph.name) ∧
    r.idomChildren b = .error (.dominanceOutOfDate r.graph.name) ∧
    r.dominates a b = .error (.dominanceOutOfDate r.graph.name)

theorem declines_of_none (h : r.dominance = none) : r.Declines := by
  have hknown : r.knownDominance = .error (.dominanceOutOfDate r.graph.name) := by
    rw [knownDominance, h]
  intro a b
  simp only [idom, frontier, idomChildren, dominates, hknown]
  exact ⟨rfl, rfl, rfl, rfl⟩

/-- **The answers are those for a graph**, which may be another than that of the routine. -/
structure Recalls (r : Routine) (g : Graph) : Prop where
  /-- A block in use has the immediate dominator that it has in `g`, if it has one there. -/
  idom : ∀ {b block}, r.graph.block? b = some block →
    ∃ a?, r.idom b = .ok a? ∧ ∀ a, a? = some a ↔ g.ImmediatelyDominates a b
  frontier : ∀ {b block}, r.graph.block? b = some block →
    ∃ ys, r.frontier b = .ok ys ∧ ∀ y, y ∈ ys ↔ g.Reachable b ∧ g.InFrontier b y
  /-- A block that is not in use is refused. -/
  stale : ∀ {b}, r.graph.block? b = none → r.idom b = .error (.violation (.staleBlock b)) ∧
    r.frontier b = .error (.violation (.staleBlock b))
  children : ∀ b, ∃ cs, r.idomChildren b = .ok cs ∧ (∀ c, c ∈ cs ↔ g.ImmediatelyDominates b c) ∧
    cs.Pairwise fun c c' => c.slot < c'.slot
  /-- What dominates a block that can be reached in `g` is told, unless one of its dominators there
  is not in use any more. -/
  dominates : ∀ {a b}, g.Reachable b →
    (∃ t, r.dominates a b = .ok t ∧ (t = true ↔ g.Dominates a b)) ∨
      ∃ c, g.Dominates c b ∧ r.graph.block? c = none ∧
        r.dominates a b = .error (.violation (.staleBlock c))
  /-- Any other block is said to be dominated by itself alone. -/
  dominates_unreachable : ∀ {a b block}, r.graph.block? b = some block → ¬ g.Reachable b →
    r.dominates a b = .ok (decide (b = a))

theorem recalls_of_describes (hg : g.WellFormed) (h : r.dominance = some d) (hd : d.Describes g) :
    r.Recalls g where
  idom hb := by
    refine ⟨d.parent? _, ?_, fun a => hd.parent?_iff⟩
    rw [Routine.idom, knownDominance_eq h]
    exact Dominance.idomIn_of_live hb
  frontier hb := by
    refine ⟨d.frontierOf _, ?_, fun y => hd.mem_frontierOf⟩
    rw [Routine.frontier, knownDominance_eq h]
    exact Dominance.frontierIn_of_live hb
  stale hb := by
    rw [Routine.idom, Routine.frontier, knownDominance_eq h]
    exact ⟨Dominance.idomIn_of_stale hb, Dominance.frontierIn_of_stale hb⟩
  children b := by
    refine ⟨d.children b, by rw [idomChildren, knownDominance_eq h]; rfl, fun c => ?_,
      d.sorted_children b⟩
    rw [← hd.parent?_iff]
    exact Dominance.mem_childrenIn
  dominates {a b} hb := by
    rw [Routine.dominates, knownDominance_eq h]
    apply hd.climb_elsewhere hg r.graph hb
    have hplace := Dominance.place_lt hg hb
    have hlen := Dominance.length_order_le hg
    have hsize := hd.size_eq
    omega
  dominates_unreachable {a b block} hb hn := by
    rw [Routine.dominates, knownDominance_eq h]
    show d.climb r.graph a (d.idom.size + 1) b = _
    rw [Dominance.climb, Dominance.idomIn_of_live hb, hd.parent?_of_not_reachable hn]
    by_cases hba : b = a
    · rw [if_pos hba, decide_eq_true hba]
    · rw [if_neg hba, decide_eq_false hba]
      rfl

/-- Graphs with the same routes are not told apart. -/
theorem Recalls.of_sameWays {g' : Graph} (hr : r.Recalls g) (h : g.SameWays g') : r.Recalls g' where
  idom hb := by simpa only [h.immediatelyDominates_iff] using hr.idom hb
  frontier hb := by simpa only [h.reachable_iff, h.inFrontier_iff] using hr.frontier hb
  stale := hr.stale
  children b := by simpa only [h.immediatelyDominates_iff] using hr.children b
  dominates hb := by simpa only [h.dominates_iff] using hr.dominates (h.reachable_iff.mp hb)
  dominates_unreachable hb hn := hr.dominates_unreachable hb (mt h.reachable_iff.mpr hn)

/-! ### Batches -/

/-- The steps of a batch change nothing but the graph. -/
theorem ends_performAll_dominance (r : Routine) (steps : List Graph.Step) :
    (r.performAll steps).Ends (fun x => x.2.dominance = r.dominance) fun _ => True := by
  induction steps generalizing r with
  | nil => exact .pure rfl
  | cons s rest ih =>
    have hone : (r.perform s).Ends (fun x => x.2.dominance = r.dominance) fun _ => True :=
      (ends_any _).bind fun x _ => .pure rfl
    exact hone.bind fun x hx => (ih x.2).bind fun y hy => .pure (hy.trans hx)

/-- Nothing is known when a batch is over. -/
theorem declines_runBatch (r : Routine) (steps : List Graph.Step) :
    (r.runBatch steps).Ends (fun x => x.2.Declines) fun _ => True := by
  refine (ends_any _).bind fun x _ => ?_
  have hsettle : (x.2.settle x.2.graph).Ends Declines fun _ => True :=
    x.2.ends_settle (fun _ => declines_of_none rfl) fun _ => trivial
  exact hsettle.bind fun r' h => .pure h

theorem Arises.fresh (h : r.Arises) : r.Fresh := by
  obtain ⟨p, r₀, as, h₀, has⟩ := h
  exact fresh_acts (Passage.layable_of_ofProcedure h₀).2.wellFormed
    ((fresh_ofProcedure p).ok h₀) has

/-- **A batch is answered for the graph with which it began.**  At every point of a batch, a routine
that knew no dominators when the batch began declines every question about them.  One that did gives
the answers for the graph of that moment.  While every block that can be reached leads where it led
then, they are the answers for the graph as it has become, and all blocks that can be reached there
are in use.  When the batch is over, every question is declined. -/
theorem performAll_recalls {front : List Graph.Step} {results : List Graph.StepResult}
    (hr : r.Arises) (h : (r.performAll front).outcome = .ok (results, r')) :
    (r.dominance = none → r'.Declines) ∧
    (r.dominance ≠ none → r'.Recalls r.graph ∧
      (r.graph.SameWays r'.graph → r'.Recalls r'.graph ∧
        ∀ b, r'.graph.Reachable b → ∃ block, r'.graph.block? b = some block)) ∧
    ∀ rest results' r'', (r.runBatch (front ++ rest)).outcome = .ok (results', r'') →
    r''.Declines := by
  have hg : r.graph.WellFormed := hr.wellFormed
  have hsame : r'.dominance = r.dominance := (r.ends_performAll_dominance front).ok h
  refine ⟨fun hnone => declines_of_none (hsame.trans hnone), fun hsome => ?_,
    fun rest results' r'' h'' => (r.declines_runBatch _).ok h''⟩
  obtain ⟨d, hd⟩ := Option.ne_none_iff_exists'.mp hsome
  obtain ⟨d', hok, hdescribes⟩ := Dominance.ofGraph_spec hg
  cases hok.symm.trans (hr.fresh.dominance d hd)
  have hrecalls : r'.Recalls r.graph := recalls_of_describes hg (hsame.trans hd) hdescribes
  refine ⟨hrecalls, fun hleads => ⟨hrecalls.of_sameWays hleads, fun b hb => ?_⟩⟩
  have hstart : r.graph.performs [] = .ok r.graph := rfl
  have hsteps : r.graph.performs front = .ok r'.graph :=
    (ends_performAll hg.listed hstart front).ok h
  exact hleads.live_of_reachable hg
    ((Graph.edits_of_performs hsteps).listed hg.listed.withoutPhis) hb

/-- A new block with an edge to the head of the loop, and a phi function there that needs it. -/
def annex : List Graph.Step := [
  .addBlock .empty,
  .addEdge ⟨13⟩ ⟨3⟩,
  .addPhi ⟨3⟩ (.plain "k"),
  .setPhiArg ⟨3⟩ (.plain "k") ⟨13⟩ (.plain "t")]

theorem performAll_recalls_annex :
    (∃ (r r' : Routine) (results : List Graph.StepResult),
      r.Arises ∧ r.dominance ≠ none ∧ (r.performAll annex).outcome = .ok (results, r') ∧
        r.graph.SameWays r'.graph ∧ r'.graph.targets ⟨13⟩ = [⟨3⟩] ∧ r'.Recalls r'.graph) ∧
    ∃ (r r' : Routine) (results : List Graph.StepResult),
      r.Arises ∧ r.dominance = none ∧ (r.performAll annex).outcome = .ok (results, r') ∧
      r'.Declines := by
  have hstart : ((ofProcedure Passage.swapLoop).outcome.toOption.any fun r₀ =>
      (r₀.performAll annex).outcome.toOption.any fun _ => decide (r₀.dominance = none)) = true := by
    decide +kernel
  have hlater : ((ofProcedure Passage.swapLoop).outcome.toOption.any fun r₀ =>
      (r₀.acts [.toSsa]).outcome.toOption.any fun r =>
        (r.performAll annex).outcome.toOption.any fun x =>
          decide (r.dominance ≠ none ∧ r.graph.block? ⟨13⟩ = none ∧
            x.2.graph.edges = r.graph.edges.push (some ⟨⟨13⟩, ⟨3⟩, .always⟩) ∧
              x.2.graph.targets ⟨13⟩ = [⟨3⟩])) = true := by
    decide +kernel
  constructor
  · obtain ⟨r₀, h₀, hlater⟩ := Run.exists_ok_of_any hlater
    obtain ⟨r, has, hlater⟩ := Run.exists_ok_of_any hlater
    obtain ⟨⟨results, r'⟩, h, hlater⟩ := Run.exists_ok_of_any hlater
    obtain ⟨hsome, hnew, hedges, htargets⟩ := of_decide_eq_true hlater
    have hr : r.Arises := ⟨_, r₀, _, h₀, has⟩
    have hways : r.graph.SameWays r'.graph := by
      refine Graph.sameWays_of_push (fun hreached => ?_) hedges
      obtain ⟨block, hb⟩ := hr.wellFormed.live_of_reachable hreached
      cases hnew.symm.trans hb
    exact ⟨r, r', results, hr, hsome, h, hways, htargets,
      (((performAll_recalls hr h).2.1 hsome).2 hways).1⟩
  · obtain ⟨r₀, h₀, hstart⟩ := Run.exists_ok_of_any hstart
    obtain ⟨⟨results, r'⟩, h, hnone⟩ := Run.exists_ok_of_any hstart
    have hr : r₀.Arises := ⟨_, r₀, [], h₀, rfl⟩
    have hnone := of_decide_eq_true hnone
    exact ⟨r₀, r', results, hr, hnone, h, (performAll_recalls hr h).1 hnone⟩

/-- A procedure that does nothing. -/
def idle : Procedure := ⟨"f", []⟩

/-- A new block between the entry and the exit. -/
def detour : List Graph.Step :=
  [.addBlock .empty, .removeEdge ⟨0⟩, .addEdge ⟨0⟩ ⟨2⟩, .addEdge ⟨2⟩ ⟨1⟩]

/-- **Answers can be out of date before a batch is over**: all ways to the exit lead through the new
block, and yet the entry is said to be the immediate dominator of the exit. -/
theorem detour_outOfDate :
    ∃ (r r' : Routine) (results : List Graph.StepResult),
      r.Arises ∧ (r.performAll detour).outcome = .ok (results, r') ∧
        r'.idom Graph.exit = .ok (some Graph.entry) ∧
        r'.graph.ImmediatelyDominates ⟨2⟩ Graph.exit ∧
        ¬ r'.graph.ImmediatelyDominates Graph.entry Graph.exit := by
  have hrun : ((ofProcedure idle).outcome.toOption.any fun r₀ =>
      (r₀.acts [.refreshDominance]).outcome.toOption.any fun r =>
        (r.performAll detour).outcome.toOption.any fun x =>
          decide (x.2.graph.WellFormed ∧ x.2.idom Graph.exit = .ok (some Graph.entry) ∧
            (Dominance.ofGraph x.2.graph).toOption.bind (·.parent? Graph.exit) =
            some ⟨2⟩)) = true := by
    decide +kernel
  obtain ⟨r₀, h₀, hrun⟩ := Run.exists_ok_of_any hrun
  obtain ⟨r, has, hrun⟩ := Run.exists_ok_of_any hrun
  obtain ⟨⟨results, r'⟩, h, hrun⟩ := Run.exists_ok_of_any hrun
  obtain ⟨hg, hidom, hparent⟩ := of_decide_eq_true hrun
  obtain ⟨d, hd, hdescribes⟩ := Dominance.ofGraph_spec hg
  rw [hd] at hparent
  have hnew := hdescribes.parent?_iff.mp hparent
  refine ⟨r, r', results, ⟨idle, r₀, _, h₀, has⟩, h, hidom, hnew, fun hold => ?_⟩
  exact absurd (hold.unique hnew) (by decide)

end Routine
end FlowGraph
