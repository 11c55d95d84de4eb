import FlowGraph.Proofs.Histories
import FlowGraph.Proofs.RoundTrip

/-! # Phi functions stay complete

A graph is complete if every phi function has an argument for each edge that enters its block, and
for no other.  Conversion into single assignment form gives such a graph, and operations other than
the conversions and batches that touch phi functions keep it (`acts_complete`).  The structural
check rejects arguments for other edges, so what is left to keep is that none is missing.
-/
namespace FlowGraph

/-- **The arguments of every phi function are those for the edges that enter its block.** -/
def Graph.Complete (g : Graph) : Prop :=
  ∀ ⦃b block⦄, g.block? b = some block → ∀ ⦃name p⦄, block.phis.get? name = some p →
    ∀ e, (∃ v, p.arg? e = some v) ↔ e ∈ block.preds

theorem Graph.Listed.complete_iff {g : Graph} (hg : g.Listed) : g.Complete ↔ g.PhisComplete := by
  constructor
  · intro h b block hb name p hp e he
    exact (h hb hp e).mpr he
  · intro h b block hb name p hp e
    refine ⟨?_, h hb hp e⟩
    rintro ⟨v, hv⟩
    exact hg.args_enter hb hp hv

namespace Routine

variable {r r' : Routine} {as : List Action}

/-- **A routine that operations can bring about**, from some procedure. -/
def Arises (r : Routine) : Prop :=
  ∃ p r₀ as, (ofProcedure p).outcome = .ok r₀ ∧ (r₀.acts as).outcome = .ok r

theorem Arises.wellFormed (h : r.Arises) : r.graph.WellFormed := by
  obtain ⟨p, r₀, as, h₀, h⟩ := h
  exact (evolves_acts (Passage.layable_of_ofProcedure h₀).2.wellFormed h).wellFormed

/-- Operations each of which is gentle when its turn comes. -/
def Gently (r : Routine) : List Action → Prop
  | [] => True
  | a :: as => a.Gentle r.graph ∧ ∀ r', (r.act a).outcome = .ok r' → r'.Gently as

instance decidableGently (r : Routine) : (as : List Action) → Decidable (r.Gently as)
  | [] => .isTrue trivial
  | a :: as =>
    match h : (r.act a).outcome with
    | .ok r' =>
      have := decidableGently r' as
      decidable_of_iff (a.Gentle r.graph ∧ r'.Gently as) (by simp [Gently, h])
    | .error _ => decidable_of_iff (a.Gentle r.graph) (by simp [Gently, h])

/-- **Gentle operations** keep phi functions complete. -/
theorem phisComplete_acts (hg : r.graph.WellFormed) (hc : r.graph.PhisComplete) (has : r.Gently as)
    (h : (r.acts as).outcome = .ok r') : r'.graph.PhisComplete := by
  induction as generalizing r with
  | nil =>
    cases h
    exact hc
  | cons a as ih =>
    obtain ⟨hgentle, hrest⟩ := has
    obtain ⟨r₁, hone, h⟩ := acts_cons.mp h
    have hkeeps := (r.ends_act hg a).ok hone
    exact ih hkeeps.wellFormed (hkeeps.complete hgentle hc) (hrest r₁ hone) h

/-- Conversion into single assignment form makes complete phi functions where there were none. -/
theorem phisComplete_toSsa (hg : r.graph.WellFormed) (hfree : r.graph.PhiFree)
    (h : r.toSsa.outcome = .ok r') : r'.graph.PhisComplete := by
  obtain ⟨r₁, g, stops, hok, hrestricts, hver⟩ := r.toSsa_spec hg hfree
  rw [hok] at h
  cases h
  obtain ⟨hwf, -, hreached⟩ := hg.restricts_unreachable hrestricts
  exact hver.phisComplete hwf hreached

/-- With complete phi functions the conversion out of single assignment form succeeds. -/
theorem exists_outOfSsa (hg : r.graph.WellFormed) (hc : r.graph.PhisComplete) :
    ∃ r', r.outOfSsa.outcome = .ok r' := by
  have hends : r.outOfSsa.Ends (fun r' => r.graph.Evolves r'.graph) fun _ => False := by
    refine r.ends_outOfSsa hg fun {b block} hb e he {name p} hp hnone => ?_
    obtain ⟨v, hv⟩ := hc hb hp e he
    rw [hnone] at hv
    cases hv
  obtain ⟨r', hok, -⟩ := hends.exists_ok
  exact ⟨r', hok⟩

/-- **Phi functions stay complete**: from a complete graph that operations can bring about, in
particular from the result of conversion into single assignment form of one without phi functions,
any number of gentle operations lead to a complete graph.  So conversion out of single assignment
form finds every argument it asks for. -/
theorem acts_complete
    (hstart : r.Arises ∧ r.graph.Complete ∨
      ∃ r₀ : Routine, r₀.Arises ∧ r₀.graph.PhiFree ∧ r₀.toSsa.outcome = .ok r)
    (has : r.Gently as) (h : (r.acts as).outcome = .ok r') :
    r'.graph.Complete ∧ ∃ r'', r'.outOfSsa.outcome = .ok r'' := by
  have hr : r.graph.WellFormed ∧ r.graph.PhisComplete := by
    rcases hstart with ⟨hr, hc⟩ | ⟨r₀, hr₀, hfree, hto⟩
    · exact ⟨hr.wellFormed, hr.wellFormed.listed.complete_iff.mp hc⟩
    · have hg := ((r₀.ends_act hr₀.wellFormed .toSsa).ok hto).wellFormed
      exact ⟨hg, phisComplete_toSsa hr₀.wellFormed hfree hto⟩
  have hg' := (evolves_acts hr.1 h).wellFormed
  have hc' := phisComplete_acts hr.1 hr.2 has h
  exact ⟨hg'.listed.complete_iff.mpr hc', exists_outOfSsa hg' hc'⟩

/-- Operations that lead edges with phi arguments elsewhere. -/
def tuning : List Action := [
  .putBetween ⟨2⟩ ⟨3⟩ .empty,
  .replace ⟨7⟩ [.block .empty, .itself],
  .batch [.addBlock .empty, .addEdge ⟨15⟩ ⟨11⟩, .removeEdge ⟨3⟩, .removeEdge ⟨4⟩,
    .addConditionalEdges ⟨4⟩ ⟨5⟩ ⟨15⟩],
  .replace ⟨3⟩ [],
  .tidy]

theorem tuning_complete : ∃ r₀ r r' : Routine,
    r₀.Arises ∧ r₀.graph.PhiFree ∧ r₀.toSsa.outcome = .ok r ∧ r.Gently tuning ∧
      (r.acts tuning).outcome = .ok r' ∧ (r'.graph.phi? ⟨4⟩ "i").isSome = true ∧ r'.graph.Complete ∧
      ∃ r'', r'.outOfSsa.outcome = .ok r'' := by
  have hrun : ((ofProcedure Passage.swapLoop).outcome.toOption.any fun r₀ =>
      r₀.toSsa.outcome.toOption.any fun r => decide (r.Gently tuning) &&
        (r.acts tuning).outcome.toOption.any fun r' => (r'.graph.phi? ⟨4⟩ "i").isSome) = true := by
    decide +kernel
  obtain ⟨r₀, h₀, hrun⟩ := Run.exists_ok_of_any hrun
  obtain ⟨r, hto, hrun⟩ := Run.exists_ok_of_any hrun
  obtain ⟨hgently, hrun⟩ := Bool.and_eq_true_iff.mp hrun
  obtain ⟨r', h, hphi⟩ := Run.exists_ok_of_any hrun
  have hgently := of_decide_eq_true hgently
  have harises : r₀.Arises := ⟨Passage.swapLoop, r₀, [], h₀, rfl⟩
  have hfree := (Passage.layable_of_ofProcedure h₀).2.phiFree
  exact ⟨r₀, r, r', harises, hfree, hto, hgently, h, hphi,
    acts_complete (.inr ⟨r₀, harises, hfree, hto⟩) hgently h⟩

end Routine
end FlowGraph
