import FlowGraph.Proofs.Leaving
import FlowGraph.Proofs.Tidying

/-! # Through single assignment form and back

A step of a walk is a move of control, as long as no return is passed.  So what is known of the
walks before and after each conversion says that the graph behaves the same, also where it stops at
a return.

What the first conversion gives is fit for the second: every phi function has an argument for every
edge, and the supply of names knows all versions in use.
-/
namespace FlowGraph

variable {V : Type} {I : Interpretation V}

theorem Kind.isReturn_rename (use define : Var → Var) (k : Kind) :
    (k.rename use define).isReturn = k.isReturn := by
  cases k with
  | statement s => cases s <;> rfl
  | _ => rfl

theorem Kind.rename_eq_exit_iff {use define : Var → Var} {k : Kind} :
    k.rename use define = .exit ↔ k = .exit := by
  cases k <;> simp [rename]

theorem Statement.kind_rename {use define : Var → Var} {s : Statement}
    (h : s.kind = .statement s) :
    (s.rename use define).kind = .statement (s.rename use define) := by
  cases s with
  | label l => cases h
  | goto l => cases h
  | branch b => cases h
  | _ => rfl

/-- Steps of a walk that pass neither a return nor the exit are moves of control. -/
theorem Graph.steps_system {g : Graph} {n : Nat} {u w : Visit V}
    (h : steps (g.advance I) n u = some w)
    (hpass : ∀ i < n, ∀ {x k}, steps (g.advance I) i u = some x → g.kind? x.block = some k →
      k.isReturn = false ∧ k ≠ .exit) :
    steps (g.system I).next n ⟨.here u.block, u.memory⟩ = some ⟨.here w.block, w.memory⟩ := by
  induction n generalizing u with
  | zero =>
    cases h
    rfl
  | succ n ih =>
    rw [steps_succ, Option.bind_eq_some_iff] at h
    obtain ⟨v, hv, h⟩ := h
    obtain ⟨k, hk, -⟩ := Option.bind_eq_some_iff.mp hv
    obtain ⟨hret, hne⟩ := hpass 0 (Nat.succ_pos n) (x := u) rfl hk
    have hmove : g.move I u.block u.memory = ⟨.here v.block, v.memory⟩ :=
      move_advance hk hret hne hv
    have hrest := ih h fun i hi {x k} hx => hpass (i + 1) (Nat.succ_lt_succ hi) (x := x) (by
      rw [steps_succ, hv, Option.bind_some, hx])
    show steps (g.system I).next n (g.move I u.block u.memory) = _
    rw [hmove]
    exact hrest

namespace Ssa

/-! ### Into single assignment form -/

namespace Versioned

variable {g g' : Graph} {names names' : NameSupply} {stops : List Stop}
  (h : Versioned g g' names names' stops) (hg : g.WellFormed)
include h hg

theorem sameBehaviour (hp : g.PhiFree) (hn : g.NamesApart) {σ σ' : Store V}
    (hσ : ∀ v, g.Occurs v → σ' (.versioned v.name 0) = σ v) :
    System.SameBehaviour (g.system I) (g'.system I) ⟨.here Graph.entry, ⟨σ, []⟩⟩
      ⟨.here Graph.entry, ⟨σ', []⟩⟩ := by
  let R : BlockId → Memory V → BlockId → Memory V → Prop := fun b m b' m' =>
    ∃ a ∈ stops, Agrees g a ⟨b, m⟩ ⟨b', m'⟩
  have hsim : @System.Simulates V (g.system I) (g'.system I) R := by
    refine ⟨fun ⟨a, _, hagree⟩ => hagree.shown_eq.symm, ?_⟩
    rintro (b : BlockId) m (b' : BlockId) m' ⟨a, ha, hagree⟩
    obtain rfl : b = a.block := hagree.block_eq
    obtain rfl : b' = a.block := hagree.block_eq'
    obtain ⟨k, hk, hk'⟩ := h.exists_kind hg ha
    have huse : ∀ v ∈ k.uses, m'.store (a.mid.current v.name) = m.store v :=
      fun v hv => hagree.store_eq v (Graph.occurs_of_use hk hv)
    refine Graph.exists_linked hk hk' (Kind.isReturn_rename ..) Kind.rename_eq_exit_iff
      hagree.shown_eq.symm (k.shown_rename hagree.shown_eq huse).symm fun hret hne => ?_
    rcases hagree.advance h hg hp hn ha (I := I) with ⟨hnone, -⟩ | ⟨c, hc, w, w', hw, hw', hagree'⟩
    · obtain ⟨w, hw⟩ := hg.exists_advanceBy I _ (v := ⟨a.block, m⟩) hk hne
      exact absurd (hnone.symm.trans hw) nofun
    · have hmove := Graph.move_advance hk hret hne hw
      have hmove' := Graph.move_advance hk' ((Kind.isReturn_rename ..).trans hret)
        (fun hx => hne (Kind.rename_eq_exit_iff.mp hx)) hw'
      exact ⟨0, 0, _, _, congrArg some hmove, congrArg some hmove', .here ⟨c, hc, hagree'⟩⟩
  rcases walks_agree h hg hp hn (I := I) hσ 0 with ⟨hnone, -⟩ | ⟨a, ha, u, u', hu, hu', hagree⟩
  · cases hnone
  · cases hu
    cases hu'
    exact hsim.sameBehaviour (.here ⟨a, ha, hagree⟩)

/-- What single assignment form is made with is known to the supply. -/
theorem covers (hr : g.Reached) : names'.Covers g' := by
  rintro v hv ⟨n, rfl, hlt⟩
  have hpos : 0 < n := Nat.lt_of_le_of_lt (Nat.zero_le _) hlt
  obtain ⟨a, ha, hx⟩ := h.mem_out_of_occurs hg hr hpos hv
  obtain ⟨p, hp, site, hputs, -⟩ := h.exists_puts hg ha hx
  have hle := (h.gains.fresh (List.mem_flatMap.mpr ⟨p, hp, hputs.mem⟩)).2
  exact absurd hlt (Nat.not_lt_of_le hle)

omit hg in
theorem straight (hs : g.Straight) : g'.Straight := by
  intro b s hk
  by_cases hb : g.Reachable b
  · obtain ⟨a, ha, rfl⟩ := h.exists_stop hb
    rw [h.kind?_stop a ha] at hk
    obtain ⟨k, hk₀, hrename⟩ := Option.map_eq_some_iff.mp hk
    cases k with
    | statement s₀ =>
      cases hrename
      exact Statement.kind_rename (hs hk₀)
    | _ => cases hrename
  · exact hs (h.kind?_other b hb ▸ hk)

theorem phisComplete (hr : g.Reached) : g'.PhisComplete := by
  have hsingle := h.singleAssignment hg hr
  intro b block hb name p hp e he
  exact (hsingle.complete hb hp e).mpr he

end Versioned

/-! ### Out of single assignment form -/

theorem Leaves.straight {g : Graph} {names : NameSupply} {s : Leaving}
    (h : Leaves g names (fun _ => True) (fun _ => True) s) (hs : g.Straight) :
    s.graph.Straight := by
  intro b t hk
  cases hold : g.kind? b with
  | none =>
    obtain ⟨c, hc⟩ := h.inserted hk (Option.map_eq_none_iff.mp hold)
    cases hc
    rfl
  | some k =>
    rw [h.kind?_eq hold] at hk
    exact hs (hold.trans hk)

theorem Leaves.sameBehaviour {g : Graph} {names : NameSupply} {s : Leaving}
    (h : Leaves g names (fun _ => True) (fun _ => True) s) (hg : g.WellFormed)
    (hold : names.Covers g) (m : Memory V) :
    System.SameBehaviour (g.system I) (s.graph.system I) ⟨.here Graph.entry, m⟩
      ⟨.here Graph.entry, m⟩ := by
  let R : BlockId → Memory V → BlockId → Memory V → Prop := fun b m b' m' =>
    Visit.SameBut (names.HandedOut s.names) ⟨b, m⟩ ⟨b', m'⟩ ∧ ∃ block, g.block? b = some block
  have hsim : @System.Simulates V (g.system I) (s.graph.system I) R := by
    refine ⟨fun hr => hr.1.shown_eq.symm, ?_⟩
    rintro (b : BlockId) m (b' : BlockId) m' ⟨hsame, block, hb⟩
    obtain rfl : b' = b := hsame.block_eq
    have hk := Graph.kind?_of_block? hb
    have huse : ∀ v ∈ block.kind.uses, m'.store v = m.store v := fun v hv =>
      hsame.store_eq v (NameSupply.not_handedOut_of_used (hold (Graph.occurs_of_use hk hv)))
    obtain ⟨-, hshown, -⟩ := block.kind.perform_congr (I := I) hsame.shown_eq huse
    refine Graph.exists_linked hk (h.kind?_eq hk) rfl .rfl hsame.shown_eq.symm hshown.symm
      fun hret hne => ?_
    rcases h.advance (I := I) hg hold ⟨block, hb⟩ hsame with
      ⟨hnone, -⟩ | ⟨w, w', n, hw, hw', hsame', hlive, hinner⟩
    · obtain ⟨w, hw⟩ := hg.exists_advanceBy I _ (v := ⟨b', m⟩) hk hne
      exact absurd (hnone.symm.trans hw) nofun
    · -- On the way there are copies only, and none of them returns.
      have hsteps := Graph.steps_system hw' fun i hi {x k} hx hxk => by
        rcases Nat.eq_zero_or_pos i with rfl | hpos
        · cases hx
          rw [h.kind?_eq hk, Option.some.injEq] at hxk
          exact hxk ▸ ⟨hret, hne⟩
        · obtain ⟨c, rfl⟩ := h.inserted hxk (hinner i hpos hi hx)
          exact ⟨rfl, nofun⟩
      exact ⟨0, n, _, _, congrArg some (Graph.move_advance hk hret hne hw), hsteps,
        .here ⟨hsame', hlive⟩⟩
  obtain ⟨first, hfirst, -⟩ := Graph.block?_of_kind? hg.wired.entry_kind
  exact hsim.sameBehaviour (.here ⟨⟨rfl, rfl, fun _ _ => rfl⟩, first, hfirst⟩)

end Ssa

/-! ### Routines -/

namespace Routine

/-- **Single assignment form behaves like the graph before**, and the way back from it is open. -/
theorem toSsa_behaves (r : Routine) (hg : r.graph.WellFormed) (hp : r.graph.PhiFree)
    (hs : r.graph.Straight) (hn : r.graph.NamesApart) :
    ∃ r', r.toSsa.outcome = .ok r' ∧ r'.graph.WellFormed ∧ r'.graph.Straight ∧
      r'.graph.PhisComplete ∧ r'.names.Covers r'.graph ∧
      ∀ {V : Type} (I : Interpretation V) (σ σ' : Store V),
        (∀ v, r.graph.Occurs v → σ' (.versioned v.name 0) = σ v) →
        System.SameBehaviour (r.graph.system I) (r'.graph.system I) ⟨.here Graph.entry, ⟨σ, []⟩⟩
          ⟨.here Graph.entry, ⟨σ', []⟩⟩ := by
  obtain ⟨r', g, stops, hok, hres, hver⟩ := r.toSsa_spec hg hp
  have htidies := hres.tidies hg hp
  have hg₁ := htidies.wellFormed
  have hn₁ : g.NamesApart := fun v w hv hw => hn (hres.occurs hp hv) (hres.occurs hp hw)
  refine ⟨r', hok, hver.wellFormed hg₁, hver.straight (htidies.straight hs),
    hver.phisComplete hg₁ htidies.reached,
    hver.covers hg₁ htidies.reached, fun I σ σ' hσ => ?_⟩
  exact (htidies.behaves I ⟨σ, []⟩).trans
    (hver.sameBehaviour hg₁ htidies.phiFree hn₁ fun v hv => hσ v (hres.occurs hp hv))

/-- **Leaving single assignment form keeps the behaviour.** -/
theorem outOfSsa_behaves (r : Routine) (hg : r.graph.WellFormed) (hs : r.graph.Straight)
    (hphis : r.graph.PhisComplete) (hold : r.names.Covers r.graph) :
    ∃ r', r.outOfSsa.outcome = .ok r' ∧ r'.graph.WellFormed ∧ r'.graph.Straight ∧ r'.graph.PhiFree ∧
      ∀ {V : Type} (I : Interpretation V) (m : Memory V),
        System.SameBehaviour (r.graph.system I) (r'.graph.system I) ⟨.here Graph.entry, m⟩
          ⟨.here Graph.entry, m⟩ := by
  obtain ⟨s, hok, h⟩ := Ssa.leave_spec hg hphis hold
  refine ⟨Routine.withGraph { r with names := s.names } s.graph, ?_, h.wellFormed, h.straight hs,
    h.phiFree, fun I m => h.sameBehaviour hg hold m⟩
  rw [Routine.outOfSsa, Run.outcome_bind_of_ok hok]
  exact Routine.settle_spec _ h.wellFormed

end Routine
end FlowGraph
