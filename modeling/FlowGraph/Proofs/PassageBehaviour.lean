import FlowGraph.Passage
import FlowGraph.Proofs.LayingOut
import FlowGraph.Proofs.RoundTrip

/-! # A passage keeps the behaviour of a procedure

Every stage succeeds on what the stage before it gives, and keeps the behaviour: the graph is built,
tidied, taken through single assignment form and back if asked to, and laid out.  What is printed
and drawn on the way changes nothing.
-/
namespace FlowGraph

/-- **No two variables of a procedure share a base name.** -/
def Procedure.NamesApart (p : Procedure) : Prop :=
  ∀ v ∈ p.occurrences, ∀ w ∈ p.occurrences, v.name = w.name → v = w

instance (p : Procedure) : Decidable p.NamesApart :=
  inferInstanceAs (Decidable (∀ v ∈ p.occurrences, ∀ w ∈ p.occurrences, v.name = w.name → v = w))

/-! ### No run is lost -/

/-- In a well-formed graph control has somewhere to go on. -/
theorem Graph.WellFormed.not_lost {g : Graph} (hg : g.WellFormed) {V : Type} {I : Interpretation V}
    {n : Nat} {b : BlockId} {k : Kind} (hk : g.kind? b = some k) {m m' : Memory V} :
    steps (g.system I).next n ⟨.here b, m⟩ ≠ some ⟨.ended .lost, m'⟩ := by
  intro hlost
  have hmoves : ∀ {b m t m'}, (∃ k, g.kind? b = some k) → g.move I b m = ⟨.here t, m'⟩ →
      ∃ k, g.kind? t = some k := by
    rintro b m t m' ⟨k, hk⟩ hmove
    rcases hg.move_cases hk m with h | h | ⟨t', k', u, hk', h⟩
    · cases h.symm.trans hmove
    · cases h.symm.trans hmove
    · cases h.symm.trans hmove
      exact ⟨k', hk'⟩
  obtain ⟨i, c, u, ⟨k', hk'⟩, -, hlast⟩ := System.exists_last (S := g.system I) hmoves ⟨k, hk⟩ hlost
  have hover : g.move I c u = ⟨.ended .lost, m'⟩ := hlast
  rcases hg.move_cases hk' u with h | h | ⟨t, k'', u', -, h⟩
  · cases h.symm.trans hover
  · cases h.symm.trans hover
  · cases h.symm.trans hover

namespace Passage

/-! ### What is shown on the way -/

theorem announce_eq_ok (o : Options) (stage : String) : (announce o stage).outcome = .ok () := by
  rw [announce]
  split
  · rfl
  · rfl

theorem present_eq_ok (o : Options) {r : Routine} (hg : r.graph.Listed) (stage : String) :
    ∃ drawings r', (present o r stage).outcome = .ok (drawings, r') ∧ r'.graph = r.graph ∧
      r'.names = r.names := by
  obtain ⟨w, r', hweb, hgraph, hnames⟩ : ∃ w r', r.needWeb.outcome = .ok (w, r') ∧
      r'.graph = r.graph ∧ r'.names = r.names := by
    rw [Routine.needWeb]
    split
    · exact ⟨_, r, rfl, rfl, rfl⟩
    · exact ⟨_, _, rfl, rfl, rfl⟩
  have hlive : r'.graph.demandLive r'.graph.blockIds = .ok () := by
    rw [hgraph]
    exact Graph.demandLive_eq_ok fun b => hg.mem_blockIds.mp
  obtain ⟨verbose, ssa, draw⟩ := o
  cases draw with
  | false =>
    refine ⟨[], r, ?_, rfl, rfl⟩
    cases verbose with
    | false => rfl
    | true => exact Run.outcome_liftM_bind hg.demandListed_eq_ok _
  | true =>
    refine ⟨[r'.graph.drawing stage (Drawing.defUse w)], r', ?_, hgraph, hnames⟩
    have hdrawn : (r.needWeb >>= fun s =>
        (liftM (s.2.graph.demandLive s.2.graph.blockIds) : Run Unit) >>= fun _ =>
          pure ([s.2.graph.drawing stage (Drawing.defUse s.1)], s.2)).outcome =
        .ok ([r'.graph.drawing stage (Drawing.defUse w)], r') :=
      (Run.outcome_bind_of_ok hweb _).trans (Run.outcome_liftM_bind hlive _)
    cases verbose with
    | false => exact hdrawn
    | true => exact (Run.outcome_liftM_bind hg.demandListed_eq_ok _).trans hdrawn

/-! ### The stages -/

/-- **What a stage hands on**: a graph that can be laid out. -/
structure Layable (g : Graph) : Prop where
  wellFormed : g.WellFormed
  straight : g.Straight
  phiFree : g.PhiFree

theorem layable_of_ofProcedure {p : Procedure} {r : Routine}
    (h : (Routine.ofProcedure p).outcome = .ok r) :
    Graph.ofProcedure p = .ok r.graph ∧ Layable r.graph := by
  simp only [Routine.ofProcedure, Run.outcome_bind, Run.outcome_liftM, Run.outcome_report,
    Graph.bind_eq_ok] at h
  obtain ⟨g, hg, -, -, ⟨⟩, hconsistent, h⟩ := h
  cases h
  have hwired : g.Wired := by
    refine Graph.checkWiring_iff.mp ?_
    rw [Graph.demandConsistent] at hconsistent
    split at hconsistent
    · assumption
    · cases hconsistent
  exact ⟨hg, Graph.wellFormed_of_ofProcedure hg hwired, Graph.straight_of_ofProcedure hg,
    Graph.phiFree_of_ofProcedure hg⟩

/-- The way through single assignment form is its two conversions, with the graph shown after each.
-/
theorem outcome_throughSsa (o : Options) {r r₁ r₂ r₃ r₄ : Routine} {inside outside : List String}
    (hto : r.toSsa.outcome = .ok r₁)
    (hinside : (present o r₁ "in SSA form").outcome = .ok (inside, r₂))
    (hback : r₂.outOfSsa.outcome = .ok r₃)
    (houtside : (present o r₃ "out of SSA form").outcome = .ok (outside, r₄)) :
    (throughSsa o r).outcome = .ok (inside ++ outside, r₄) := by
  refine (Run.outcome_bind_of_ok (announce_eq_ok o _) _).trans ?_
  refine (Run.outcome_bind_of_ok hto _).trans ?_
  refine (Run.outcome_bind_of_ok hinside _).trans ?_
  refine (Run.outcome_bind_of_ok (announce_eq_ok o _) _).trans ?_
  refine (Run.outcome_bind_of_ok hback _).trans ?_
  exact Run.outcome_bind_of_ok houtside _

/-- **Through single assignment form and back.** -/
theorem throughSsa_behaves (o : Options) {r : Routine} (h : Layable r.graph)
    (hn : r.graph.NamesApart) :
    ∃ drawings r', (throughSsa o r).outcome = .ok (drawings, r') ∧ Layable r'.graph ∧
      ∀ {V : Type} (I : Interpretation V) (σ σ' : Store V),
        (∀ v, r.graph.Occurs v → σ' (.versioned v.name 0) = σ v) →
        System.SameBehaviour (r.graph.system I) (r'.graph.system I) ⟨.here Graph.entry, ⟨σ, []⟩⟩
          ⟨.here Graph.entry, ⟨σ', []⟩⟩ := by
  obtain ⟨r₁, hto, hg₁, hs₁, hphis, hold, hinto⟩ :=
    r.toSsa_behaves h.wellFormed h.phiFree h.straight hn
  obtain ⟨ds₁, r₂, hpresent₁, hgraph₁, hnames₁⟩ := present_eq_ok o hg₁.listed "in SSA form"
  rw [← hgraph₁] at hg₁ hs₁ hphis hold hinto
  rw [← hnames₁] at hold
  obtain ⟨r₃, hout, hg₃, hs₃, hp₃, hback⟩ := r₂.outOfSsa_behaves hg₁ hs₁ hphis hold
  obtain ⟨ds₂, r₄, hpresent₂, hgraph₂, -⟩ := present_eq_ok o hg₃.listed "out of SSA form"
  rw [← hgraph₂] at hg₃ hs₃ hp₃ hback
  refine ⟨ds₁ ++ ds₂, r₄, ?_, ⟨hg₃, hs₃, hp₃⟩, fun I σ σ' hσ => ?_⟩
  · exact outcome_throughSsa o hto hpresent₁ hout hpresent₂
  · exact (hinto I σ σ' hσ).trans (hback I ⟨σ', []⟩)

/-- **The stores to start from**: through single assignment form, version 0 of a variable has the
value of the variable. -/
def Starts {V : Type} (o : Options) (p : Procedure) (σ σ' : Store V) : Prop :=
  if o.ssa then ∀ v ∈ p.occurrences, σ' (.versioned v.name 0) = σ v else σ' = σ

theorem convert_behaves (o : Options) {p : Procedure} {r : Routine} (h : Layable r.graph)
    (hn : o.ssa = true → r.graph.NamesApart) (hocc : ∀ v, r.graph.Occurs v → v ∈ p.occurrences) :
    ∃ drawings r', (convert o r).outcome = .ok (drawings, r') ∧ Layable r'.graph ∧
      ∀ {V : Type} (I : Interpretation V) (σ σ' : Store V), Starts o p σ σ' →
        System.SameBehaviour (r.graph.system I) (r'.graph.system I) ⟨.here Graph.entry, ⟨σ, []⟩⟩
          ⟨.here Graph.entry, ⟨σ', []⟩⟩ := by
  rw [convert]
  cases hssa : o.ssa with
  | true =>
    obtain ⟨ds, r', hok, hlayable, hbehaves⟩ := throughSsa_behaves o h (hn hssa)
    refine ⟨ds, r', hok, hlayable, fun I σ σ' hσ => hbehaves I σ σ' fun v hv => ?_⟩
    rw [Starts, hssa, if_pos rfl] at hσ
    exact hσ v (hocc v hv)
  | false =>
    refine ⟨[], r, rfl, h, fun I σ σ' hσ => ?_⟩
    rw [Starts, hssa, if_neg Bool.false_ne_true] at hσ
    subst hσ
    exact .refl _

/-- **A passage keeps the behaviour of a procedure.**  It succeeds on every procedure that has a
graph; through single assignment form, on condition that no two variables share a base name.
Whatever the names in it stand for and whatever the variables are at the start, the procedure that
it gives ends as the one before does, or goes on for ever as it does, and shows the same.  Neither
is ever lost. -/
theorem run_behaviour (o : Options) (p : Procedure) {r : Routine}
    (hbuilt : (Routine.ofProcedure p).outcome = .ok r) (hnames : o.ssa = true → p.NamesApart) :
    ∃ out, (run o p).outcome = .ok out ∧
      ∀ {V : Type} (I : Interpretation V) (σ σ' : Store V), Starts o p σ σ' →
        System.SameBehaviour (Layout.system I p.statements)
          (Layout.system I out.procedure.statements) ⟨.here p.statements, ⟨σ, []⟩⟩
          ⟨.here out.procedure.statements, ⟨σ', []⟩⟩ ∧
        ∀ shown,
          ¬ (Layout.system I p.statements).Ends ⟨.here p.statements, ⟨σ, []⟩⟩ .lost shown := by
  obtain ⟨hgraph, hlayable⟩ := layable_of_ofProcedure hbuilt
  obtain ⟨ds₁, r₁, hpresent₁, hgraph₁, -⟩ := present_eq_ok o hlayable.wellFormed.listed "built"
  rw [← hgraph₁] at hgraph hlayable
  obtain ⟨count, g, htidy, htidies⟩ := r₁.tidy_spec hlayable.wellFormed hlayable.phiFree
  obtain ⟨ds₂, r₂, hpresent₂, (hgraph₂ : r₂.graph = g), -⟩ :=
    present_eq_ok o (r := r₁.withGraph g) htidies.wellFormed.listed "tidied"
  have hocc : ∀ v, r₂.graph.Occurs v → v ∈ p.occurrences := fun v hv =>
    Graph.mem_occurrences_of_ofProcedure hgraph (htidies.occurs (hgraph₂ ▸ hv))
  have hlayable₂ : Layable r₂.graph := by
    rw [hgraph₂]
    exact ⟨htidies.wellFormed, htidies.straight hlayable.straight, htidies.phiFree⟩
  obtain ⟨ds₃, r₃, hconverted, hlayable₃, hconvert⟩ := convert_behaves o hlayable₂
    (fun hssa v w hv hw => hnames hssa v (hocc v hv) w (hocc w hw)) hocc
  obtain ⟨ss, hlayOut, hlaid⟩ :=
    hlayable₃.wellFormed.layOut_behaves hlayable₃.straight hlayable₃.phiFree
  refine ⟨⟨⟨r₃.graph.name, ss⟩, ds₁ ++ ds₂ ++ ds₃⟩, ?_, fun I σ σ' hσ =>
    ⟨?_, fun shown hlost => ?_⟩⟩
  · -- The run is the stages in turn.
    refine (Run.outcome_bind_of_ok (Run.outcome_report _) _).trans ?_
    refine (Run.outcome_bind_of_ok (announce_eq_ok o _) _).trans ?_
    refine (Run.outcome_bind_of_ok hbuilt _).trans ?_
    refine (Run.outcome_bind_of_ok hpresent₁ _).trans ?_
    refine (Run.outcome_bind_of_ok (announce_eq_ok o _) _).trans ?_
    refine (Run.outcome_bind_of_ok htidy _).trans ?_
    refine (Run.outcome_bind_of_ok hpresent₂ _).trans ?_
    refine (Run.outcome_bind_of_ok hconverted _).trans ?_
    refine (Run.outcome_bind_of_ok (announce_eq_ok o _) _).trans ?_
    refine (Run.outcome_bind_of_ok hlayOut _).trans ?_
    cases o.verbose <;> rfl
  · have hbuild := Graph.sameBehaviour_of_ofProcedure hgraph hlayable.wellFormed I ⟨σ, []⟩
    have htidied := hbuild.trans (htidies.behaves I ⟨σ, []⟩)
    exact (htidied.trans (hgraph₂ ▸ hconvert I σ σ' hσ)).trans (hlaid I ⟨σ', []⟩)
  · -- A run of the procedure that is lost would be lost in its graph.
    have hbuild := Graph.sameBehaviour_of_ofProcedure hgraph hlayable.wellFormed I ⟨σ, []⟩
    obtain ⟨n, m, hsteps, -⟩ := (hbuild.ends_iff .lost shown).mp hlost
    exact hlayable.wellFormed.not_lost hlayable.wellFormed.wired.entry_kind hsteps

/-- A loop that swaps two variables at every turn, with a statement out of reach. -/
def swapLoop : Procedure where
  name := "swapLoop"
  statements := [
    .assign (.plain "i") false (.call "read" []),
    .label "top",
    .branch ⟨.plain "i", "more", "done"⟩,
    .label "more",
    .assign (.plain "t") false (.var (.plain "i")),
    .assign (.plain "i") false (.unary "dec" (.var (.plain "j"))),
    .assign (.plain "j") false (.var (.plain "t")),
    .goto "top",
    .eval (.var (.plain "k")),
    .label "done",
    .ret (.var (.plain "j"))]

theorem swapLoop_behaviour :
    swapLoop.NamesApart ∧ ∃ r, (Routine.ofProcedure swapLoop).outcome = .ok r ∧
      ∃ out, (run ⟨false, true, false⟩ swapLoop).outcome = .ok out ∧
        System.SameBehaviour (Layout.system .counting swapLoop.statements)
          (Layout.system .counting out.procedure.statements)
          ⟨.here swapLoop.statements, ⟨fun _ => 3, []⟩⟩
          ⟨.here out.procedure.statements, ⟨fun v => if v.version = some 0 then 3 else 0, []⟩⟩ := by
  obtain ⟨r, hbuilt⟩ : ∃ r, (Routine.ofProcedure swapLoop).outcome = .ok r := by
    have hok : (Routine.ofProcedure swapLoop).outcome.isOk = true := by decide +kernel
    cases hbuilt : (Routine.ofProcedure swapLoop).outcome with
    | ok r => exact ⟨r, rfl⟩
    | error e =>
      rw [hbuilt] at hok
      cases hok
  have hnames : swapLoop.NamesApart := by decide
  obtain ⟨out, hok, hbehaves⟩ := run_behaviour ⟨false, true, false⟩ swapLoop hbuilt fun _ => hnames
  have hstart : Starts ⟨false, true, false⟩ swapLoop (fun _ => (3 : Int))
      fun v => if v.version = some 0 then 3 else 0 := fun _ _ => rfl
  exact ⟨hnames, r, hbuilt, out, hok, (hbehaves .counting _ _ hstart).1⟩

end Passage
end FlowGraph
