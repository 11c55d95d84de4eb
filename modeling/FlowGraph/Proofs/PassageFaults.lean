import FlowGraph.Proofs.Construction
import FlowGraph.Proofs.PassageBehaviour

/-! # A passage fails on bad labels only

Building the graph looks for labels that are declared again and for jumps to labels that are not
declared.  Whatever gets past that goes through all stages: each hands on a graph on which the next
one succeeds, single assignment form and back included, also where variables share a base name.
-/
namespace FlowGraph

namespace Layout

/-- **The first label that is declared again.** -/
def FirstRepeated (ss : List Statement) (l : Label) : Prop :=
  ∃ front rest, ss = front ++ .label l :: rest ∧ (declared front).Nodup ∧ l ∈ declared front

/-- **The first label that is jumped to and not declared**, in the order of the jumps. -/
def FirstMissing (ss : List Statement) (l : Label) : Prop :=
  ∃ front rest, ss.flatMap Statement.targets = front ++ l :: rest ∧
    (∀ m ∈ front, m ∈ declared ss) ∧ l ∉ declared ss

theorem exists_firstMissing {ss : List Statement}
    (h : ¬ ∀ l ∈ ss.flatMap Statement.targets, l ∈ declared ss) :
    ∃ l, FirstMissing ss l ∧
      (ss.flatMap Statement.targets).find? (· ∉ declared ss) = some l := by
  cases hfind : (ss.flatMap Statement.targets).find? (· ∉ declared ss) with
  | none => exact absurd (fun l hl => by simpa using List.find?_eq_none.mp hfind l hl) h
  | some l =>
    obtain ⟨hl, front, rest, hsplit, hfront⟩ := List.find?_eq_some_iff_append.mp hfind
    exact ⟨l, ⟨front, rest, hsplit, by simpa using hfront, by simpa using hl⟩, rfl⟩

end Layout

theorem Routine.ofProcedure_of_error {p : Procedure} {f : Fault}
    (h : Graph.ofProcedure p = .error f) : (Routine.ofProcedure p).outcome = .error f := by
  rw [Routine.ofProcedure, Run.outcome_bind, Run.outcome_liftM, h]
  rfl

/-- **The routine of a procedure** is the one of its graph. -/
theorem Routine.ofProcedure_of_ok {p : Procedure} {g : Graph} (h : Graph.ofProcedure p = .ok g) :
    (Routine.ofProcedure p).outcome = .ok ⟨g, .new, none, none⟩ := by
  rw [Routine.ofProcedure, Run.outcome_liftM_bind h, Run.outcome_bind_of_ok (Run.outcome_report _),
    Run.outcome_liftM_bind (Graph.WellFormed.ofProcedure h).wired.demandConsistent]
  rfl

namespace Passage

/-- A passage that has no graph to start from gives up. -/
theorem run_of_error (o : Options) {p : Procedure} {f : Fault}
    (h : Graph.ofProcedure p = .error f) : (run o p).outcome = .error f := by
  refine (Run.outcome_bind_of_ok (Run.outcome_report _) _).trans ?_
  refine (Run.outcome_bind_of_ok (announce_eq_ok o _) _).trans ?_
  rw [Run.outcome_bind, Routine.ofProcedure_of_error h]
  rfl

/-- **What comes out of a passage** is what the last two stages make of the tidied graph. -/
theorem run_of_stages (o : Options) (post : Procedure → Prop) {p : Procedure} {r : Routine}
    {count : Nat} {g : Graph} (hbuilt : (Routine.ofProcedure p).outcome = .ok r)
    (htidy : r.graph.tidy.outcome = .ok (count, g)) (htidies : r.graph.Tidies g)
    (hrest : ∀ r' : Routine, r'.graph = g → ∃ drawings r'' ss,
      (convert o r').outcome = .ok (drawings, r'') ∧ r''.graph.layOut.outcome = .ok ss ∧
        post ⟨r''.graph.name, ss⟩) :
    ∃ out, (run o p).outcome = .ok out ∧ post out.procedure := by
  obtain ⟨-, hlayable⟩ := layable_of_ofProcedure hbuilt
  obtain ⟨ds₁, r₁, hpresent₁, hgraph₁, -⟩ := present_eq_ok o hlayable.wellFormed.listed "built"
  have hconnected := Graph.demandConnected_eq_ok htidies.wellFormed htidies.reached
  have htidy₁ : r₁.tidy.outcome = .ok (count, r₁.withGraph g) := by
    rw [Routine.tidy, Run.outcome_bind_of_ok (hgraph₁ ▸ htidy), Run.outcome_liftM_bind hconnected]
    rfl
  obtain ⟨ds₂, r₂, hpresent₂, hgraph₂, -⟩ :=
    present_eq_ok o (r := r₁.withGraph g) htidies.wellFormed.listed "tidied"
  obtain ⟨ds₃, r₃, ss, hconverted, hlayOut, hpost⟩ := hrest r₂ hgraph₂
  refine ⟨⟨⟨r₃.graph.name, ss⟩, ds₁ ++ ds₂ ++ ds₃⟩, ?_, hpost⟩
  refine (Run.outcome_bind_of_ok (Run.outcome_report _) _).trans ?_
  refine (Run.outcome_bind_of_ok (announce_eq_ok o _) _).trans ?_
  refine (Run.outcome_bind_of_ok hbuilt _).trans ?_
  refine (Run.outcome_bind_of_ok hpresent₁ _).trans ?_
  refine (Run.outcome_bind_of_ok (announce_eq_ok o _) _).trans ?_
  refine (Run.outcome_bind_of_ok htidy₁ _).trans ?_
  refine (Run.outcome_bind_of_ok hpresent₂ _).trans ?_
  refine (Run.outcome_bind_of_ok hconverted _).trans ?_
  refine (Run.outcome_bind_of_ok (announce_eq_ok o _) _).trans ?_
  refine (Run.outcome_bind_of_ok hlayOut _).trans ?_
  cases o.verbose <;> rfl

/-- **Through single assignment form and back**, whatever the names of the variables. -/
theorem exists_throughSsa (o : Options) {r : Routine} (h : Layable r.graph) :
    ∃ drawings r', (throughSsa o r).outcome = .ok (drawings, r') ∧ Layable r'.graph := by
  obtain ⟨r₁, g, stops, hto, hres, hver⟩ := r.toSsa_spec h.wellFormed h.phiFree
  have htidies := hres.tidies h.wellFormed h.phiFree
  have hg₁ := hver.wellFormed htidies.wellFormed
  have hs₁ := hver.straight (htidies.straight h.straight)
  have hphis := hver.phisComplete htidies.wellFormed htidies.reached
  have hold := hver.covers htidies.wellFormed htidies.reached
  obtain ⟨ds₁, r₂, hpresent₁, hgraph₁, hnames₁⟩ := present_eq_ok o hg₁.listed "in SSA form"
  rw [← hgraph₁] at hg₁ hs₁ hphis hold
  rw [← hnames₁] at hold
  obtain ⟨r₃, hout, hg₃, hs₃, hp₃, -⟩ := r₂.outOfSsa_behaves hg₁ hs₁ hphis hold
  obtain ⟨ds₂, r₄, hpresent₂, hgraph₂, -⟩ := present_eq_ok o hg₃.listed "out of SSA form"
  rw [← hgraph₂] at hg₃ hs₃ hp₃
  exact ⟨ds₁ ++ ds₂, r₄, outcome_throughSsa o hto hpresent₁ hout hpresent₂, ⟨hg₃, hs₃, hp₃⟩⟩

theorem exists_convert (o : Options) {r : Routine} (h : Layable r.graph) :
    ∃ drawings r', (convert o r).outcome = .ok (drawings, r') ∧ Layable r'.graph := by
  rw [convert]
  cases o.ssa with
  | true => exact exists_throughSsa o h
  | false => exact ⟨[], r, rfl, h⟩

/-- Whatever has a graph gets through. -/
theorem exists_run (o : Options) {p : Procedure} {g : Graph} (h : Graph.ofProcedure p = .ok g) :
    ∃ out, (run o p).outcome = .ok out := by
  have hbuilt := Routine.ofProcedure_of_ok h
  obtain ⟨-, hlayable⟩ := layable_of_ofProcedure hbuilt
  obtain ⟨count, g', htidy, htidies⟩ := hlayable.wellFormed.tidies_tidy hlayable.phiFree
  obtain ⟨out, hout, -⟩ := run_of_stages o (fun _ => True) hbuilt htidy htidies
    fun r' hr' => by
      obtain ⟨ds, r'', hconvert, hlayable''⟩ := exists_convert o (r := r') (hr' ▸
        ⟨htidies.wellFormed, htidies.straight hlayable.straight, htidies.phiFree⟩)
      obtain ⟨ss, hss, -⟩ :=
        hlayable''.wellFormed.layOut_behaves hlayable''.straight hlayable''.phiFree
      exact ⟨ds, r'', ss, hconvert, hss, trivial⟩
  exact ⟨out, hout⟩

/-- **A passage fails on bad labels only.**  If a label is declared twice, the fault names the first
one that is declared again, whatever the jumps.  If none is and some label that is jumped to is not
declared, the fault names the first one of these.  Otherwise the passage succeeds, with or without
single assignment form. -/
theorem run_fails_on_labels_only (o : Options) (p : Procedure) :
    (¬ (Layout.declared p.statements).Nodup →
      ∃ l, Layout.FirstRepeated p.statements l ∧
        (run o p).outcome = .error (.duplicateLabel l p.name) ∧
        (Fault.duplicateLabel l p.name).message =
          "label " ++ l ++ " is declared twice in " ++ p.name) ∧
    ((Layout.declared p.statements).Nodup →
      (¬ ∀ l ∈ p.statements.flatMap Statement.targets, l ∈ Layout.declared p.statements) →
      ∃ l, Layout.FirstMissing p.statements l ∧
        (run o p).outcome = .error (.undeclaredLabel l) ∧
        (Fault.undeclaredLabel l).message = "jump to undeclared label " ++ l) ∧
    ((Layout.declared p.statements).Nodup →
      (∀ l ∈ p.statements.flatMap Statement.targets, l ∈ Layout.declared p.statements) →
      ∃ out, (run o p).outcome = .ok out) := by
  refine ⟨fun hrepeated => ?_, fun hnodup hmissing => ?_, fun hnodup hdeclared => ?_⟩
  · obtain ⟨front, l, rest, hsplit, hnodup, hl⟩ := Layout.exists_first_repeated hrepeated
    exact ⟨l, ⟨front, rest, hsplit, hnodup, hl⟩,
      run_of_error o (Graph.ofProcedure_of_repeated hsplit hnodup hl), rfl⟩
  · obtain ⟨l, hfirst, hfind⟩ := Layout.exists_firstMissing hmissing
    exact ⟨l, hfirst, run_of_error o (Graph.ofProcedure_of_undeclared hnodup hfind), rfl⟩
  · exact exists_run o (Graph.ofProcedure_eq_ok hnodup hdeclared)

/-- A label is declared again behind a jump to one that is not declared. -/
def declaredTwice : Procedure where
  name := "declaredTwice"
  statements := [.goto "away", .label "top", .eval (.var (.plain "x")), .label "top"]

/-- Both ways out of a branch lead astray, and so does the jump behind it. -/
def astray : Procedure where
  name := "astray"
  statements := [.label "top", .branch ⟨.plain "c", "left", "right"⟩, .goto "away"]

/-- A loop over two variables of one base name, with a dead end that jumps to itself. -/
def namesakes : Procedure where
  name := "namesakes"
  statements := [
    .label "top",
    .assign ⟨"x", none⟩ false (.unary "dec" (.var ⟨"x", some 1⟩)),
    .branch ⟨⟨"x", some 1⟩, "more", "stuck"⟩,
    .label "more",
    .assign ⟨"x", some 1⟩ false (.var ⟨"x", none⟩),
    .goto "top",
    .label "stuck",
    .goto "stuck"]

theorem labels_of_three_procedures :
    (∃ l, Layout.FirstRepeated declaredTwice.statements l ∧
      (run ⟨true, true, false⟩ declaredTwice).outcome =
      .error (.duplicateLabel l "declaredTwice")) ∧
    (∃ l, Layout.FirstMissing astray.statements l ∧
      (run ⟨false, false, true⟩ astray).outcome = .error (.undeclaredLabel l)) ∧
    ∃ out, (run ⟨true, true, true⟩ namesakes).outcome = .ok out := by
  obtain ⟨l, hl, hrepeated, -⟩ :=
    (run_fails_on_labels_only ⟨true, true, false⟩ declaredTwice).1 (by decide)
  obtain ⟨m, hm, hmissing, -⟩ :=
    (run_fails_on_labels_only ⟨false, false, true⟩ astray).2.1 (by decide) (by decide)
  exact ⟨⟨l, hl, hrepeated⟩, ⟨m, hm, hmissing⟩,
    (run_fails_on_labels_only ⟨true, true, true⟩ namesakes).2.2 (by decide) (by decide)⟩

end Passage
end FlowGraph
