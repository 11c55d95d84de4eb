import FlowGraph.Proofs.Histories

/-! # Derived data is never out of date

An operation that changes the graph drops what was derived from it, or keeps what the change cannot
touch, so what a routine knows of its graph is what a computation would find now (`Fresh`).  No
operation does anything else for what is known: its outcome depends on the graph and the names alone
(`Alike.act`).  So operations that only look something up can be put between others, or left out,
without any effect on the rest.
-/
namespace FlowGraph

/-- Whether an operation does nothing but derive data from the graph. -/
def Action.looksUp : Action → Bool
  | .refreshDominance | .needDominance | .needWeb | .rebuildWeb => true
  | _ => false

namespace Routine

variable {r r' : Routine} {a : Action} {as : List Action}

/-- Routines with the same graph and the same names. -/
structure Alike (r r' : Routine) : Prop where
  graph_eq : r.graph = r'.graph
  names_eq : r.names = r'.names

theorem Alike.refl (r : Routine) : r.Alike r := ⟨rfl, rfl⟩

/-! ### Looking up -/

/-- **Looking something up** succeeds on a sound graph, and changes neither the graph nor the names.
-/
theorem exists_lookUp (hg : r.graph.WellFormed) (ha : a.looksUp = true) :
    ∃ r', (r.act a).outcome = .ok r' ∧ r.Alike r' ∧ (r.Fresh → r'.Fresh) := by
  obtain ⟨d, hd, -⟩ := Dominance.ofGraph_spec hg
  have hknown : r.Fresh → Fresh { r with dominance := some d } := fun h =>
    ⟨fun d' hd' => Option.some.inj hd' ▸ hd, h.web⟩
  have hweb : r.Fresh → Fresh { r with web := some (Web.ofGraph r.graph) } := fun h =>
    ⟨h.dominance, fun w hw => (Option.some.inj hw).symm⟩
  cases a with
  | refreshDominance =>
    exact ⟨_, Run.outcome_bind_of_ok (refreshDominance_eq hd) _, ⟨rfl, rfl⟩, hknown⟩
  | needDominance =>
    cases hr : r.dominance with
    | some d =>
      have hneed : r.needDominance.outcome = .ok (d, r) := by rw [needDominance, hr]; rfl
      exact ⟨r, Run.outcome_bind_of_ok hneed _, .refl r, id⟩
    | none =>
      have hneed : r.needDominance.outcome = .ok (d, { r with dominance := some d }) := by
        rw [needDominance, hr]
        exact refreshDominance_eq hd
      exact ⟨_, Run.outcome_bind_of_ok hneed _, ⟨rfl, rfl⟩, hknown⟩
  | needWeb =>
    cases hr : r.web with
    | some w =>
      have hneed : r.needWeb.outcome = .ok (w, r) := by rw [needWeb, hr]; rfl
      exact ⟨r, Run.outcome_bind_of_ok hneed _, .refl r, id⟩
    | none =>
      have hneed : r.needWeb.outcome =
          .ok (Web.ofGraph r.graph, { r with web := some (Web.ofGraph r.graph) }) := by
        rw [needWeb, hr]
        rfl
      exact ⟨_, Run.outcome_bind_of_ok hneed _, ⟨rfl, rfl⟩, hweb⟩
  | rebuildWeb => exact ⟨_, rfl, ⟨rfl, rfl⟩, hweb⟩
  | _ => cases ha

/-! ### What is known stays true -/

theorem fresh_withGraph (r : Routine) (g : Graph) : (r.withGraph g).Fresh where
  dominance _ h := by cases h
  web _ h := by cases h

theorem ends_any {α : Type} (x : Run α) : x.Ends (fun _ => True) fun _ => True :=
  ⟨fun _ => trivial, fun _ => trivial⟩

theorem fresh_settle (r : Routine) (g : Graph) : (r.settle g).Ends Fresh fun _ => True :=
  r.ends_settle (fun _ => fresh_withGraph r g) fun _ => trivial

theorem fresh_ofProcedure (p : Procedure) : (ofProcedure p).Ends Fresh fun _ => True :=
  (ends_any _).bind fun g _ => (ends_any _).bind fun _ _ => (ends_any _).bind fun _ _ =>
    .pure (fresh_withGraph ⟨g, .new, none, none⟩ g)

theorem Restates.fresh (h : r.Restates r') (hr : r.Fresh) : r'.Fresh where
  dominance d hd := by
    rw [Dominance.ofGraph_of_outline h.outline]
    exact hr.dominance d (h.dominance_eq ▸ hd)
  web w hw := by
    rw [h.web_eq] at hw
    cases hw

/-- **One operation.** -/
theorem fresh_act (hg : r.graph.WellFormed) (hr : r.Fresh) (a : Action) :
    (r.act a).Ends Fresh fun _ => True := by
  by_cases hlook : a.looksUp = true
  · obtain ⟨r', hok, -, hfresh⟩ := exists_lookUp hg hlook
    exact .of_ok hok (hfresh hr)
  have htidy : ∀ r : Routine, r.tidy.Ends (fun x => x.2.Fresh) fun _ => True := fun r =>
    (ends_any _).bind fun x _ => (ends_any _).bind fun _ _ => .pure (fresh_withGraph ..)
  have hput : ∀ e k, (r.putOnEdge e k).Ends (fun x => x.2.Fresh) fun _ => True := fun e k =>
    (ends_any _).bind fun s _ => (r.fresh_settle _).bind fun r' h => .pure h
  cases a with
  | batch steps =>
    have hbatch : (r.runBatch steps).Ends (fun x => x.2.Fresh) fun _ => True :=
      (ends_any _).bind fun x _ => (fresh_settle ..).bind fun r' h => .pure h
    exact hbatch.bind fun x h => .pure h
  | putBetween source target kind =>
    have hput : (r.putBetween source target kind).Ends (fun x => x.2.Fresh) fun _ => True :=
      (ends_any _).bind fun e _ => hput e kind
    exact hput.bind fun x h => .pure h
  | putOnEdge e kind => exact (hput e kind).bind fun x h => .pure h
  | replace b chain =>
    have hreplace : (r.replace b chain).Ends (fun x => x.2.Fresh) fun _ => True := by
      unfold Routine.replace
      split
      · exact .pure hr
      · exact (ends_any _).bind fun g _ => (r.fresh_settle g).bind fun r' h => .pure h
      · exact (ends_any _).bind fun x _ => (r.fresh_settle _).bind fun r' h => .pure h
    exact hreplace.bind fun x h => .pure h
  | simplifySolo b => exact (ends_any _).bind fun g _ => r.fresh_settle g
  | forgetPhis b => exact (ends_any _).bind fun block _ => .pure (fresh_withGraph ..)
  | tidy => exact (htidy r).bind fun x h => .pure h
  | resolveBranch b outcome => exact (ends_any _).bind fun g _ => (htidy _).bind fun x h => .pure h
  | toSsa => exact (r.ends_toSsa hg fun _ _ _ => trivial).imp (fun r' h => h.2) fun _ => id
  | outOfSsa => exact (ends_any _).bind fun s _ => fresh_settle ..
  | setStatement | setBranch | setCond | setPhiVersion =>
    exact (r.ends_restating hg rfl).imp (fun r' h => h.fresh hr) fun _ _ => trivial
  | refreshDominance | needDominance | needWeb | rebuildWeb => exact absurd rfl hlook

/-- **Any number of operations.** -/
theorem fresh_acts (hg : r.graph.WellFormed) (hr : r.Fresh) (h : (r.acts as).outcome = .ok r') :
    r'.Fresh := by
  induction as generalizing r with
  | nil =>
    cases h
    exact hr
  | cons a as ih =>
    obtain ⟨r₁, hone, hrest⟩ := acts_cons.mp h
    exact ih ((r.ends_act hg a).ok hone).wellFormed ((fresh_act hg hr a).ok hone) hrest

end Routine

/-! ### What is known has no effect -/

namespace Run

variable {α β γ δ : Type} {R : α → β → Prop} {S : γ → δ → Prop}

/-- **Runs that agree**: both have values, which are related, or both end with the same fault. -/
def Agrees (R : α → β → Prop) (x : Run α) (y : Run β) : Prop :=
  (∃ f, x.outcome = .error f ∧ y.outcome = .error f) ∨
    ∃ a b, x.outcome = .ok a ∧ y.outcome = .ok b ∧ R a b

namespace Agrees

theorem pure {a : α} {b : β} (h : R a b) : Agrees R (pure a) (pure b) := .inr ⟨a, b, rfl, rfl, h⟩

theorem of_eq {R : α → α → Prop} {x y : Run α} (h : x.outcome = y.outcome) (hR : ∀ a, R a a) :
    Agrees R x y := by
  cases hx : x.outcome with
  | error f => exact .inl ⟨f, hx, h ▸ hx⟩
  | ok a => exact .inr ⟨a, a, hx, h ▸ hx, hR a⟩

theorem refl (x : Run α) : Agrees Eq x x := of_eq rfl fun _ => rfl

theorem bind {x : Run α} {y : Run β} {next : α → Run γ} {next' : β → Run δ} (h : Agrees R x y)
    (hnext : ∀ a b, R a b → Agrees S (next a) (next' b)) : Agrees S (x >>= next) (y >>= next') := by
  rcases h with ⟨f, hx, hy⟩ | ⟨a, b, hx, hy, hab⟩
  · refine .inl ⟨f, ?_, ?_⟩
    · rw [outcome_bind, hx]
      rfl
    · rw [outcome_bind, hy]
      rfl
  · rw [Agrees, outcome_bind_of_ok hx, outcome_bind_of_ok hy]
    exact hnext a b hab

/-- One step after another, of values that are looked up. -/
theorem lift_bind {x : Except Fault α} {y : Except Fault β} {next : α → Except Fault γ}
    {next' : β → Except Fault δ} (h : Agrees R (liftM x : Run α) (liftM y))
    (hnext : ∀ a b, R a b → Agrees S (liftM (next a) : Run γ) (liftM (next' b))) :
    Agrees S (liftM (x >>= next) : Run γ) (liftM (y >>= next')) := by
  rcases h with ⟨f, hx, hy⟩ | ⟨a, b, hx, hy, hab⟩
  · cases (outcome_liftM x).symm.trans hx
    cases (outcome_liftM y).symm.trans hy
    exact .inl ⟨f, rfl, rfl⟩
  · cases (outcome_liftM x).symm.trans hx
    cases (outcome_liftM y).symm.trans hy
    exact hnext a b hab

theorem of_ok {x : Run α} {y : Run β} (h : Agrees R x y) {a : α} {b : β} (hx : x.outcome = .ok a)
    (hy : y.outcome = .ok b) : R a b := by
  rcases h with ⟨f, hf, -⟩ | ⟨a', b', ha, hb, hab⟩
  · cases hx.symm.trans hf
  · cases hx.symm.trans ha
    cases hy.symm.trans hb
    exact hab

theorem report {e e' : Event} {next : Unit → Run γ} {next' : Unit → Run δ}
    (h : Agrees S (next ()) (next' ())) : Agrees S (report e >>= next) (report e' >>= next') := by
  have hreport : Agrees (fun _ _ => True) (Run.report e) (Run.report e') :=
    .inr ⟨_, _, rfl, rfl, trivial⟩
  exact hreport.bind fun _ _ _ => h

/-- Two loops over the same list. -/
theorem foldlM {step : α → γ → Run α} {step' : β → γ → Run β}
    (hstep : ∀ x a b, R a b → Agrees R (step a x) (step' b x)) {xs : List γ} {a : α}
    {b : β} (h : R a b) :
    Agrees R (xs.foldlM step a) (xs.foldlM step' b) := by
  induction xs generalizing a b with
  | nil => exact pure h
  | cons x xs ih =>
    rw [List.foldlM_cons, List.foldlM_cons]
    exact (hstep x a b h).bind fun _ _ => ih

theorem and_left {x : Run α} {y : Run β} {good : α → Prop} {bad : Fault → Prop} (h : Agrees R x y)
    (hx : x.Ends good bad) : Agrees (fun a b => R a b ∧ good a) x y :=
  h.imp_right fun ⟨a, b, ha, hb, hab⟩ => ⟨a, b, ha, hb, hab, hx.ok ha⟩

/-- Two runs that agree with a third one. -/
theorem join {x : Run α} {y : Run β} {z : Run γ} {R : α → γ → Prop} {S : β → γ → Prop}
    (h : Agrees R x z) (h' : Agrees S y z) : Agrees (fun a b => ∃ c, R a c ∧ S b c) x y := by
  rcases h with ⟨f, hx, hz⟩ | ⟨a, c, hx, hz, hac⟩
  · rcases h' with ⟨f', hy, hz'⟩ | ⟨b, c', hy, hz', -⟩
    · cases hz.symm.trans hz'
      exact .inl ⟨f, hx, hy⟩
    · cases hz.symm.trans hz'
  · rcases h' with ⟨f', hy, hz'⟩ | ⟨b, c', hy, hz', hbc⟩
    · cases hz.symm.trans hz'
    · cases hz.symm.trans hz'
      exact .inr ⟨a, b, hx, hy, c, hac, hbc⟩

end Agrees
end Run

namespace Routine

open Run (Agrees)

variable {r r' : Routine} {a : Action} {as : List Action}

theorem Alike.performAll (h : r.Alike r') (steps : List Graph.Step) :
    Agrees (fun x y => x.2.Alike y.2) (r.performAll steps) (r'.performAll steps) := by
  induction steps generalizing r r' with
  | nil => exact .pure h
  | cons s rest ih =>
    have hone : Agrees (fun x y => x.1 = y.1 ∧ x.2.Alike y.2) (r.perform s) (r'.perform s) := by
      rw [perform, perform, h.graph_eq]
      refine (Agrees.refl _).bind ?_
      rintro x _ rfl
      exact .pure ⟨rfl, rfl, h.names_eq⟩
    refine hone.bind fun x y hxy => ?_
    exact (ih hxy.2).bind fun _ _ h => .pure h

theorem Alike.withGraph (h : r.Alike r') (g : Graph) : r.withGraph g = r'.withGraph g := by
  rw [Routine.withGraph, Routine.withGraph, h.names_eq]

theorem Alike.settle (h : r.Alike r') (g : Graph) : r.settle g = r'.settle g := by
  rw [Routine.settle, Routine.settle, h.withGraph]

theorem Alike.prune (h : r.Alike r') : Agrees Alike r.prune r'.prune := by
  rw [Routine.prune, Routine.prune, h.graph_eq]
  refine (Agrees.refl _).bind ?_
  rintro ⟨count, g⟩ _ rfl
  dsimp only
  split
  · rw [h.settle]
    exact .of_eq rfl .refl
  · exact .pure h

/-- The conversion computes what it needs anew. -/
theorem Alike.toSsa (h : r.Alike r') : Agrees Alike r.toSsa r'.toSsa := by
  refine h.prune.bind fun r₁ r₂ h₁ => ?_
  have hdom : Agrees (fun x y => x.1 = y.1 ∧ x.2.Alike y.2) r₁.refreshDominance
      r₂.refreshDominance := by
    rw [refreshDominance, refreshDominance, h₁.graph_eq]
    refine (Agrees.refl _).bind ?_
    rintro d _ rfl
    exact (Agrees.refl _).bind fun _ _ _ => .pure ⟨rfl, rfl, h₁.names_eq⟩
  refine hdom.bind ?_
  rintro ⟨d, r₃⟩ ⟨_, r₄⟩ ⟨rfl, h₃⟩
  dsimp only
  rw [h₃.graph_eq, h₃.names_eq]
  refine (Agrees.refl _).bind ?_
  rintro w _ rfl
  refine (Agrees.refl _).bind ?_
  rintro ⟨added, g⟩ _ rfl
  refine (Agrees.refl _).bind fun _ _ _ => (Agrees.refl _).bind ?_
  rintro ⟨names, g'⟩ _ rfl
  dsimp only
  split
  · exact .of_eq rfl .refl
  · exact (Agrees.refl _).bind fun _ _ _ => .pure ⟨rfl, rfl⟩

theorem Alike.changeBlock (h : r.Alike r') (b : BlockId) (f : Block → Option Block) :
    Agrees (fun x y => x.2.Alike y.2) (r.changeBlock b f) (r'.changeBlock b f) := by
  rw [Routine.changeBlock, Routine.changeBlock, h.graph_eq]
  refine (Agrees.refl _).bind ?_
  rintro block _ rfl
  cases f block with
  | none => exact .pure ⟨rfl, h.names_eq⟩
  | some block' => exact .pure ⟨rfl, h.names_eq⟩

/-- **No operation asks for what is known**: what it does depends on the graph and the names alone.
-/
theorem Alike.act (h : r.Alike r') (ha : a.looksUp = false) :
    Agrees Alike (r.act a) (r'.act a) := by
  cases a with
  | putBetween | putOnEdge | simplifySolo | forgetPhis | tidy | outOfSsa | resolveBranch =>
    obtain ⟨g, names, d, w⟩ := r
    obtain ⟨g', names', d', w'⟩ := r'
    obtain ⟨rfl, rfl⟩ := h
    exact .of_eq rfl .refl
  | replace b chain =>
    have hreplace : Agrees (fun x y => x.2.Alike y.2) (r.replace b chain) (r'.replace b chain) := by
      unfold Routine.replace
      split
      · exact .pure h
      · simp only [h.graph_eq, h.settle]
        exact .of_eq rfl fun x => .refl x.2
      · simp only [h.graph_eq, h.settle]
        exact .of_eq rfl fun x => .refl x.2
    exact hreplace.bind fun x y h => .pure h
  | batch steps =>
    refine Agrees.bind (R := fun x y => x.2.Alike y.2) ?_ fun x y h => .pure h
    refine (h.performAll steps).bind ?_
    rintro ⟨result, r₁⟩ ⟨result', r₂⟩ h₁
    dsimp only at h₁ ⊢
    rw [h₁.settle, h₁.graph_eq]
    refine (Agrees.refl _).bind ?_
    rintro r₃ _ rfl
    exact .pure (.refl r₃)
  | toSsa => exact h.toSsa
  | setStatement | setBranch | setCond | setPhiVersion =>
    exact (h.changeBlock ..).bind fun x y h => .pure h
  | refreshDominance | needDominance | needWeb | rebuildWeb => cases ha

/-- **Whole runs**, without the operations that look something up. -/
theorem Alike.acts (h : r.Alike r') (hg : r.graph.WellFormed) (as : List Action) :
    Agrees Alike (r.acts as) (r'.acts (as.filter (!·.looksUp))) := by
  induction as generalizing r r' with
  | nil => exact .pure h
  | cons a as ih =>
    rw [Routine.acts, List.foldlM_cons]
    cases hlook : a.looksUp with
    | true =>
      obtain ⟨r₁, hok, halike, -⟩ := exists_lookUp hg hlook
      rw [List.filter_cons_of_neg (by simp [hlook]), Agrees, Run.outcome_bind_of_ok hok]
      refine ih ⟨halike.graph_eq.symm.trans h.graph_eq, halike.names_eq.symm.trans h.names_eq⟩ ?_
      exact halike.graph_eq ▸ hg
    | false =>
      rw [List.filter_cons_of_pos (by simp [hlook]), Routine.acts, List.foldlM_cons]
      exact ((h.act hlook).and_left (r.ends_act hg a)).bind fun r₁ r₂ h₁ => ih h₁.1 h₁.2.wellFormed

theorem Alike.layOut (h : r.Alike r') : r.layOut = r'.layOut := congrArg Graph.layOut h.graph_eq

/-- **Derived data is never out of date**: after any operations on the graph of a procedure, the
dominators and the web that are known are those that a computation finds in the graph as it is then.
So it makes no difference where, and how often, something is looked up between other operations: the
same operations fail, and the same graph, the same supply of names and the same layout come out. -/
theorem acts_fresh {p : Procedure} {r₀ : Routine} (h₀ : (ofProcedure p).outcome = .ok r₀)
    (as : List Action) :
    (∀ r, (r₀.acts as).outcome = .ok r → r.Fresh) ∧
      ∀ more : List Action, more.filter (!·.looksUp) = as.filter (!·.looksUp) →
        Agrees (fun r r' => r.graph = r'.graph ∧ r.names = r'.names ∧ r.layOut = r'.layOut)
          (r₀.acts as) (r₀.acts more) := by
  have hg₀ : r₀.graph.WellFormed := (Passage.layable_of_ofProcedure h₀).2.wellFormed
  refine ⟨fun r h => fresh_acts hg₀ ?_ h, fun more hmore => ?_⟩
  · exact (fresh_ofProcedure p).ok h₀
  · have has := (Alike.refl r₀).acts hg₀ as
    have hmore' := (Alike.refl r₀).acts hg₀ more
    rw [hmore] at hmore'
    refine (has.join hmore').imp_right ?_
    rintro ⟨r, r', hr, hr', s, h, h'⟩
    have halike : r.Alike r' :=
      ⟨h.graph_eq.trans h'.graph_eq.symm, h.names_eq.trans h'.names_eq.symm⟩
    exact ⟨r, r', hr, hr', halike.graph_eq, halike.names_eq, halike.layOut⟩

/-- The operations of `rework`, with questions in between. -/
def inquiry : List Action := [
  .needWeb,
  .toSsa,
  .needDominance,
  .replace ⟨5⟩ [],
  .refreshDominance,
  .needWeb,
  .batch [.addBlock .empty, .addEdge ⟨13⟩ ⟨12⟩, .removeBlock ⟨13⟩],
  .putBetween ⟨2⟩ ⟨3⟩ .empty,
  .needDominance,
  .outOfSsa,
  .tidy,
  .needWeb,
  .refreshDominance]

theorem inquiry_fresh : ∃ r₀ r r' : Routine,
    (ofProcedure Passage.swapLoop).outcome = .ok r₀ ∧ (r₀.acts rework).outcome = .ok r ∧
      (r₀.acts inquiry).outcome = .ok r' ∧ r'.dominance.isSome = true ∧ r'.web.isSome = true ∧
      r'.Fresh ∧ r.graph = r'.graph ∧ r.layOut = r'.layOut := by
  have hrun : ((ofProcedure Passage.swapLoop).outcome.toOption.any fun r₀ =>
      (r₀.acts inquiry).outcome.toOption.any fun r' => r'.dominance.isSome &&
      r'.web.isSome) = true := by
    decide +kernel
  obtain ⟨r₀, h₀, hrun⟩ := Run.exists_ok_of_any hrun
  obtain ⟨r', h', hknown⟩ := Run.exists_ok_of_any hrun
  obtain ⟨hdom, hweb⟩ := Bool.and_eq_true_iff.mp hknown
  have hfresh := (acts_fresh h₀ inquiry).1 r' h'
  rcases (acts_fresh h₀ rework).2 inquiry rfl with ⟨f, -, hf⟩ | ⟨r, r'', h, h'', hgraph, -, hlayOut⟩
  · cases h'.symm.trans hf
  · cases h'.symm.trans h''
    exact ⟨r₀, r, r', h₀, h, h', hdom, hweb, hfresh, hgraph, hlayOut⟩

end Routine
end FlowGraph
