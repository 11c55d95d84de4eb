import FlowGraph.Run
import FlowGraph.Proofs.Wiring

/-! # How a run may end

An operation that looks its arguments up ends with a value or refuses with a fault.  `Run.Ends` says
both at once: what is true of the value, and which faults are possible.  It is proved along the
steps of the operation, one rule for each way of putting steps together, so that no proof about an
operation unfolds a run.
-/
namespace FlowGraph
namespace Run

variable {α β : Type}

/-- **A run ends well or for a known reason**: a value satisfies `good`, a fault satisfies `bad`. -/
structure Ends (r : Run α) (good : α → Prop) (bad : Fault → Prop) : Prop where
  ok : ∀ {a}, r.outcome = .ok a → good a
  error : ∀ {f}, r.outcome = .error f → bad f

/-- A value that can be tested is there. -/
theorem exists_ok_of_any {x : Except Fault α} {test : α → Bool} (h : x.toOption.any test = true) :
    ∃ a, x = .ok a ∧ test a = true := by
  cases x with
  | ok a => exact ⟨a, rfl, h⟩
  | error f => cases h

namespace Ends

variable {r : Run α} {good good' : α → Prop} {bad bad' : Fault → Prop}

theorem of_ok {a : α} (h : r.outcome = .ok a) (ha : good a) : r.Ends good bad where
  ok h' := by
    rw [h] at h'
    cases h'
    exact ha
  error h' := by
    rw [h] at h'
    cases h'

theorem of_error {f : Fault} (h : r.outcome = .error f) (hf : bad f) : r.Ends good bad where
  ok h' := by
    rw [h] at h'
    cases h'
  error h' := by
    rw [h] at h'
    cases h'
    exact hf

/-- How a run ends is a matter of its outcome. -/
theorem of_outcome {r' : Run α} (h : r.outcome = r'.outcome) (hr : r'.Ends good bad) :
    r.Ends good bad where
  ok h' := hr.ok (h.symm.trans h')
  error h' := hr.error (h.symm.trans h')

theorem pure {a : α} (ha : good a) : (pure a : Run α).Ends good bad := of_ok rfl ha

theorem fail {f : Fault} (hf : bad f) : (fail f : Run α).Ends good bad := of_error rfl hf

/-- A run that cannot fail has a value. -/
theorem exists_ok (h : r.Ends good fun _ => False) : ∃ a, r.outcome = .ok a ∧ good a := by
  cases hr : r.outcome with
  | ok a => exact ⟨a, rfl, h.ok hr⟩
  | error f => exact (h.error hr).elim

theorem imp (h : r.Ends good bad) (hgood : ∀ a, good a → good' a) (hbad : ∀ f, bad f → bad' f) :
    r.Ends good' bad' where
  ok hr := hgood _ (h.ok hr)
  error hr := hbad _ (h.error hr)

/-- **One step after another.** -/
theorem bind {next : α → Run β} {last : β → Prop} (h : r.Ends good bad)
    (hnext : ∀ a, good a → (next a).Ends last bad) : (r >>= next).Ends last bad := by
  cases hr : r.outcome with
  | ok a =>
    have heq := outcome_bind_of_ok hr next
    constructor
    · intro b hb
      exact (hnext a (h.ok hr)).ok (heq ▸ hb)
    · intro f hf
      exact (hnext a (h.ok hr)).error (heq ▸ hf)
  | error f =>
    apply of_error _ (h.error hr)
    rw [outcome_bind, hr]
    rfl

/-- A value that is there goes on to the next step. -/
theorem bind_ok {x : Except Fault α} {a : α} (hx : x = .ok a) {next : α → Run β} {last : β → Prop}
    (h : (next a).Ends last bad) : ((MonadLiftT.monadLift x : Run α) >>= next).Ends last bad := by
  have hlift : (MonadLiftT.monadLift x : Run α).Ends (· = a) bad := of_ok hx rfl
  exact hlift.bind fun _ ha => ha ▸ h

theorem bind_error {x : Except Fault α} {f : Fault} (hx : x = .error f) (hf : bad f)
    {next : α → Run β} {last : β → Prop} :
    ((MonadLiftT.monadLift x : Run α) >>= next).Ends last bad := by
  have hlift : (MonadLiftT.monadLift x : Run α).Ends (fun _ => False) bad := of_error hx hf
  exact hlift.bind fun _ ha => ha.elim

/-- One step after another, of values that are looked up. -/
theorem lift_bind {x : Except Fault α} {next : α → Except Fault β} {last : β → Prop}
    (h : (MonadLiftT.monadLift x : Run α).Ends good bad)
    (hnext : ∀ a, good a → (MonadLiftT.monadLift (next a) : Run β).Ends last bad) :
    (MonadLiftT.monadLift (x >>= next) : Run β).Ends last bad := by
  cases x with
  | error f => exact of_error rfl (h.error rfl)
  | ok a => exact hnext a (h.ok rfl)

theorem report {e : Event} {next : Unit → Run β} {last : β → Prop} (h : (next ()).Ends last bad) :
    (Run.report e >>= next).Ends last bad := by
  have hreport : (Run.report e).Ends (fun _ => True) bad := of_ok rfl trivial
  exact hreport.bind fun _ _ => h

/-- **A loop**: what is true in front of the remaining steps carries over each of them. -/
theorem foldlM {step : β → α → Run β} (inv : List α → β → Prop)
    (hstep : ∀ x rest b, inv (x :: rest) b → (step b x).Ends (inv rest) bad) {xs : List α} {b : β}
    (hb : inv xs b) : (xs.foldlM step b).Ends (inv []) bad := by
  induction xs generalizing b with
  | nil => exact pure hb
  | cons x xs ih =>
    rw [List.foldlM_cons]
    exact (hstep x xs b hb).bind fun b' hb' => ih hb'

theorem forM {step : α → Run Unit} {xs : List α}
    (hstep : ∀ x ∈ xs, (step x).Ends (fun _ => True) bad) :
    (xs.forM step).Ends (fun _ => True) bad := by
  induction xs with
  | nil => exact pure trivial
  | cons x xs ih =>
    obtain ⟨hx, hxs⟩ := List.forall_mem_cons.mp hstep
    have hcons : (x :: xs).forM step = (step x >>= fun _ => xs.forM step) := rfl
    rw [hcons]
    exact hx.bind fun _ _ => ih hxs

end Ends

/-- **A loop through different elements.**  What is true of the elements that were passed carries
over the next one, so at the end it is true of all. -/
theorem exists_foldlM {step : β → α → Run β} (inv : (α → Prop) → β → Prop) {xs : List α}
    (hnodup : xs.Nodup) {passed : α → Prop} (hnew : ∀ x ∈ xs, ¬ passed x)
    (hstep : ∀ {passed b}, inv passed b → ∀ x ∈ xs, ¬ passed x →
      ∃ b', (step b x).outcome = .ok b' ∧ inv (fun y => passed y ∨ y = x) b')
    {b : β} (hb : inv passed b) :
    ∃ b', (xs.foldlM step b).outcome = .ok b' ∧ inv (fun y => passed y ∨ y ∈ xs) b' := by
  induction xs generalizing passed b with
  | nil => exact ⟨b, rfl, by simpa using hb⟩
  | cons x xs ih =>
    obtain ⟨hnot, hnodup⟩ := List.nodup_cons.mp hnodup
    obtain ⟨hx, hxs⟩ := List.forall_mem_cons.mp hnew
    obtain ⟨b₁, hok₁, hb₁⟩ := hstep hb x (List.mem_cons_self ..) hx
    have hnew₁ : ∀ y ∈ xs, ¬ (passed y ∨ y = x) := fun y hy hp =>
      hp.elim (hxs y hy) fun heq => hnot (heq ▸ hy)
    obtain ⟨b₂, hok₂, hb₂⟩ :=
      ih hnodup hnew₁ (fun hinv y hy => hstep hinv y (List.mem_cons_of_mem _ hy)) hb₁
    refine ⟨b₂, ?_, ?_⟩
    · rw [List.foldlM_cons, outcome_bind_of_ok hok₁]
      exact hok₂
    · simpa only [List.mem_cons, or_assoc] using hb₂

end Run

namespace Graph

variable {g : Graph} {good : Block → Prop} {bad : Fault → Prop}

/-- **Looking a block up** fails for a handle that is not in use. -/
theorem ends_block {b : BlockId} (hlive : ∀ block, g.block? b = some block → good block)
    (hstale : g.block? b = none → bad (.violation (.staleBlock b))) :
    (liftM (g.block b) : Run Block).Ends good bad := by
  cases hb : g.block? b with
  | some block => exact .of_ok (by rw [Run.outcome_liftM, Graph.block, hb]) (hlive block hb)
  | none => exact .of_error (by rw [Run.outcome_liftM, Graph.block, hb]) (hstale hb)

theorem ends_edge {good : Edge → Prop} {e : EdgeId}
    (hlive : ∀ edge, g.edge? e = some edge → good edge)
    (hstale : g.edge? e = none → bad (.violation (.staleEdge e))) :
    (liftM (g.edge e) : Run Edge).Ends good bad := by
  cases he : g.edge? e with
  | some edge => exact .of_ok (by rw [Run.outcome_liftM, Graph.edge, he]) (hlive edge he)
  | none => exact .of_error (by rw [Run.outcome_liftM, Graph.edge, he]) (hstale he)

end Graph
end FlowGraph
