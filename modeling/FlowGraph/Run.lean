import FlowGraph.Event
import FlowGraph.Fault

/-! # Runs

The result of an operation that reports events and may give up: its value or the fault that ended
it, together with the events up to that point.  Events never influence a value, so a statement about
values can leave them aside: `outcome` takes a sequence of steps to the sequence of their outcomes.
-/
namespace FlowGraph

/-- **A run.** -/
structure Run (α : Type) where
  /-- The value, or why there is none. -/
  outcome : Except Fault α
  /-- What was reported, in order. -/
  events : List Event

namespace Run

variable {α β : Type}

/-- One run after another.  A fault ends the sequence and keeps the events before it. -/
def andThen (r : Run α) (f : α → Run β) : Run β :=
  match r.outcome with
  | .error e => ⟨.error e, r.events⟩
  | .ok a =>
    let next := f a
    ⟨next.outcome, r.events ++ next.events⟩

instance : Monad Run where
  pure a := ⟨.ok a, []⟩
  bind := andThen

/-- A value that may be missing, without events. -/
def ofExcept (x : Except Fault α) : Run α := ⟨x, []⟩

instance : MonadLift (Except Fault) Run := ⟨ofExcept⟩

/-- Gives up. -/
def fail (e : Fault) : Run α := ⟨.error e, []⟩

/-- Reports an event. -/
def report (e : Event) : Run Unit := ⟨.ok (), [e]⟩

@[simp] theorem outcome_pure (a : α) : (pure a : Run α).outcome = .ok a := rfl

@[simp] theorem outcome_ofExcept (x : Except Fault α) : (ofExcept x).outcome = x := rfl

@[simp] theorem outcome_liftM (x : Except Fault α) : (liftM x : Run α).outcome = x := rfl

@[simp] theorem outcome_fail (e : Fault) : (fail e : Run α).outcome = .error e := rfl

@[simp] theorem outcome_report (e : Event) : (report e).outcome = .ok () := rfl

@[simp] theorem outcome_bind (r : Run α) (f : α → Run β) :
    (r >>= f).outcome = r.outcome >>= fun a => (f a).outcome := by
  show (r.andThen f).outcome = _
  unfold andThen
  cases r.outcome <;> rfl

/-- A step with a value goes on to the next. -/
theorem outcome_bind_of_ok {r : Run α} {a : α} (h : r.outcome = .ok a) (f : α → Run β) :
    (r >>= f).outcome = (f a).outcome := by
  rw [outcome_bind, h]
  rfl

/-- Events add up in order. -/
theorem events_bind_of_ok {r : Run α} {a : α} (h : r.outcome = .ok a) (f : α → Run β) :
    (r >>= f).events = r.events ++ (f a).events := by
  show (r.andThen f).events = _
  unfold andThen
  rw [h]

/-- A value that is there goes on to the next step. -/
theorem outcome_liftM_bind {x : Except Fault α} {a : α} (h : x = .ok a) (f : α → Run β) :
    ((liftM x : Run α) >>= f).outcome = (f a).outcome :=
  outcome_bind_of_ok ((outcome_liftM x).trans h) f

@[simp] theorem outcome_foldlM (f : β → α → Run β) (b : β) (xs : List α) :
    (xs.foldlM f b).outcome = xs.foldlM (fun b x => (f b x).outcome) b := by
  induction xs generalizing b with
  | nil => rfl
  | cons x xs ih => simp [ih]

/-- Steps may be regrouped: faults end a sequence wherever its brackets stand, and events add up in
order. -/
instance : LawfulMonad Run := LawfulMonad.mk' Run
  (fun r => by
    obtain ⟨outcome, events⟩ := r
    cases outcome with
    | error => rfl
    | ok a => exact congrArg (Run.mk (.ok a)) (List.append_nil events))
  (fun _ _ => rfl)
  (fun r f g => by
    obtain ⟨outcome, events⟩ := r
    cases outcome with
    | error => rfl
    | ok a =>
      show Run.andThen ⟨(f a).outcome, events ++ (f a).events⟩ g =
        ⟨((f a).andThen g).outcome, events ++ ((f a).andThen g).events⟩
      unfold andThen
      cases (f a).outcome with
      | error => rfl
      | ok b => simp [List.append_assoc])

end Run
end FlowGraph
