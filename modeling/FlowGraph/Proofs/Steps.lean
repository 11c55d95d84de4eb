import Mathlib.Order.WellFounded

/-! # Steps

What holds of any function that takes a state one step further, or ends.
-/
namespace FlowGraph

variable {α : Type}

/-- **A number of steps** from a state, if it goes on that long. -/
def steps (step : α → Option α) : Nat → α → Option α
  | 0, a => some a
  | n + 1, a => (step a).bind (steps step n)

variable {step : α → Option α}

@[simp] theorem steps_zero (a : α) : steps step 0 a = some a := rfl

theorem steps_succ (n : Nat) (a : α) : steps step (n + 1) a = (step a).bind (steps step n) := rfl

theorem steps_add (m n : Nat) (a : α) :
    steps step (m + n) a = (steps step m a).bind (steps step n) := by
  induction m generalizing a with
  | zero => rw [Nat.zero_add, steps_zero, Option.bind_some]
  | succ m ih =>
    rw [Nat.succ_add, steps_succ, steps_succ, Option.bind_assoc]
    exact congrArg (Option.bind _) (funext ih)

theorem steps_next (n : Nat) (a : α) : steps step (n + 1) a = (steps step n a).bind step := by
  rw [steps_add]
  exact congrArg (Option.bind _) (funext fun b => Option.bind_fun_some (step b))

theorem rel_imp {β : Type} {R S : α → β → Prop} (h : ∀ {a b}, R a b → S a b) :
    ∀ {x : Option α} {y : Option β}, Option.Rel R x y → Option.Rel S x y
  | _, _, .some hr => .some (h hr)
  | _, _, .none => .none

/-- What a pace leaves out lies between two of its places. -/
theorem between_of_pace {pace : Nat → Nat} (hzero : pace 0 = 0) (hmono : StrictMono pace)
    {between : Nat → Prop} (h : ∀ n i, pace n < i → i < pace (n + 1) → between i) (i : Nat) :
    (∃ n, pace n = i) ∨ between i := by
  have hcover : ∀ n, i < pace n → (∃ k, pace k = i) ∨ between i := by
    intro n
    induction n with
    | zero => exact fun h => absurd (hzero ▸ h) (Nat.not_lt_zero i)
    | succ n ih =>
      intro hlt
      rcases Nat.lt_trichotomy i (pace n) with hi | hi | hi
      · exact ih hi
      · exact .inl ⟨n, hi.symm⟩
      · exact .inr (h n i hi hlt)
  exact hcover (i + 1) hmono.le_apply

/-- **Two runs at different pace.**  If wherever `n` steps of one run go with `m` of the other, one
more step of the first goes with some more of the second, then the whole of the first goes with the
second, which in between passes only places that satisfy `between`. -/
theorem exists_pace (together : Nat → Nat → Prop) (between : Nat → Prop) (hstart : together 0 0)
    (hstep : ∀ {n m}, together n m → ∃ m', m < m' ∧ together (n + 1) m' ∧
      ∀ i, m < i → i < m' → between i) :
    ∃ pace : Nat → Nat, pace 0 = 0 ∧ StrictMono pace ∧ (∀ n, together n (pace n)) ∧
      ∀ i, (∃ n, pace n = i) ∨ between i := by
  choose next hlt hnext hbetween using @hstep
  -- The pairs that go together, one after the other.
  let pairs : ∀ n, { m // together n m } := fun n =>
    n.rec ⟨0, hstart⟩ fun _ m => ⟨next m.2, hnext m.2⟩
  have hmono : StrictMono fun n => (pairs n).1 := strictMono_nat_of_lt_succ fun n => hlt (pairs n).2
  exact ⟨fun n => (pairs n).1, rfl, hmono, fun n => (pairs n).2,
    between_of_pace rfl hmono fun n => hbetween (pairs n).2⟩

/-- **Two runs, each at a pace of its own.**  Both may take some steps between the places where they
go together. -/
theorem exists_paces (together : Nat → Nat → Prop) (between between' : Nat → Prop)
    (hstart : together 0 0)
    (hstep : ∀ {n m}, together n m → ∃ n' m', n < n' ∧ m < m' ∧ together n' m' ∧
      (∀ i, n < i → i < n' → between i) ∧ ∀ i, m < i → i < m' → between' i) :
    ∃ pace pace' : Nat → Nat, pace 0 = 0 ∧ pace' 0 = 0 ∧ StrictMono pace ∧ StrictMono pace' ∧
      (∀ n, together (pace n) (pace' n)) ∧ (∀ i, (∃ n, pace n = i) ∨ between i) ∧
      ∀ i, (∃ n, pace' n = i) ∨ between' i := by
  choose next next' hlt hlt' hnext hbetween hbetween' using @hstep
  let pairs : Nat → { x : Nat × Nat // together x.1 x.2 } := fun n =>
    n.rec ⟨(0, 0), hstart⟩ fun _ x => ⟨(next x.2, next' x.2), hnext x.2⟩
  have hmono : StrictMono fun n => (pairs n).1.1 :=
    strictMono_nat_of_lt_succ fun n => hlt (pairs n).2
  have hmono' : StrictMono fun n => (pairs n).1.2 :=
    strictMono_nat_of_lt_succ fun n => hlt' (pairs n).2
  exact ⟨fun n => (pairs n).1.1, fun n => (pairs n).1.2, rfl, rfl, hmono, hmono',
    fun n => (pairs n).2, between_of_pace rfl hmono fun n => hbetween (pairs n).2,
    between_of_pace rfl hmono' fun n => hbetween' (pairs n).2⟩

end FlowGraph
