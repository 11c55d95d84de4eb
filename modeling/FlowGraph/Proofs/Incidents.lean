import FlowGraph.Proofs.Leaving

/-! # What is done in a walk

Two walks need not go through the same blocks to do the same.  So they are compared by what an
onlooker tells of them: every statement performed and every branch tested, with the values read.
The comparison does not say at which visits the walks are together, as there may come a time after
which they have no block in common: a loop in which nothing is done stays one, but not with the same
blocks.

It is enough to go from visit to visit (`Accompanies.sameTale`): from two visits that belong
together both walks get, in a few steps of which nothing is told, to two such visits again, or both
end.
-/
namespace FlowGraph

variable {α β γ δ : Type}

/-- **What is told of a run** up to some state, oldest first. -/
def told (w : Nat → Option α) (tell : α → Option δ) (n : Nat) : List δ :=
  (List.range n).filterMap fun i => (w i).bind tell

theorem told_succ (w : Nat → Option α) (tell : α → Option δ) (n : Nat) :
    told w tell (n + 1) = told w tell n ++ ((w n).bind tell).toList := by
  rw [told, List.range_succ, List.filterMap_append, ← told]
  cases h : (w n).bind tell <;> simp [h]

/-- Where there is nothing to tell, nothing is added. -/
theorem told_of_quiet {w : Nat → Option α} {tell : α → Option δ} {n m : Nat} (hle : n ≤ m)
    (h : ∀ i, n ≤ i → i < m → (w i).bind tell = none) : told w tell m = told w tell n := by
  induction m, hle using Nat.le_induction with
  | base => rfl
  | succ m hle ih =>
    rw [told_succ, h m hle m.lt_succ_self, ih fun i hi hlt => h i hi (Nat.lt_succ_of_lt hlt)]
    exact List.append_nil _

/-- **One run tells what another tells**, and is over if the other is. -/
structure Retells (w' : Nat → Option β) (tell' : β → Option δ) (w : Nat → Option α)
    (tell : α → Option δ) : Prop where
  tells : ∀ n, ∃ n', told w' tell' n' = told w tell n
  ended : ∀ n, w n = none → ∃ n', w' n' = none ∧ told w' tell' n' = told w tell n

theorem Retells.refl (w : Nat → Option α) (tell : α → Option δ) : Retells w tell w tell :=
  ⟨fun n => ⟨n, rfl⟩, fun n hn => ⟨n, hn, rfl⟩⟩

theorem Retells.trans {w : Nat → Option α} {tell : α → Option δ} {w' : Nat → Option β}
    {tell' : β → Option δ} {w'' : Nat → Option γ} {tell'' : γ → Option δ}
    (h : Retells w'' tell'' w' tell') (h' : Retells w' tell' w tell) :
    Retells w'' tell'' w tell := by
  refine ⟨fun n => ?_, fun n hn => ?_⟩
  · obtain ⟨n', hn'⟩ := h'.tells n
    obtain ⟨n'', hn''⟩ := h.tells n'
    exact ⟨n'', hn''.trans hn'⟩
  · obtain ⟨n', hover, hn'⟩ := h'.ended n hn
    obtain ⟨n'', hover', hn''⟩ := h.ended n' hover
    exact ⟨n'', hover', hn''.trans hn'⟩

/-- **Two runs of which the same is told.** -/
structure SameTale (w : Nat → Option α) (tell : α → Option δ) (w' : Nat → Option β)
    (tell' : β → Option δ) : Prop where
  forth : Retells w' tell' w tell
  back : Retells w tell w' tell'

namespace SameTale

variable {w : Nat → Option α} {tell : α → Option δ} {w' : Nat → Option β} {tell' : β → Option δ}

theorem refl (w : Nat → Option α) (tell : α → Option δ) : SameTale w tell w tell :=
  ⟨.refl w tell, .refl w tell⟩

theorem trans {w'' : Nat → Option γ} {tell'' : γ → Option δ} (h : SameTale w tell w' tell')
    (h' : SameTale w' tell' w'' tell'') : SameTale w tell w'' tell'' :=
  ⟨h'.forth.trans h.forth, h.back.trans h'.back⟩

theorem ended_iff (h : SameTale w tell w' tell') : (∃ n, w n = none) ↔ ∃ n, w' n = none := by
  constructor
  · rintro ⟨n, hn⟩
    exact (h.forth.ended n hn).imp fun _ => And.left
  · rintro ⟨n, hn⟩
    exact (h.back.ended n hn).imp fun _ => And.left

theorem endless_iff (h : SameTale w tell w' tell') : (∀ n, w n ≠ none) ↔ ∀ n, w' n ≠ none := by
  rw [← not_exists, ← not_exists]
  exact not_congr h.ended_iff

end SameTale

/-! ### From state to state -/

theorem quiet_between {step : α → Option α} {tell : α → Option δ} {n j : Nat} {a x : α}
    (hx : steps step n a = some x)
    (h : ∀ i, 0 < i → i < j → ∀ {y}, steps step i x = some y → tell y = none) :
    ∀ i, n + 1 ≤ i → i < n + j → (steps step i a).bind tell = none := by
  intro i hlt hlt'
  obtain ⟨k, rfl⟩ := Nat.exists_eq_add_of_lt hlt
  rw [Nat.add_assoc, steps_add, hx, Option.bind_some]
  cases hy : steps step (k + 1) x with
  | none => rfl
  | some y => exact h (k + 1) k.succ_pos (by omega) hy

section
variable (step : α → Option α) (tell : α → Option δ) (step' : β → Option β) (tell' : β → Option δ)
  (R : α → β → Prop)

/-- **Both sides get on** to states that belong together, and nothing is told on the way. -/
def GetsOn (a : α) (b : β) : Prop :=
  ∃ j k c d, steps step (j + 1) a = some c ∧ steps step' (k + 1) b = some d ∧ R c d ∧
    (∀ i, 0 < i → i < j + 1 → ∀ {y}, steps step i a = some y → tell y = none) ∧
    ∀ i, 0 < i → i < k + 1 → ∀ {y}, steps step' i b = some y → tell' y = none

/-- **Two ways to go on, side by side.**  The same is told of states that belong together, and from
them both sides get on to such states again, or end. -/
structure Accompanies : Prop where
  tell_eq : ∀ {a b}, R a b → tell a = tell' b
  goesOn : ∀ {a b}, R a b → step a = none ∧ step' b = none ∨ GetsOn step tell step' tell' R a b

end

/-- One step on each side. -/
theorem GetsOn.of_steps {step : α → Option α} {tell : α → Option δ} {step' : β → Option β}
    {tell' : β → Option δ} {R : α → β → Prop} {a c : α} {b d : β} (hc : step a = some c)
    (hd : step' b = some d) (hr : R c d) : GetsOn step tell step' tell' R a b := by
  refine ⟨0, 0, c, d, ?_, ?_, hr, fun i _ _ => by omega, fun i _ _ => by omega⟩
  · rw [steps_next, steps_zero, Option.bind_some, hc]
  · rw [steps_next, steps_zero, Option.bind_some, hd]

namespace Accompanies

variable {step : α → Option α} {tell : α → Option δ} {step' : β → Option β} {tell' : β → Option δ}
  {R : α → β → Prop}

theorem symm (h : Accompanies step tell step' tell' R) :
    Accompanies step' tell' step tell fun b a => R a b where
  tell_eq hr := (h.tell_eq hr).symm
  goesOn hr := by
    rcases h.goesOn hr with ⟨hend, hend'⟩ | ⟨j, k, c, d, hc, hd, hcd, hquiet, hquiet'⟩
    · exact .inl ⟨hend', hend⟩
    · exact .inr ⟨k, j, d, c, hd, hc, hcd, hquiet', hquiet⟩

/-- Two sides that end together, or go on by one step each. -/
theorem of_rel (htell : ∀ {a b}, R a b → tell a = tell' b)
    (hstep : ∀ {a b}, R a b → Option.Rel R (step a) (step' b)) :
    Accompanies step tell step' tell' R where
  tell_eq := htell
  goesOn {a b} hr := by
    have hnext := hstep hr
    generalize ha : step a = x at hnext
    generalize hb : step' b = y at hnext
    cases hnext with
    | none => exact .inl ⟨rfl, rfl⟩
    | some hcd => exact .inr (.of_steps ha hb hcd)

/-- After any number of steps such sides are together. -/
theorem rel_steps (hstep : ∀ {a b}, R a b → Option.Rel R (step a) (step' b)) {a : α} {b : β}
    (hr : R a b) (n : Nat) : Option.Rel R (steps step n a) (steps step' n b) := by
  induction n generalizing a b with
  | zero => exact .some hr
  | succ n ih =>
    rw [steps_succ, steps_succ]
    have hnext := hstep hr
    generalize step a = x at hnext
    generalize step' b = y at hnext
    cases hnext with
    | none => exact .none
    | some hcd => exact ih hcd

section
variable (h : Accompanies step tell step' tell' R) {a : α} {b : β}
include h

theorem tell_steps {n m : Nat} (hrel : Option.Rel R (steps step n a) (steps step' m b)) :
    (steps step n a).bind tell = (steps step' m b).bind tell' := by
  generalize steps step n a = x at hrel ⊢
  generalize steps step' m b = y at hrel ⊢
  cases hrel with
  | some hr => exact h.tell_eq hr
  | none => rfl

theorem exists_next {n m : Nat} (hrel : Option.Rel R (steps step n a) (steps step' m b)) :
    ∃ n' m', n < n' ∧ m < m' ∧ Option.Rel R (steps step n' a) (steps step' m' b) ∧
      (∀ i, n + 1 ≤ i → i < n' → (steps step i a).bind tell = none) ∧
      ∀ i, m + 1 ≤ i → i < m' → (steps step' i b).bind tell' = none := by
  generalize hx : steps step n a = x at hrel
  generalize hy : steps step' m b = y at hrel
  have hend : x.bind step = none → y.bind step' = none →
      Option.Rel R (steps step (n + 1) a) (steps step' (m + 1) b) := fun hnone hnone' => by
    rw [steps_next, steps_next, hx, hy, hnone, hnone']
    exact .none
  cases hrel with
  | none =>
    exact ⟨n + 1, m + 1, n.lt_succ_self, m.lt_succ_self, hend rfl rfl, fun i _ _ => by omega,
      fun i _ _ => by omega⟩
  | some hr =>
    rcases h.goesOn hr with ⟨hnone, hnone'⟩ | ⟨j, k, c, d, hc, hd, hcd, hquiet, hquiet'⟩
    · exact ⟨n + 1, m + 1, n.lt_succ_self, m.lt_succ_self, hend hnone hnone', fun i _ _ => by omega,
        fun i _ _ => by omega⟩
    · refine ⟨n + (j + 1), m + (k + 1), Nat.lt_add_of_pos_right j.succ_pos,
        Nat.lt_add_of_pos_right k.succ_pos, ?_, quiet_between hx hquiet, quiet_between hy hquiet'⟩
      rw [steps_add, steps_add, hx, hy, Option.bind_some, Option.bind_some, hc, hd]
      exact .some hcd

/-- **What is told of one side** up to any state is what is told of the other up to some state. -/
theorem exists_told (hr : R a b) (n : Nat) :
    ∃ k m, n ≤ k ∧ Option.Rel R (steps step k a) (steps step' m b) ∧
      told (steps step · a) tell k = told (steps step · a) tell n ∧
      told (steps step' · b) tell' m = told (steps step · a) tell n := by
  have hbehind : ∃ k m, n ≤ k ∧ Option.Rel R (steps step k a) (steps step' m b) ∧
      (∀ i, n ≤ i → i < k → (steps step i a).bind tell = none) ∧
      told (steps step' · b) tell' m = told (steps step · a) tell k := by
    induction n with
    | zero => exact ⟨0, 0, le_rfl, .some hr, fun i _ hlt => absurd hlt (Nat.not_lt_zero i), rfl⟩
    | succ n ih =>
      obtain ⟨k, m, hle, hrel, hquiet, htold⟩ := ih
      rcases Nat.lt_or_eq_of_le hle with hlt | rfl
      · exact ⟨k, m, hlt, hrel, fun i hi => hquiet i (Nat.le_of_succ_le hi), htold⟩
      · obtain ⟨k, m', hk, hm, hrel', hquiet, hquiet'⟩ := h.exists_next hrel
        refine ⟨k, m', hk, hrel', hquiet, ?_⟩
        rw [told_of_quiet hk hquiet, told_of_quiet hm hquiet', told_succ, told_succ, htold,
          h.tell_steps hrel]
  obtain ⟨k, m, hle, hrel, hquiet, htold⟩ := hbehind
  have hsame := told_of_quiet hle hquiet
  exact ⟨k, m, hle, hrel, hsame, htold.trans hsame⟩

theorem retells (hr : R a b) : Retells (steps step' · b) tell' (steps step · a) tell := by
  refine ⟨fun n => ?_, fun n hn => ?_⟩
  · obtain ⟨-, m, -, -, -, htold⟩ := h.exists_told hr n
    exact ⟨m, htold⟩
  · obtain ⟨k, m, hle, hrel, -, htold⟩ := h.exists_told hr n
    refine ⟨m, ?_, htold⟩
    obtain ⟨i, rfl⟩ := Nat.exists_eq_add_of_le hle
    rw [steps_add, hn, Option.bind_none] at hrel
    generalize steps step' m b = y at hrel
    cases hrel
    rfl

/-- **The same is told of both sides.** -/
theorem sameTale (hr : R a b) : SameTale (steps step · a) tell (steps step' · b) tell' :=
  ⟨h.retells hr, h.symm.retells hr⟩

end
end Accompanies

/-! ### Incidents -/

/-- **Something done**: a statement performed or a branch tested, with the values read. -/
structure Incident (V : Type) where
  block : BlockId
  kind : Kind
  reads : List V

/-- Whether a block does something. -/
def Kind.acts : Kind → Bool
  | .statement _ => true
  | .branch _ => true
  | _ => false

namespace Graph

variable {V : Type} {I : Interpretation V} {g g' : Graph} {watched : BlockId → Bool}

/-- **What is done at a visit**, for an onlooker who watches some blocks. -/
def incident? (g : Graph) (watched : BlockId → Bool) (u : Visit V) : Option (Incident V) :=
  match g.kind? u.block with
  | some k => if k.acts && watched u.block then some ⟨u.block, k, g.reads u⟩ else none
  | none => none

theorem incident?_congr {u : Visit V} (h : g'.kind? u.block = g.kind? u.block) :
    g.incident? watched u = g'.incident? watched u := by
  rw [incident?, incident?, reads, reads, h]

theorem incident?_empty {u : Visit V} (h : g.kind? u.block = some .empty) :
    g.incident? watched u = none := by
  rw [incident?, h]
  rfl

theorem incident?_unwatched {u : Visit V}
    (h : ∀ {k}, g.kind? u.block = some k → watched u.block = false) :
    g.incident? watched u = none := by
  unfold incident?
  cases hk : g.kind? u.block with
  | none => rfl
  | some k => simp only [h hk, Bool.and_false, Bool.false_eq_true, if_false]

theorem walk_eq_steps (I : Interpretation V) (g : Graph) (σ : Store V) :
    g.walk I σ = (steps (g.advance I) · ⟨entry, σ, []⟩) := by
  funext n
  have h := g.walk_add (I := I) σ 0 n
  rwa [Nat.zero_add] at h

section
variable (hg : g.WellFormed) {step : Visit V → Option (Visit V)}
  (hstep : ∀ u, (step u).map Visit.block = (g.advance I u).map Visit.block)
include hg hstep

/-- Steps from block to block stay among the reachable ones. -/
theorem WellFormed.reachable_of_steps {n : Nat} {u w : Visit V} (hu : g.Reachable u.block)
    (hw : steps step n u = some w) : g.Reachable w.block := by
  induction n generalizing u with
  | zero =>
    cases hw
    exact hu
  | succ n ih =>
    obtain ⟨x, hx, hw⟩ := Option.bind_eq_some_iff.mp hw
    have hblock := hstep u
    rw [hx, Option.map_some, eq_comm, Option.map_eq_some_iff] at hblock
    obtain ⟨y, hy, heq⟩ := hblock
    obtain ⟨k, e, -, he, -⟩ := hg.advanceBy_eq_some_iff.mp hy
    exact ih (heq ▸ hu.step ⟨e, _, he⟩) hw

/-- **A walk is over** if it has reached the exit, and only then. -/
theorem WellFormed.steps_ended_iff {u : Visit V} (hu : g.Reachable u.block) :
    (∃ n, steps step n u = none) ↔ ∃ n w, steps step n u = some w ∧ w.block = exit := by
  have hover : ∀ w, step w = none ↔ g.advance I w = none := fun w => by
    rw [← Option.map_eq_none_iff, hstep, Option.map_eq_none_iff]
  constructor
  · rintro ⟨n, hn⟩
    induction n with
    | zero => cases hn
    | succ n ih =>
      cases hw : steps step n u with
      | none => exact ih hw
      | some w =>
        rw [steps_next, hw, Option.bind_some, hover] at hn
        refine ⟨n, w, hw, (hg.advanceBy_eq_none_iff.mp hn).resolve_left fun hnone => ?_⟩
        obtain ⟨block, hb⟩ := hg.live_of_reachable (hg.reachable_of_steps hstep hu hw)
        rw [kind?_of_block? hb] at hnone
        cases hnone
  · rintro ⟨n, w, hw, hexit⟩
    refine ⟨n + 1, ?_⟩
    rw [steps_next, hw, Option.bind_some, hover]
    exact hg.advanceBy_eq_none_iff.mpr (.inr hexit)

end

theorem WellFormed.walk_ended_iff (hg : g.WellFormed) (σ : Store V) :
    (∃ n, g.walk I σ n = none) ↔ ∃ n u, g.walk I σ n = some u ∧ u.block = exit := by
  rw [walk_eq_steps]
  exact hg.steps_ended_iff (fun _ => rfl) .entry

end Graph
end FlowGraph
