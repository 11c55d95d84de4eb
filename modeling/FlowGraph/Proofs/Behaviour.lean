import FlowGraph.Proofs.Removal
import FlowGraph.Proofs.Steps
import FlowGraph.Graph.OfProcedure

/-! # Behaviour

In a statement list and in a graph alike, control moves from place to place until it is over.  What
is seen of that from outside is how it ends and what it shows: the two together are its behaviour.
A run that never ends is seen through the beginnings of what it shows.

Two systems behave the same if their moves can be matched, any number of moves of one against any
number of moves of the other, as long as neither side stands still (`Simulates.sameBehaviour`).
-/
namespace FlowGraph

/-- **How a run ends.**  A run is lost when it has nowhere to go on. -/
inductive Ending where
  | returned
  | ranOff
  | lost
deriving DecidableEq

/-- **Where control is.** -/
inductive Control (P : Type) where
  | here (place : P)
  | ended (ending : Ending)

/-- **A moment of a run.** -/
structure Moment (P V : Type) where
  control : Control P
  memory : Memory V

/-- **A system in which control moves from place to place.**  What was shown stays shown. -/
structure System (V : Type) where
  Place : Type
  move : Place → Memory V → Moment Place V
  grows : ∀ p m, m.shown <+: (move p m).memory.shown

namespace System

variable {V : Type} {S S' S'' : System V}

/-- The next moment of a run, unless it is over. -/
def next (S : System V) : Moment S.Place V → Option (Moment S.Place V)
  | ⟨.here p, m⟩ => some (S.move p m)
  | ⟨.ended _, _⟩ => none

/-- **A run ends** in some way, and has shown this. -/
def Ends (S : System V) (s : Moment S.Place V) (ending : Ending) (shown : List (Observation V)) :
    Prop :=
  ∃ n m, steps S.next n s = some ⟨.ended ending, m⟩ ∧ m.shown = shown

/-- **A run begins by showing this.** -/
def Shows (S : System V) (s : Moment S.Place V) (shown : List (Observation V)) : Prop :=
  ∃ n t, steps S.next n s = some t ∧ shown <+: t.memory.shown

/-- **Two runs behave the same**: they end in the same ways, and show the same as long as they go
on. -/
structure SameBehaviour (S S' : System V) (s : Moment S.Place V) (s' : Moment S'.Place V) :
    Prop where
  ends_iff : ∀ ending shown, S.Ends s ending shown ↔ S'.Ends s' ending shown
  shows_iff : ∀ shown, S.Shows s shown ↔ S'.Shows s' shown

theorem SameBehaviour.refl (s : Moment S.Place V) : SameBehaviour S S s s :=
  ⟨fun _ _ => .rfl, fun _ => .rfl⟩

theorem SameBehaviour.symm {s : Moment S.Place V} {s' : Moment S'.Place V}
    (h : SameBehaviour S S' s s') : SameBehaviour S' S s' s :=
  ⟨fun ending shown => (h.ends_iff ending shown).symm, fun shown => (h.shows_iff shown).symm⟩

theorem SameBehaviour.trans {s : Moment S.Place V} {s' : Moment S'.Place V}
    {s'' : Moment S''.Place V}
    (h : SameBehaviour S S' s s') (h' : SameBehaviour S' S'' s' s'') : SameBehaviour S S'' s s'' :=
  ⟨fun ending shown => (h.ends_iff ending shown).trans (h'.ends_iff ending shown),
    fun shown => (h.shows_iff shown).trans (h'.shows_iff shown)⟩

/-! ### Runs -/

theorem shown_le_steps {n : Nat} {s t : Moment S.Place V} (h : steps S.next n s = some t) :
    s.memory.shown <+: t.memory.shown := by
  induction n generalizing s with
  | zero =>
    cases h
    exact List.prefix_refl _
  | succ n ih =>
    obtain ⟨⟨p⟩ | ⟨e⟩, m⟩ := s
    · exact (S.grows p m).trans (ih h)
    · cases h

/-- Two stretches of the same run: one of them goes on where the other stops. -/
theorem steps_split {i n : Nat} {s t u : Moment S.Place V} (ht : steps S.next i s = some t)
    (hu : steps S.next n s = some u) :
    (∃ k, n = i + k ∧ steps S.next k t = some u) ∨
      ∃ k, i = n + (k + 1) ∧ steps S.next (k + 1) u = some t := by
  rcases Nat.lt_or_ge n i with hlt | hge
  · obtain ⟨k, rfl⟩ := Nat.exists_eq_add_of_lt hlt
    rw [Nat.add_assoc, steps_add, hu, Option.bind_some] at ht
    exact .inr ⟨k, Nat.add_assoc .., ht⟩
  · obtain ⟨k, rfl⟩ := Nat.exists_eq_add_of_le hge
    rw [steps_add, ht, Option.bind_some] at hu
    exact .inl ⟨k, rfl, hu⟩

theorem steps_here (n : Nat) (p : S.Place) (m : Memory V) :
    steps S.next (n + 1) ⟨.here p, m⟩ = steps S.next n (S.move p m) := rfl

/-- The last move of a run that is over. -/
theorem exists_move_of_ended {n : Nat} {s : Moment S.Place V} {e : Ending} {m : Memory V}
    (h : steps S.next (n + 1) s = some ⟨.ended e, m⟩) :
    ∃ p u, steps S.next n s = some ⟨.here p, u⟩ ∧ S.move p u = ⟨.ended e, m⟩ := by
  rw [steps_next] at h
  obtain ⟨⟨⟨p⟩ | ⟨e'⟩, u⟩, hp, hlast⟩ := Option.bind_eq_some_iff.mp h
  · exact ⟨p, u, hp, Option.some.inj hlast⟩
  · cases hlast

section
variable {keeps : S.Place → Prop}
  (hmoves : ∀ {p m q m'}, keeps p → S.move p m = ⟨.here q, m'⟩ → keeps q)
include hmoves

/-- What the moves keep up is true of every place of a run. -/
theorem keeps_steps {n : Nat} {p q : S.Place} (hp : keeps p) {m m' : Memory V}
    (h : steps S.next n ⟨.here p, m⟩ = some ⟨.here q, m'⟩) : keeps q := by
  induction n generalizing p m with
  | zero =>
    cases h
    exact hp
  | succ n ih =>
    rw [steps_here] at h
    rcases hmove : S.move p m with ⟨⟨p'⟩ | ⟨e⟩, m''⟩
    · rw [hmove] at h
      exact ih (hmoves hp hmove) h
    · rw [hmove] at h
      cases n <;> cases h

/-- **A run that is over** has made its last move from some place.  Whatever the moves keep up is
true of that place. -/
theorem exists_last {n : Nat} {p : S.Place} (hp : keeps p) {m m' : Memory V} {e : Ending}
    (h : steps S.next n ⟨.here p, m⟩ = some ⟨.ended e, m'⟩) :
    ∃ i q u, keeps q ∧ steps S.next i ⟨.here p, m⟩ = some ⟨.here q, u⟩ ∧
      S.move q u = ⟨.ended e, m'⟩ := by
  cases n with
  | zero => cases h
  | succ n =>
    obtain ⟨q, u, hq, hlast⟩ := exists_move_of_ended h
    exact ⟨n, q, u, keeps_steps hmoves hp hq, hq, hlast⟩

end

/-- What a run does is what it does from any later moment on. -/
theorem SameBehaviour.of_steps {n : Nat} {s t : Moment S.Place V} (h : steps S.next n s = some t) :
    SameBehaviour S S s t where
  ends_iff := fun e shown => by
    constructor
    · rintro ⟨k, m, hk, hm⟩
      rcases steps_split h hk with ⟨k', -, hk'⟩ | ⟨k', -, hk'⟩
      · exact ⟨k', m, hk', hm⟩
      · cases hk'
    · rintro ⟨k, m, hk, hm⟩
      exact ⟨n + k, m, by rw [steps_add, h, Option.bind_some, hk], hm⟩
  shows_iff := fun shown => by
    constructor
    · rintro ⟨k, u, hk, hle⟩
      rcases steps_split h hk with ⟨k', -, hk'⟩ | ⟨k', -, hk'⟩
      · exact ⟨k', u, hk', hle⟩
      · exact ⟨0, t, rfl, hle.trans (shown_le_steps hk')⟩
    · rintro ⟨k, u, hk, hle⟩
      exact ⟨n + k, u, by rw [steps_add, h, Option.bind_some, hk], hle⟩

/-! ### Simulation -/

/-- Moments that belong together: places that are related, or the same ending. -/
inductive Linked (R : S.Place → Memory V → S'.Place → Memory V → Prop) :
    Moment S.Place V → Moment S'.Place V → Prop where
  | here {p m p' m'} (h : R p m p' m') : Linked R ⟨.here p, m⟩ ⟨.here p', m'⟩
  | ended {e m m'} (h : m.shown = m'.shown) : Linked R ⟨.ended e, m⟩ ⟨.ended e, m'⟩

theorem Linked.symm {R : S.Place → Memory V → S'.Place → Memory V → Prop}
    {s : Moment S.Place V} {s' : Moment S'.Place V} (h : Linked R s s') :
    Linked (fun p' m' p m => R p m p' m') s' s := by
  cases h with
  | here h => exact .here h
  | ended h => exact .ended h.symm

/-- **A simulation**: related places have shown the same, and from them both systems go on to
moments that belong together. -/
structure Simulates (R : S.Place → Memory V → S'.Place → Memory V → Prop) : Prop where
  shown_eq : ∀ {p m p' m'}, R p m p' m' → m.shown = m'.shown
  goesOn : ∀ {p m p' m'}, R p m p' m' → ∃ i j t t', steps S.next (i + 1) ⟨.here p, m⟩ = some t ∧
    steps S'.next (j + 1) ⟨.here p', m'⟩ = some t' ∧ Linked R t t'

namespace Simulates

variable {R : S.Place → Memory V → S'.Place → Memory V → Prop} {s : Moment S.Place V}
  {s' : Moment S'.Place V}

theorem symm (h : Simulates R) : @Simulates V S' S fun p' m' p m => R p m p' m' where
  shown_eq := fun hr => (h.shown_eq hr).symm
  goesOn := fun hr => by
    obtain ⟨i, j, t, t', ht, ht', hlink⟩ := h.goesOn hr
    exact ⟨j, i, t', t, ht', ht, hlink.symm⟩

theorem linked_shown (h : Simulates R) (hs : Linked R s s') : s.memory.shown = s'.memory.shown := by
  cases hs with
  | here hr => exact h.shown_eq hr
  | ended hm => exact hm

theorem ends (h : Simulates R) {n : Nat} {e : Ending} {m : Memory V}
    (hn : steps S.next n s = some ⟨.ended e, m⟩) (hs : Linked R s s') : S'.Ends s' e m.shown := by
  induction n using Nat.strongRecOn generalizing s s' with
  | ind n ih =>
    cases hs with
    | ended hm =>
      cases n with
      | zero =>
        cases hn
        exact ⟨0, _, rfl, hm.symm⟩
      | succ n => cases hn
    | here hr =>
      obtain ⟨i, j, t, t', ht, ht', hlink⟩ := h.goesOn hr
      -- The run cannot be over before it gets to `t`.
      rcases steps_split ht hn with ⟨k, rfl, hk⟩ | ⟨k, -, hk⟩
      · obtain ⟨n', m', hn', hm'⟩ := ih k (by omega) hk hlink
        refine ⟨j + 1 + n', m', ?_, hm'⟩
        rw [steps_add, ht', Option.bind_some, hn']
      · cases hk

theorem shows (h : Simulates R) {n : Nat} {t : Moment S.Place V} (hn : steps S.next n s = some t)
    (hs : Linked R s s') : S'.Shows s' t.memory.shown := by
  induction n using Nat.strongRecOn generalizing s s' with
  | ind n ih =>
    have hsame := h.linked_shown hs
    cases hs with
    | ended hm =>
      cases n with
      | zero =>
        cases hn
        exact ⟨0, _, rfl, hsame ▸ List.prefix_refl _⟩
      | succ n => cases hn
    | here hr =>
      obtain ⟨i, j, u, u', hu, hu', hlink⟩ := h.goesOn hr
      rcases steps_split hu hn with ⟨k, rfl, hk⟩ | ⟨k, -, hk⟩
      · obtain ⟨n', t', hn', ht'⟩ := ih k (by omega) hk hlink
        refine ⟨j + 1 + n', t', ?_, ht'⟩
        rw [steps_add, hu', Option.bind_some, hn']
      · exact ⟨j + 1, u', hu', h.linked_shown hlink ▸ shown_le_steps hk⟩

/-- **Systems that simulate each other behave the same.** -/
theorem sameBehaviour (h : Simulates R) (hs : Linked R s s') : SameBehaviour S S' s s' where
  ends_iff := fun e shown => by
    constructor
    · rintro ⟨n, m, hn, rfl⟩
      exact h.ends hn hs
    · rintro ⟨n, m, hn, rfl⟩
      exact h.symm.ends hn hs.symm
  shows_iff := fun shown => by
    constructor
    · rintro ⟨n, t, hn, hle⟩
      obtain ⟨n', t', hn', hle'⟩ := h.shows hn hs
      exact ⟨n', t', hn', hle.trans hle'⟩
    · rintro ⟨n, t, hn, hle⟩
      obtain ⟨n', t', hn', hle'⟩ := h.symm.shows hn hs.symm
      exact ⟨n', t', hn', hle.trans hle'⟩

end Simulates
end System

variable {V : Type}

theorem Kind.shown_le_perform (I : Interpretation V) (m : Memory V) (k : Kind) :
    m.shown <+: (k.perform I m).shown := by
  cases k with
  | statement s =>
    cases s with
    | eval e => exact (List.prefix_append ..).trans (List.prefix_append ..)
    | assign lhs byRef rhs => exact List.prefix_append ..
    | ret x => exact List.prefix_append ..
    | _ => exact List.prefix_refl _
  | branch b => exact List.prefix_append ..
  | _ => exact List.prefix_refl _

/-! ### Statement lists -/

namespace Layout

/-- Where a jump leads: to the statements from the declaration of the label on. -/
def jump (all : List Statement) (label : Label) : Control (List Statement) :=
  match all.dropWhile (· ≠ .label label) with
  | [] => .ended .lost
  | rest => .here rest

/-- Where control goes from a statement, in front of the statements `rest`. -/
def onward (I : Interpretation V) (all : List Statement) (σ : Store V) (rest : List Statement) :
    Statement → Control (List Statement)
  | .ret _ => .ended .returned
  | .goto label => jump all label
  | .branch b => jump all (if b.outcome I σ then b.ifTrue else b.ifFalse)
  | _ => .here rest

/-- **A statement list as a system.**  The places are the statements still to come, as far as there
is no jump. -/
def system (I : Interpretation V) (all : List Statement) : System V where
  Place := List Statement
  move
    | [], m => ⟨.ended .ranOff, m⟩
    | s :: rest, m => ⟨onward I all m.store rest s, s.kind.perform I m⟩
  grows
    | [], _ => List.prefix_refl _
    | s :: _, m => s.kind.shown_le_perform I m

/-- A jump leads to the first declaration. -/
theorem jump_of_notMem {front rest : List Statement} {l : Label} (h : .label l ∉ front) :
    jump (front ++ .label l :: rest) l = .here (.label l :: rest) := by
  have hdrop : (front ++ .label l :: rest).dropWhile (· ≠ .label l) = .label l :: rest := by
    rw [List.dropWhile_append_of_pos]
    · simp
    · intro s hs
      exact decide_eq_true fun heq => h (heq ▸ hs)
  rw [jump, hdrop]

/-- A jump is lost, or it leads to a declaration of its label. -/
theorem jump_cases (all : List Statement) (l : Label) :
    all.dropWhile (· ≠ .label l) = [] ∧ jump all l = .ended .lost ∨
      ∃ rest, all.dropWhile (· ≠ .label l) = .label l :: rest ∧
        jump all l = .here (.label l :: rest) := by
  cases hdrop : all.dropWhile (· ≠ .label l) with
  | nil => exact .inl ⟨rfl, by rw [jump, hdrop]⟩
  | cons s rest =>
    have hhead := List.head?_dropWhile_not (· ≠ Statement.label l) all
    rw [hdrop] at hhead
    obtain rfl : s = .label l := by simpa using hhead
    exact .inr ⟨rest, rfl, by rw [jump, hdrop]⟩

theorem move_cons {I : Interpretation V} {all rest : List Statement} {s : Statement} {m : Memory V}
    {c : Control (List Statement)} (h : onward I all m.store rest s = c) :
    (system I all).move (s :: rest) m = ⟨c, s.kind.perform I m⟩ :=
  congrArg (Moment.mk · _) h

end Layout

/-! ### Graphs -/

/-- Whether a block returns. -/
def Kind.isReturn : Kind → Bool
  | .statement (.ret _) => true
  | _ => false

namespace Graph

/-- A move from a block of a graph. -/
def move (I : Interpretation V) (g : Graph) (b : BlockId) (m : Memory V) : Moment BlockId V :=
  match g.kind? b with
  | none => ⟨.ended .lost, m⟩
  | some k =>
    if k.isReturn then ⟨.ended .returned, k.perform I m⟩
    else if k = .exit then ⟨.ended .ranOff, m⟩
    else match g.advance I ⟨b, m⟩ with
      | none => ⟨.ended .lost, m⟩
      | some v => ⟨.here v.block, v.memory⟩

section
variable {I : Interpretation V} {g : Graph} {b : BlockId} {m : Memory V} {k : Kind}

theorem shown_le_advance {v w : Visit V} (h : g.advance I v = some w) :
    v.memory.shown <+: w.memory.shown := by
  simp only [advance, advanceBy, Option.bind_eq_bind, Option.bind_eq_some_iff, Option.pure_def,
    Option.some.injEq] at h
  obtain ⟨k, -, ⟨e, t⟩, -, rfl⟩ := h
  exact k.shown_le_perform I v.memory

theorem shown_le_move : m.shown <+: (g.move I b m).memory.shown := by
  rw [move]
  split
  · exact List.prefix_refl _
  · split
    · exact Kind.shown_le_perform ..
    · split
      · exact List.prefix_refl _
      · split
        · exact List.prefix_refl _
        · rename_i hv
          exact shown_le_advance hv

theorem move_return (hk : g.kind? b = some k) (hr : k.isReturn = true) :
    g.move I b m = ⟨.ended .returned, k.perform I m⟩ := by
  simp only [move, hk, if_pos hr]

theorem move_exit (hk : g.kind? b = some .exit) : g.move I b m = ⟨.ended .ranOff, m⟩ := by
  simp only [move, hk]
  rfl

theorem move_advance (hk : g.kind? b = some k) (hr : k.isReturn = false) (hne : k ≠ .exit)
    {v : Visit V} (hv : g.advance I ⟨b, m⟩ = some v) :
    g.move I b m = ⟨.here v.block, v.memory⟩ := by
  simp only [move, hk, hr, if_neg hne, hv]
  rfl

/-- Without phi functions, a move is performed and goes along the edge in its direction. -/
theorem WellFormed.move_edge (hg : g.WellFormed) (hp : g.PhiFree) (hk : g.kind? b = some k)
    (hr : k.isReturn = false) {e : EdgeId} {t : BlockId}
    (he : g.edge? e = some ⟨b, t, k.way I m.store⟩) : g.move I b m = ⟨.here t, k.perform I m⟩ := by
  have hv : g.advance I ⟨b, m⟩ = some ⟨t, k.perform I m⟩ := by
    rw [hp.advance]
    exact hg.advanceBy_eq_some_iff.mpr ⟨k, e, hk, he, rfl⟩
  exact move_advance hk hr (hg.kind_ne_exit he hk) hv

/-- **What a move does**: it ends the run at a return and at the exit, and goes on from any other
block. -/
theorem WellFormed.move_cases (hg : g.WellFormed) (hk : g.kind? b = some k) (m : Memory V) :
    g.move I b m = ⟨.ended .returned, k.perform I m⟩ ∨ g.move I b m = ⟨.ended .ranOff, m⟩ ∨
      ∃ t k' m', g.kind? t = some k' ∧ g.move I b m = ⟨.here t, m'⟩ := by
  cases hr : k.isReturn with
  | true => exact .inl (move_return hk hr)
  | false =>
    by_cases hne : k = .exit
    · exact .inr (.inl (move_exit (hne ▸ hk)))
    · obtain ⟨v, hv⟩ : ∃ v, g.advance I ⟨b, m⟩ = some v := hg.exists_advanceBy I _ hk hne
      obtain ⟨_, e, -, he, -⟩ := hg.advanceBy_eq_some_iff.mp hv
      obtain ⟨block, hb⟩ : ∃ block, g.block? v.block = some block := hg.listed.target_live he
      exact .inr (.inr ⟨_, _, _, kind?_of_block? hb, move_advance hk hr hne hv⟩)

end

/-- **A graph as a system.**  The places are its blocks; a return ends the run wherever the block
leads. -/
def system (I : Interpretation V) (g : Graph) : System V where
  Place := BlockId
  move := g.move I
  grows := fun _ _ => shown_le_move

/-- **Blocks of the same sort in two graphs**: both end a run in the same way, so a simulation has
to say only how control goes on from them. -/
theorem exists_linked {I : Interpretation V} {g g' : Graph} {b b' : BlockId} {m m' : Memory V}
    {k k' : Kind} {R : BlockId → Memory V → BlockId → Memory V → Prop} (hk : g.kind? b = some k)
    (hk' : g'.kind? b' = some k') (hret : k'.isReturn = k.isReturn) (hexit : k' = .exit ↔ k = .exit)
    (hshown : m.shown = m'.shown) (hperform : (k.perform I m).shown = (k'.perform I m').shown)
    (hgo : k.isReturn = false → k ≠ .exit → ∃ i j t t',
      steps (g.system I).next (i + 1) ⟨.here b, m⟩ = some t ∧
      steps (g'.system I).next (j + 1) ⟨.here b', m'⟩ = some t' ∧
      @System.Linked V (g.system I) (g'.system I) R t t') :
    ∃ i j t t', steps (g.system I).next (i + 1) ⟨.here b, m⟩ = some t ∧
      steps (g'.system I).next (j + 1) ⟨.here b', m'⟩ = some t' ∧
      @System.Linked V (g.system I) (g'.system I) R t t' := by
  cases hr : k.isReturn with
  | true =>
    refine ⟨0, 0, _, _, congrArg some (move_return hk hr),
      congrArg some (move_return hk' (hret.trans hr)), .ended hperform⟩
  | false =>
    by_cases hx : k = .exit
    · subst hx
      obtain rfl := hexit.mpr rfl
      exact ⟨0, 0, _, _, congrArg some (move_exit hk), congrArg some (move_exit hk'), .ended hshown⟩
    · exact hgo hr hx

end Graph
end FlowGraph
