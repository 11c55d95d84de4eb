import FlowGraph.Proofs.Behaviour

/-! # Going through a program

What control does in a statement list or in a graph depends on little: what becomes of the memory at
a statement and at the test of a condition, which outcome a test has, and whether a run is over at a
return.  A `Manner` fixes these.  An interpretation is one of them; to follow a given sequence of
outcomes is another.
-/
namespace FlowGraph

/-- **A manner of going through a program.**  What was shown stays shown. -/
structure Manner (V : Type) where
  execute : Statement → Memory V → Memory V
  test : Var → Memory V → Memory V
  outcome : Var → Memory V → Bool
  /-- Whether a return ends a run. -/
  stops : Bool
  grows_execute : ∀ s m, m.shown <+: (execute s m).shown
  grows_test : ∀ cond m, m.shown <+: (test cond m).shown

variable {V : Type}

namespace Manner

/-- What a block does. -/
def perform (M : Manner V) (m : Memory V) : Kind → Memory V
  | .statement s => M.execute s m
  | .branch b => M.test b.cond m
  | _ => m

/-- The direction in which control leaves a block. -/
def way (M : Manner V) (m : Memory V) : Kind → Direction
  | .branch b => .ofOutcome (M.outcome b.cond m)
  | _ => .always

/-- Where control goes from a statement, in front of the statements `rest`. -/
def onward (M : Manner V) (all : List Statement) (m : Memory V) (rest : List Statement) :
    Statement → Control (List Statement)
  | .ret _ => if M.stops then .ended .returned else .here rest
  | .goto label => Layout.jump all label
  | .branch b => Layout.jump all (if M.outcome b.cond m then b.ifTrue else b.ifFalse)
  | _ => .here rest

theorem onward_ret (M : Manner V) (h : M.stops = true) {all rest : List Statement} {m : Memory V}
    {x : Operand} : M.onward all m rest (.ret x) = .ended .returned :=
  if_pos h

theorem onward_passes (M : Manner V) (h : M.stops = false) {all rest : List Statement}
    {m : Memory V} {x : Operand} : M.onward all m rest (.ret x) = .here rest :=
  if_neg (Bool.eq_false_iff.mp h)

theorem shown_le_perform (M : Manner V) (m : Memory V) (k : Kind) :
    m.shown <+: (M.perform m k).shown := by
  cases k with
  | statement s => exact M.grows_execute s m
  | branch b => exact M.grows_test b.cond m
  | _ => exact List.prefix_refl _

theorem way_mem_directions (M : Manner V) (m : Memory V) {k : Kind} (h : k ≠ .exit) :
    M.way m k ∈ k.directions := by
  cases k with
  | exit => exact absurd rfl h
  | branch b => exact Kind.ofOutcome_mem_directions b _
  | _ => exact List.mem_singleton.mpr rfl

end Manner

/-! ### Statement lists -/

namespace Layout

/-- **A statement list as a system**, gone through in some manner. -/
def systemBy (M : Manner V) (all : List Statement) : System V where
  Place := List Statement
  move
    | [], m => ⟨.ended .ranOff, m⟩
    | s :: rest, m => ⟨M.onward all m rest s, M.perform m s.kind⟩
  grows
    | [], _ => List.prefix_refl _
    | s :: _, m => M.shown_le_perform m s.kind

theorem moveBy_cons {M : Manner V} {all rest : List Statement} {s : Statement} {m : Memory V}
    {c : Control (List Statement)} (h : M.onward all m rest s = c) :
    (systemBy M all).move (s :: rest) m = ⟨c, M.perform m s.kind⟩ :=
  congrArg (Moment.mk · _) h

/-- **The same statement in two lists** moves control to places that belong together, if those
behind it do and those that it jumps to. -/
theorem linked_move {M : Manner V} {all all' rest rest' : List Statement} {s : Statement}
    {m : Memory V} {R : List Statement → Memory V → List Statement → Memory V → Prop}
    (hrest : ∀ m, R rest m rest' m)
    (hjump : ∀ l ∈ s.targets, ∀ m, @System.Linked V (systemBy M all) (systemBy M all') R
      ⟨jump all l, m⟩ ⟨jump all' l, m⟩) :
    @System.Linked V (systemBy M all) (systemBy M all') R ((systemBy M all).move (s :: rest) m)
      ((systemBy M all').move (s :: rest') m) := by
  cases s with
  | ret x =>
    cases hstops : M.stops with
    | true =>
      rw [moveBy_cons (M.onward_ret hstops), moveBy_cons (M.onward_ret hstops)]
      exact .ended rfl
    | false =>
      rw [moveBy_cons (M.onward_passes hstops), moveBy_cons (M.onward_passes hstops)]
      exact .here (hrest _)
  | goto l => exact hjump l (List.mem_singleton.mpr rfl) m
  | branch b =>
    refine hjump _ ?_ _
    split
    · exact List.mem_cons_self
    · exact List.mem_cons_of_mem _ List.mem_cons_self
  | _ => exact .here (hrest _)

end Layout

/-! ### Graphs -/

namespace Graph

/-- A move from a block of a graph.  Phi functions are passed over. -/
def moveBy (M : Manner V) (g : Graph) (b : BlockId) (m : Memory V) : Moment BlockId V :=
  match g.kind? b with
  | none => ⟨.ended .lost, m⟩
  | some k =>
    if k.isReturn && M.stops then ⟨.ended .returned, M.perform m k⟩
    else if k = .exit then ⟨.ended .ranOff, m⟩
    else match g.leads b (M.way m k) with
      | none => ⟨.ended .lost, m⟩
      | some (_, t) => ⟨.here t, M.perform m k⟩

section
variable {M : Manner V} {g : Graph} {b : BlockId} {m : Memory V} {k : Kind}

theorem shown_le_moveBy : m.shown <+: (g.moveBy M b m).memory.shown := by
  rw [moveBy]
  split
  · exact List.prefix_refl _
  · split
    · exact M.shown_le_perform ..
    · split
      · exact List.prefix_refl _
      · split
        · exact List.prefix_refl _
        · exact M.shown_le_perform ..

theorem moveBy_return (hk : g.kind? b = some k) (hr : (k.isReturn && M.stops) = true) :
    g.moveBy M b m = ⟨.ended .returned, M.perform m k⟩ := by
  simp only [moveBy, hk, if_pos hr]

theorem moveBy_exit (hk : g.kind? b = some .exit) : g.moveBy M b m = ⟨.ended .ranOff, m⟩ := by
  simp only [moveBy, hk]
  rfl

theorem WellFormed.moveBy_edge (hg : g.WellFormed) (hk : g.kind? b = some k)
    (hr : (k.isReturn && M.stops) = false) {e : EdgeId} {t : BlockId}
    (he : g.edge? e = some ⟨b, t, M.way m k⟩) : g.moveBy M b m = ⟨.here t, M.perform m k⟩ := by
  have hleads := hg.leads_iff.mpr he
  simp only [moveBy, hk, hr, if_neg (hg.kind_ne_exit he hk), hleads]
  rfl

end

/-- **A graph as a system**, gone through in some manner. -/
def systemBy (M : Manner V) (g : Graph) : System V where
  Place := BlockId
  move := g.moveBy M
  grows := fun _ _ => shown_le_moveBy

end Graph

/-! ### Interpretations -/

/-- Systems with the same moves behave the same. -/
theorem System.sameBehaviour_of_move_eq {P : Type} {move move' : P → Memory V → Moment P V}
    {grows : ∀ p m, m.shown <+: (move p m).memory.shown}
    {grows' : ∀ p m, m.shown <+: (move' p m).memory.shown} (h : move = move') (s : Moment P V) :
    SameBehaviour ⟨P, move, grows⟩ ⟨P, move', grows'⟩ s s := by
  subst h
  exact .refl (S := ⟨P, move, grows⟩) s

/-- **To perform a program** as it is interpreted. -/
def Manner.of (I : Interpretation V) : Manner V where
  execute s m := s.perform I m
  test cond m := ⟨m.store, m.shown ++ [.branched (I.truth (m.store cond))]⟩
  outcome cond m := I.truth (m.store cond)
  stops := true
  grows_execute s m := (Kind.statement s).shown_le_perform I m
  grows_test _ _ := List.prefix_append ..

section
variable (I : Interpretation V)

theorem Manner.perform_of (m : Memory V) (k : Kind) :
    (Manner.of I).perform m k = k.perform I m := by
  cases k <;> rfl

theorem Manner.way_of (m : Memory V) (k : Kind) : (Manner.of I).way m k = k.way I m.store := by
  cases k <;> rfl

/-- **A statement list is performed** as it is gone through in the manner of the interpretation. -/
theorem Layout.sameBehaviour_of (all : List Statement) (s : Moment (List Statement) V) :
    System.SameBehaviour (Layout.systemBy (.of I) all) (Layout.system I all) s s := by
  refine System.sameBehaviour_of_move_eq (funext fun rest => funext fun m => ?_) s
  cases rest with
  | nil => rfl
  | cons s rest => cases s <;> rfl

/-- **A graph without phi functions is performed** as it is gone through in the manner of the
interpretation. -/
theorem Graph.PhiFree.sameBehaviour_of {g : Graph} (hp : g.PhiFree) (s : Moment BlockId V) :
    System.SameBehaviour (g.systemBy (.of I)) (g.system I) s s := by
  refine System.sameBehaviour_of_move_eq (funext fun b => funext fun m => ?_) s
  have hstops : (Manner.of I).stops = true := rfl
  rw [moveBy, move, hp.advance]
  cases hk : g.kind? b with
  | none => rfl
  | some k =>
    simp only [Manner.perform_of, Manner.way_of, hstops, Bool.and_true, advanceBy, hk,
      Option.bind_eq_bind, Option.bind_some, Option.pure_def]
    cases g.leads b (k.way I m.store) <;> rfl

end
end FlowGraph
