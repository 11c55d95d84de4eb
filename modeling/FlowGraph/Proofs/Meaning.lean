import FlowGraph.Proofs.Wiring
import FlowGraph.Ssa.Leaving

/-! # What graphs mean

A program is written in names: what its literals, operators and functions stand for is an
`Interpretation`.  Given one, and the values that the variables have at the start, a graph is walked
from its entry: a block is performed, control leaves it in the direction that its kind gives, and on
the way into the next block the phi functions there are performed as one parallel assignment.

A walk carries a store, and the list of all that it has shown to the outside: calls with their
arguments, evaluated and returned values, and outcomes of branches.  What a call gives may depend on
that list, so calls may have effects.
-/
namespace FlowGraph

/-- **What a run shows to the outside.** -/
inductive Observation (V : Type) where
  | called (function : String) (args : List V)
  | evaluated (value : V)
  | branched (outcome : Bool)
  | returned (value : V)

/-- **An interpretation** of the names in a program. -/
structure Interpretation (V : Type) where
  literal : Literal → V
  unary : String → V → V
  binary : String → V → V → V
  /-- The outcome of a branch on a value. -/
  truth : V → Bool
  /-- What a call gives, after all that was shown before it. -/
  call : List (Observation V) → String → List V → V

/-- **A store**: the value of every variable. -/
abbrev Store (V : Type) := Var → V

/-- **What a run carries along.** -/
structure Memory (V : Type) where
  store : Store V
  /-- What was shown, oldest first. -/
  shown : List (Observation V)

variable {V : Type}

/-- The store with another value for one variable. -/
def Store.set (σ : Store V) (v : Var) (x : V) : Store V := fun w => if w = v then x else σ w

@[simp] theorem Store.set_self (σ : Store V) (v : Var) (x : V) : σ.set v x v = x := if_pos rfl

theorem Store.set_of_ne (σ : Store V) {v w : Var} (x : V) (h : w ≠ v) : σ.set v x w = σ w :=
  if_neg h

/-! ### Statements and blocks -/

/-- The value of an operand. -/
def Operand.value (I : Interpretation V) (σ : Store V) : Operand → V
  | .var v => σ v
  | .lit l => I.literal l

/-- The value of an expression. -/
def Expr.value (I : Interpretation V) (m : Memory V) : Expr → V
  | .var v => m.store v
  | .lit l => I.literal l
  | .binary op left right => I.binary op (left.value I m.store) (right.value I m.store)
  | .unary op operand => I.unary op (operand.value I m.store)
  | .call function args => I.call m.shown function (args.map (·.value I m.store))

/-- What the evaluation of an expression shows: a call is seen from outside. -/
def Expr.shows (I : Interpretation V) (σ : Store V) : Expr → List (Observation V)
  | .call function args => [.called function (args.map (·.value I σ))]
  | _ => []

/-- The outcome of a branch. -/
def Branch.outcome (I : Interpretation V) (σ : Store V) (b : Branch) : Bool := I.truth (σ b.cond)

/-- Performs a statement.  Labels and jumps do nothing but direct control. -/
def Statement.perform (I : Interpretation V) (m : Memory V) : Statement → Memory V
  | .assign lhs _ rhs => ⟨m.store.set lhs (rhs.value I m), m.shown ++ rhs.shows I m.store⟩
  | .eval e => ⟨m.store, m.shown ++ e.shows I m.store ++ [.evaluated (e.value I m)]⟩
  | .ret x => ⟨m.store, m.shown ++ [.returned (x.value I m.store)]⟩
  | _ => m

/-- Tests the condition of a branch. -/
def Branch.perform (I : Interpretation V) (m : Memory V) (b : Branch) : Memory V :=
  ⟨m.store, m.shown ++ [.branched (b.outcome I m.store)]⟩

namespace Kind

/-- Performs what a block does. -/
def perform (I : Interpretation V) (m : Memory V) : Kind → Memory V
  | .statement s => s.perform I m
  | .branch b => b.perform I m
  | _ => m

/-- The direction in which control leaves a block. -/
def way (I : Interpretation V) (σ : Store V) : Kind → Direction
  | .branch b => .ofOutcome (b.outcome I σ)
  | _ => .always

/-- The variables that a block reads. -/
def uses : Kind → List Var
  | .statement s => s.uses
  | .branch b => [b.cond]
  | _ => []

/-- The variables that a block writes. -/
def defs : Kind → List Var
  | .statement s => s.defs
  | _ => []

theorem ofOutcome_mem_directions (b : Branch) (outcome : Bool) :
    Direction.ofOutcome outcome ∈ (branch b).directions := by
  rw [directions]
  cases outcome <;> decide

theorem way_mem_directions (I : Interpretation V) (σ : Store V) {k : Kind} (h : k ≠ .exit) :
    k.way I σ ∈ k.directions := by
  cases k with
  | exit => exact absurd rfl h
  | branch b => exact ofOutcome_mem_directions b _
  | _ => exact List.mem_singleton.mpr rfl

end Kind

/-! ### Copies -/

namespace Ssa

/-- **Copies one after the other.** -/
def inOrder (copies : List Copy) (σ : Store V) : Store V :=
  copies.foldl (fun σ c => σ.set c.dst (σ c.src)) σ

/-- **Copies all at once**: every source is read before anything is written. -/
def atOnce (copies : List Copy) (σ : Store V) : Store V := fun v =>
  match copies.find? (·.dst = v) with
  | some c => σ c.src
  | none => σ v

@[simp] theorem inOrder_nil (σ : Store V) : inOrder [] σ = σ := rfl

@[simp] theorem inOrder_cons (c : Copy) (cs : List Copy) (σ : Store V) :
    inOrder (c :: cs) σ = inOrder cs (σ.set c.dst (σ c.src)) := rfl

@[simp] theorem atOnce_nil (σ : Store V) : atOnce [] σ = σ := rfl

theorem nodup_dst_of_sorted {cs : List Copy}
    (h : cs.Pairwise fun c c' => c.dst.name < c'.dst.name) : (cs.map Copy.dst).Nodup := by
  refine List.pairwise_map.mpr (h.imp fun {c c'} hlt heq => ?_)
  rw [heq] at hlt
  exact OrderedKey.irrefl hlt

end Ssa

/-- The copies that phi functions stand for on an edge.  One without an argument stands for none. -/
def Phis.copiesFor (ps : Phis) (e : EdgeId) : List Ssa.Copy :=
  ps.toList.filterMap fun (lhs, p) => (p.arg? e).map (⟨lhs, ·⟩)

namespace Phis

variable {ps : Phis} {e : EdgeId}

theorem mem_copiesFor {c : Ssa.Copy} :
    c ∈ ps.copiesFor e ↔ ∃ name p, ps.get? name = some p ∧ c.dst = lhs name p ∧
      p.arg? e = some c.src := by
  simp only [copiesFor, toList, List.filterMap_map, List.mem_filterMap, Function.comp_apply,
    Prod.exists, Option.map_eq_some_iff, OrdMap.get?_eq_some_iff]
  constructor
  · rintro ⟨name, p, hp, w, hw, rfl⟩
    exact ⟨name, p, hp, rfl, hw⟩
  · rintro ⟨name, p, hp, hdst, hw⟩
    exact ⟨name, p, hp, c.src, hw, by rw [← hdst]⟩

/-- The copies come in the order of base names. -/
theorem sorted_copiesFor (ps : Phis) (e : EdgeId) :
    (ps.copiesFor e).Pairwise fun c c' => c.dst.name < c'.dst.name := by
  rw [copiesFor, toList, List.filterMap_map, List.pairwise_filterMap]
  refine ps.sorted.imp fun hlt c hc c' hc' => ?_
  obtain ⟨w, -, rfl⟩ := Option.map_eq_some_iff.mp hc
  obtain ⟨w', -, rfl⟩ := Option.map_eq_some_iff.mp hc'
  exact hlt

theorem nodup_copiesFor (ps : Phis) (e : EdgeId) : ((ps.copiesFor e).map Ssa.Copy.dst).Nodup :=
  Ssa.nodup_dst_of_sorted (ps.sorted_copiesFor e)

variable {V : Type} (σ : Store V)

/-- A phi function gives its variable the value of its argument. -/
theorem atOnce_lhs {name : String} {p : Phi} (hp : ps.get? name = some p) {w : Var}
    (hw : p.arg? e = some w) : Ssa.atOnce (ps.copiesFor e) σ (lhs name p) = σ w := by
  unfold Ssa.atOnce
  cases hf : (ps.copiesFor e).find? (·.dst = lhs name p) with
  | none =>
    have hmem : (⟨lhs name p, w⟩ : Ssa.Copy) ∈ ps.copiesFor e :=
      mem_copiesFor.mpr ⟨name, p, hp, rfl, hw⟩
    simpa using List.find?_eq_none.mp hf _ hmem
  | some c =>
    have hdst : c.dst = lhs name p := by simpa using List.find?_some hf
    obtain ⟨name', p', hp', hdst', hsrc⟩ := mem_copiesFor.mp (List.mem_of_find?_eq_some hf)
    have hname : name' = name := congrArg Var.name (hdst'.symm.trans hdst)
    rw [hname, hp] at hp'
    cases hp'
    rw [hw] at hsrc
    cases hsrc
    rfl

/-- A variable without phi function keeps its value. -/
theorem atOnce_other {v : Var} (h : ps.get? v.name = none) :
    Ssa.atOnce (ps.copiesFor e) σ v = σ v := by
  unfold Ssa.atOnce
  have hf : (ps.copiesFor e).find? (·.dst = v) = none := by
    rw [List.find?_eq_none]
    intro c hc hdst
    obtain ⟨name, p, hp, hdst', -⟩ := mem_copiesFor.mp hc
    have hv : c.dst = v := by simpa using hdst
    have hname : name = v.name := congrArg Var.name (hdst'.symm.trans hv)
    rw [← hname, hp] at h
    cases h
  rw [hf]

end Phis

/-! ### Walks -/

/-- **A visit**: a block that the walk is at, with what it carries when it has entered the block. -/
structure Visit (V : Type) where
  block : BlockId
  memory : Memory V

namespace Graph

/-- The edge by which control leaves a block in a direction, and where it leads. -/
def leads (g : Graph) (b : BlockId) (d : Direction) : Option (EdgeId × BlockId) := do
  let block ← g.block? b
  let e ← block.succs.find? fun e => (g.edge? e).any (·.direction = d)
  let edge ← g.edge? e
  return (e, edge.target)

/-- The copies that the phi functions at the end of an edge stand for. -/
def phiCopies (g : Graph) (e : EdgeId) : List Ssa.Copy :=
  match (g.edge? e).bind fun edge => g.block? edge.target with
  | some block => block.phis.copiesFor e
  | none => []

/-- The phi functions at the end of an edge are those of the block that it enters. -/
theorem phiCopies_eq {g : Graph} {e : EdgeId} {a b : BlockId} {d : Direction} {block : Block}
    (he : g.edge? e = some ⟨a, b, d⟩) (hb : g.block? b = some block) :
    g.phiCopies e = block.phis.copiesFor e := by
  simp only [phiCopies, he, Option.bind_some, hb]

/-- One step of a walk in which something is done to the store on every edge. -/
def advanceBy (I : Interpretation V) (g : Graph) (onEdge : EdgeId → Store V → Store V)
    (v : Visit V) : Option (Visit V) := do
  let k ← g.kind? v.block
  let (e, t) ← g.leads v.block (k.way I v.memory.store)
  let m := k.perform I v.memory
  return ⟨t, onEdge e m.store, m.shown⟩

/-- **One step of a walk.** -/
def advance (I : Interpretation V) (g : Graph) : Visit V → Option (Visit V) :=
  g.advanceBy I fun e => Ssa.atOnce (g.phiCopies e)

/-- **The walk of a graph** from its entry: its visits by number, until it ends. -/
def walk (I : Interpretation V) (g : Graph) (σ : Store V) : Nat → Option (Visit V)
  | 0 => some ⟨entry, σ, []⟩
  | n + 1 => (g.walk I σ n).bind (g.advance I)

/-- The values that a visit reads. -/
def reads (g : Graph) (v : Visit V) : List V :=
  match g.kind? v.block with
  | some k => k.uses.map v.memory.store
  | none => []

/-- The values that a visit writes. -/
def writes (I : Interpretation V) (g : Graph) (v : Visit V) : List V :=
  match g.kind? v.block with
  | some k => k.defs.map (k.perform I v.memory).store
  | none => []

namespace WellFormed
variable {g : Graph}

/-- In a well-formed graph control is known from the table of edges. -/
theorem leads_iff (hg : g.WellFormed) {b t : BlockId} {d : Direction} {e : EdgeId} :
    g.leads b d = some (e, t) ↔ g.edge? e = some ⟨b, t, d⟩ := by
  constructor
  · intro h
    simp only [leads, Option.bind_eq_bind, Option.bind_eq_some_iff, Option.pure_def,
      Option.some.injEq, Prod.mk.injEq] at h
    obtain ⟨block, hb, e', hfind, ⟨s, t', d'⟩, hedge, rfl, rfl⟩ := h
    have hd := List.find?_some hfind
    have hs : s = b := hg.listed.source_eq hb (List.mem_of_find?_eq_some hfind) hedge
    rw [hedge, Option.any_some, decide_eq_true_eq] at hd
    rw [hedge, hs, ← hd]
  · intro h
    obtain ⟨block, hb⟩ := hg.listed.source_live h
    have hfind : block.succs.find? (fun e => (g.edge? e).any (·.direction = d)) = some e := by
      cases hf : block.succs.find? (fun e => (g.edge? e).any (·.direction = d)) with
      | none =>
        have := List.find?_eq_none.mp hf e ((hg.listed.mem_succs hb e).mpr ⟨_, h, rfl⟩)
        simp [h] at this
      | some e' =>
        have hd := List.find?_some hf
        obtain ⟨⟨s, t', d'⟩, hedge, rfl⟩ :=
          (hg.listed.mem_succs hb e').mp (List.mem_of_find?_eq_some hf)
        rw [hedge] at hd
        simp only [Option.any_some, decide_eq_true_eq] at hd
        subst hd
        rw [hg.edge_unique hedge h]
    simp only [leads, hb, hfind, h, Option.bind_eq_bind, Option.bind_some, Option.pure_def]

/-- Control leaves every block but the exit in the direction that its kind gives. -/
theorem exists_leads (hg : g.WellFormed) {b : BlockId} {k : Kind} (hk : g.kind? b = some k)
    (hne : k ≠ .exit) {d : Direction} (hd : d ∈ k.directions) :
    ∃ e t, g.leads b d = some (e, t) := by
  obtain ⟨e, t, h⟩ := (hg.wired.ways hk hne d).mpr hd
  exact ⟨e, t, hg.leads_iff.mpr h⟩

/-- **What a step does**, in a well-formed graph. -/
theorem advanceBy_eq_some_iff (hg : g.WellFormed) {I : Interpretation V}
    {onEdge : EdgeId → Store V → Store V} {v w : Visit V} :
    g.advanceBy I onEdge v = some w ↔ ∃ k e, g.kind? v.block = some k ∧
      g.edge? e = some ⟨v.block, w.block, k.way I v.memory.store⟩ ∧
      w.memory = ⟨onEdge e (k.perform I v.memory).store, (k.perform I v.memory).shown⟩ := by
  simp only [advanceBy, Option.bind_eq_bind, Option.bind_eq_some_iff, Option.pure_def, Prod.exists,
    Option.some.injEq]
  constructor
  · rintro ⟨k, hk, e, t, hl, rfl⟩
    exact ⟨k, e, hk, hg.leads_iff.mp hl, rfl⟩
  · rintro ⟨k, e, hk, he, hm⟩
    refine ⟨k, hk, e, w.block, hg.leads_iff.mpr he, ?_⟩
    rw [← hm]

/-- A walk goes on from every block but the exit. -/
theorem exists_advanceBy (hg : g.WellFormed) (I : Interpretation V)
    (onEdge : EdgeId → Store V → Store V) {v : Visit V} {k : Kind} (hk : g.kind? v.block = some k)
    (hne : k ≠ .exit) : ∃ w, g.advanceBy I onEdge v = some w := by
  obtain ⟨e, t, hl⟩ := hg.exists_leads hk hne (Kind.way_mem_directions I v.memory.store hne)
  exact ⟨⟨t, _⟩, hg.advanceBy_eq_some_iff.mpr ⟨k, e, hk, hg.leads_iff.mp hl, rfl⟩⟩

/-- A walk ends at the exit only. -/
theorem advanceBy_eq_none_iff (hg : g.WellFormed) {I : Interpretation V}
    {onEdge : EdgeId → Store V → Store V} {v : Visit V} :
    g.advanceBy I onEdge v = none ↔ g.kind? v.block = none ∨ v.block = exit := by
  constructor
  · intro h
    cases hk : g.kind? v.block with
    | none => exact .inl rfl
    | some k =>
      right
      by_cases hx : k = .exit
      · exact hg.exit_only (hx ▸ hk)
      · obtain ⟨w, hw⟩ := hg.exists_advanceBy I onEdge hk hx
        rw [h] at hw
        cases hw
  · rintro (hk | hx)
    · simp [advanceBy, hk]
    · cases h : g.advanceBy I onEdge v with
      | none => rfl
      | some w =>
        obtain ⟨k, e, -, he, -⟩ := hg.advanceBy_eq_some_iff.mp h
        exact absurd hx (hg.wired.exit_closed he)

end WellFormed
end Graph
end FlowGraph
