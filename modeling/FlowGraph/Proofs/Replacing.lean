import FlowGraph.Program.Names
import Mathlib.Data.List.Forall2

/-! # Replacing agrees with listing

The variables of a statement are listed by one function and replaced by another, and the replacement
may carry a state from call to call.  Here the two are compared.  What replacing does to the state
is what calls on the listed variables do, in the order of the list (`Calls`), and the result has the
form of the statement with the answers in the places of the variables (`AlikeButUses`,
`AlikeButDefs`).

A form and the variables in it determine a statement (`AlikeButUses.eq_of_uses`).  So it does not
matter who looks on: a callback that notes what it is called on (`noting`) leads to the same result
as the callback itself, and one that answers with what it was asked changes nothing.
-/
namespace FlowGraph

/-! ### Calls of a callback -/

section
variable {σ : Type}

/-- **Calls in turn**: from the state `st` on, the callback is called on each of some variables,
gives the answers to them and ends in the state `st'`. -/
inductive Calls (f : Var → StateM σ Var) : σ → List Var → List Var → σ → Prop
  | nil (st : σ) : Calls f st [] [] st
  | cons {st st' st'' : σ} {v w : Var} {vs ws : List Var} (head : (f v).run st = (w, st'))
      (tail : Calls f st' vs ws st'') : Calls f st (v :: vs) (w :: ws) st''

/-- The callback that also notes what it is called on. -/
def noting (f : Var → StateM σ Var) (v : Var) : StateM (σ × List Var) Var := fun s =>
  (((f v).run s.1).1, ((f v).run s.1).2, s.2 ++ [v])

namespace Calls

variable {f : Var → StateM σ Var} {st st' st'' : σ} {vs vs' ws ws' : List Var}

theorem single {v w : Var} (h : (f v).run st = (w, st')) : Calls f st [v] [w] st' :=
  .cons h (.nil st')

theorem append (h : Calls f st vs ws st') (h' : Calls f st' vs' ws' st'') :
    Calls f st (vs ++ vs') (ws ++ ws') st'' := by
  induction h with
  | nil _ => exact h'
  | cons head _ ih => exact .cons head (ih h')

/-- The answers are determined, and so is the state in which the calls end. -/
theorem unique (h : Calls f st vs ws st') (h' : Calls f st vs ws' st'') :
    ws = ws' ∧ st' = st'' := by
  induction h generalizing ws' with
  | nil _ =>
    cases h'
    exact ⟨rfl, rfl⟩
  | cons head _ ih =>
    cases h' with
    | cons head' tail' =>
      obtain ⟨rfl, rfl⟩ := Prod.mk.inj (head.symm.trans head')
      obtain ⟨rfl, rfl⟩ := ih tail'
      exact ⟨rfl, rfl⟩

/-- The notes hold what the callback is called on, and do not disturb it. -/
theorem of_noting {log log' : List Var} (h : Calls (noting f) (st, log) vs ws (st', log')) :
    Calls f st vs ws st' ∧ log' = log ++ vs := by
  induction vs generalizing st log ws with
  | nil =>
    cases h
    exact ⟨.nil _, (List.append_nil _).symm⟩
  | cons v vs ih =>
    cases h with
    | cons head tail =>
      obtain ⟨rfl, rfl⟩ := Prod.mk.inj head
      obtain ⟨hcalls, hlog⟩ := ih tail
      exact ⟨.cons rfl hcalls, by rw [hlog, List.append_assoc, List.singleton_append]⟩

/-- A callback that answers with what it is asked. -/
theorem of_pure (h : Calls pure st vs ws st') : ws = vs ∧ st' = st := by
  induction vs generalizing st ws with
  | nil =>
    cases h
    exact ⟨rfl, rfl⟩
  | cons v vs ih =>
    cases h with
    | cons head tail =>
      obtain ⟨rfl, rfl⟩ := Prod.mk.inj head
      obtain ⟨rfl, rfl⟩ := ih tail
      exact ⟨rfl, rfl⟩

end Calls
end

/-! ### Forms -/

/-- Both operands are variables, or both are the same literal. -/
inductive Operand.Alike : Operand → Operand → Prop
  | var (v w : Var) : Alike (.var v) (.var w)
  | lit (l : Literal) : Alike (.lit l) (.lit l)

/-- **Expressions that differ in variables only.** -/
inductive Expr.Alike : Expr → Expr → Prop
  | var (v w : Var) : Alike (.var v) (.var w)
  | lit (l : Literal) : Alike (.lit l) (.lit l)
  | binary (op : String) {left left' right right' : Operand} (hleft : left.Alike left')
      (hright : right.Alike right') : Alike (.binary op left right) (.binary op left' right')
  | unary (op : String) {operand operand' : Operand} (h : operand.Alike operand') :
      Alike (.unary op operand) (.unary op operand')
  | call (function : String) {args args' : List Operand}
      (h : List.Forall₂ Operand.Alike args args') :
      Alike (.call function args) (.call function args')

/-- **Statements that differ in the variables read only**: operators, functions, literals, labels,
marks of reference and the variables written are the same. -/
inductive Statement.AlikeButUses : Statement → Statement → Prop
  | label (name : Label) : AlikeButUses (.label name) (.label name)
  | goto (target : Label) : AlikeButUses (.goto target) (.goto target)
  | branch (v w : Var) (ifTrue ifFalse : Label) :
      AlikeButUses (.branch ⟨v, ifTrue, ifFalse⟩) (.branch ⟨w, ifTrue, ifFalse⟩)
  | assign (lhs : Var) (byRef : Bool) {rhs rhs' : Expr} (h : rhs.Alike rhs') :
      AlikeButUses (.assign lhs byRef rhs) (.assign lhs byRef rhs')
  | eval {e e' : Expr} (h : e.Alike e') : AlikeButUses (.eval e) (.eval e')
  | ret {x x' : Operand} (h : x.Alike x') : AlikeButUses (.ret x) (.ret x')

/-- **Statements that differ in the variable written only.** -/
inductive Statement.AlikeButDefs : Statement → Statement → Prop
  | assign (v w : Var) (byRef : Bool) (rhs : Expr) :
      AlikeButDefs (.assign v byRef rhs) (.assign w byRef rhs)
  | refl (s : Statement) : AlikeButDefs s s

namespace Operand

theorem Alike.refl (x : Operand) : x.Alike x := by
  cases x with
  | var v => exact .var v v
  | lit l => exact .lit l

theorem Alike.length_uses {x y : Operand} (h : x.Alike y) : x.uses.length = y.uses.length := by
  cases h <;> rfl

variable {x y z : Operand} {xs ys zs : List Operand}

theorem Alike.eq_of_uses (h : x.Alike y) (h' : x.Alike z) (huses : y.uses = z.uses) : y = z := by
  cases h with
  | var v w =>
    cases h' with
    | var v w' => rw [List.head_eq_of_cons_eq huses]
  | lit l =>
    cases h'
    rfl

/-- Operands in a list are told apart by the variables in it, since each form says how many of these
are its own. -/
theorem eq_of_flatMap_uses (h : List.Forall₂ Alike xs ys) (h' : List.Forall₂ Alike xs zs)
    (huses : ys.flatMap uses = zs.flatMap uses) : ys = zs := by
  induction h generalizing zs with
  | nil =>
    cases h'
    rfl
  | cons hx _ ih =>
    cases h' with
    | cons hx' htail' =>
      rw [List.flatMap_cons, List.flatMap_cons] at huses
      obtain ⟨hhead, htail⟩ :=
        List.append_inj huses (hx.length_uses.symm.trans hx'.length_uses)
      rw [hx.eq_of_uses hx' hhead, ih htail' htail]

end Operand

theorem Expr.Alike.refl (e : Expr) : e.Alike e := by
  cases e with
  | var v => exact .var v v
  | lit l => exact .lit l
  | binary op left right => exact .binary op (.refl left) (.refl right)
  | unary op operand => exact .unary op (.refl operand)
  | call function args => exact .call function (List.forall₂_same.mpr fun x _ => .refl x)

theorem Expr.Alike.eq_of_uses {e e₁ e₂ : Expr} (h₁ : e.Alike e₁) (h₂ : e.Alike e₂)
    (huses : e₁.uses = e₂.uses) : e₁ = e₂ := by
  cases h₁ with
  | var v w =>
    cases h₂ with
    | var v w' => rw [List.head_eq_of_cons_eq huses]
  | lit l =>
    cases h₂
    rfl
  | binary op hleft hright =>
    cases h₂ with
    | binary op hleft' hright' =>
      obtain ⟨hl, hr⟩ := List.append_inj huses (hleft.length_uses.symm.trans hleft'.length_uses)
      rw [hleft.eq_of_uses hleft' hl, hright.eq_of_uses hright' hr]
  | unary op hx =>
    cases h₂ with
    | unary op hx' => rw [hx.eq_of_uses hx' huses]
  | call function hargs =>
    cases h₂ with
    | call function hargs' => rw [Operand.eq_of_flatMap_uses hargs hargs' huses]

namespace Statement

variable {s s' s₁ s₂ : Statement}

theorem AlikeButUses.refl (s : Statement) : s.AlikeButUses s := by
  cases s with
  | label name => exact .label name
  | goto target => exact .goto target
  | branch b => exact .branch b.cond b.cond b.ifTrue b.ifFalse
  | assign lhs byRef rhs => exact .assign lhs byRef (.refl rhs)
  | eval e => exact .eval (.refl e)
  | ret x => exact .ret (.refl x)

/-- **A form and the variables read determine a statement.** -/
theorem AlikeButUses.eq_of_uses (h₁ : s.AlikeButUses s₁) (h₂ : s.AlikeButUses s₂)
    (huses : s₁.uses = s₂.uses) : s₁ = s₂ := by
  cases h₁ with
  | label name | goto target =>
    cases h₂
    rfl
  | branch v w ifTrue ifFalse =>
    cases h₂ with
    | branch _ w' =>
      obtain rfl : w = w' := List.head_eq_of_cons_eq huses
      rfl
  | assign lhs byRef h =>
    cases h₂ with
    | assign _ _ h' => rw [h.eq_of_uses h' huses]
  | eval h =>
    cases h₂ with
    | eval h' => rw [h.eq_of_uses h' huses]
  | ret h =>
    cases h₂ with
    | ret h' => rw [h.eq_of_uses h' huses]

theorem AlikeButUses.defs_eq (h : s.AlikeButUses s') : s'.defs = s.defs := by
  cases h <;> rfl

theorem AlikeButUses.targets_eq (h : s.AlikeButUses s') : s'.targets = s.targets := by
  cases h <;> rfl

theorem AlikeButDefs.eq_of_defs (h₁ : s.AlikeButDefs s₁) (h₂ : s.AlikeButDefs s₂)
    (hdefs : s₁.defs = s₂.defs) : s₁ = s₂ := by
  cases h₁ with
  | assign v w byRef rhs =>
    cases h₂ with
    | assign _ w' => rw [List.head_eq_of_cons_eq hdefs]
    | refl => rw [List.head_eq_of_cons_eq hdefs]
  | refl =>
    cases h₂ with
    | assign v w' => rw [List.head_eq_of_cons_eq hdefs]
    | refl => rfl

theorem AlikeButDefs.uses_eq (h : s.AlikeButDefs s') : s'.uses = s.uses := by
  cases h <;> rfl

theorem AlikeButDefs.targets_eq (h : s.AlikeButDefs s') : s'.targets = s.targets := by
  cases h <;> rfl

end Statement

/-! ### Replacing, form by form -/

section
variable {σ : Type} (f : Var → StateM σ Var)

theorem Operand.mapUsesM_calls (x : Operand) (st : σ) :
    ∃ x' st', (x.mapUsesM f).run st = (x', st') ∧ Calls f st x.uses x'.uses st' ∧ x.Alike x' := by
  cases x with
  | var v => exact ⟨_, _, rfl, .single rfl, .var ..⟩
  | lit l => exact ⟨_, _, rfl, .nil st, .lit l⟩

theorem Operand.mapM_mapUsesM_calls (xs : List Operand) (st : σ) :
    ∃ xs' st', (xs.mapM (mapUsesM f)).run st = (xs', st') ∧
      Calls f st (xs.flatMap uses) (xs'.flatMap uses) st' ∧ List.Forall₂ Alike xs xs' := by
  induction xs generalizing st with
  | nil => exact ⟨[], st, rfl, .nil st, .nil⟩
  | cons x xs ih =>
    obtain ⟨x', st₁, hx, hcalls, halike⟩ := x.mapUsesM_calls f st
    obtain ⟨xs', st₂, hxs, hcalls', halike'⟩ := ih st₁
    refine ⟨x' :: xs', st₂, ?_, hcalls.append hcalls', .cons halike halike'⟩
    rw [List.mapM_cons, StateT.run_bind, hx]
    show (xs.mapM (mapUsesM f) >>= fun xs' => pure (x' :: xs')).run st₁ = _
    rw [StateT.run_bind, hxs]
    rfl

theorem Expr.mapUsesM_calls (e : Expr) (st : σ) :
    ∃ e' st', (e.mapUsesM f).run st = (e', st') ∧ Calls f st e.uses e'.uses st' ∧ e.Alike e' := by
  cases e with
  | var v => exact ⟨_, _, rfl, .single rfl, .var ..⟩
  | lit l => exact ⟨_, _, rfl, .nil st, .lit l⟩
  | binary op left right =>
    obtain ⟨left', st₁, hleft, hcalls, halike⟩ := left.mapUsesM_calls f st
    obtain ⟨right', st₂, hright, hcalls', halike'⟩ := right.mapUsesM_calls f st₁
    refine ⟨.binary op left' right', st₂, ?_, hcalls.append hcalls', .binary op halike halike'⟩
    rw [mapUsesM, StateT.run_bind, hleft]
    show (right.mapUsesM f >>= fun right' => pure (Expr.binary op left' right')).run st₁ = _
    rw [StateT.run_bind, hright]
    rfl
  | unary op operand =>
    obtain ⟨operand', st₁, hrun, hcalls, halike⟩ := operand.mapUsesM_calls f st
    refine ⟨.unary op operand', st₁, ?_, hcalls, .unary op halike⟩
    rw [mapUsesM, StateT.run_bind, hrun]
    rfl
  | call function args =>
    obtain ⟨args', st₁, hrun, hcalls, halike⟩ := Operand.mapM_mapUsesM_calls f args st
    refine ⟨.call function args', st₁, ?_, hcalls, .call function halike⟩
    rw [mapUsesM, StateT.run_bind, hrun]
    rfl

namespace Statement

/-- **Replacing the variables read** calls on the variables read. -/
theorem mapUsesM_calls (s : Statement) (st : σ) :
    ∃ s' st', (s.mapUsesM f).run st = (s', st') ∧ Calls f st s.uses s'.uses st' ∧
      s.AlikeButUses s' := by
  cases s with
  | label name => exact ⟨_, _, rfl, .nil st, .label name⟩
  | goto target => exact ⟨_, _, rfl, .nil st, .goto target⟩
  | branch b => exact ⟨_, _, rfl, .single rfl, .branch ..⟩
  | assign lhs byRef rhs =>
    obtain ⟨rhs', st₁, hrun, hcalls, halike⟩ := rhs.mapUsesM_calls f st
    refine ⟨.assign lhs byRef rhs', st₁, ?_, hcalls, .assign lhs byRef halike⟩
    rw [mapUsesM, StateT.run_bind, hrun]
    rfl
  | eval e =>
    obtain ⟨e', st₁, hrun, hcalls, halike⟩ := e.mapUsesM_calls f st
    refine ⟨.eval e', st₁, ?_, hcalls, .eval halike⟩
    rw [mapUsesM, StateT.run_bind, hrun]
    rfl
  | ret x =>
    obtain ⟨x', st₁, hrun, hcalls, halike⟩ := x.mapUsesM_calls f st
    refine ⟨.ret x', st₁, ?_, hcalls, .ret halike⟩
    rw [mapUsesM, StateT.run_bind, hrun]
    rfl

/-- A callback that numbers its calls reaches both places of a variable, and in between no literal.
-/
example : ((eval (.call "f" [.var (.plain "x"), .lit .nil, .var (.plain "x")])).mapUsesM
    fun v => do
      let n ← get
      set (n + 1)
      return .versioned v.name n : StateM Nat Statement).run 1 =
    (eval (.call "f" [.var (.versioned "x" 1), .lit .nil, .var (.versioned "x" 2)]), 3) := rfl

/-- **Replacing the variables written** calls on the variables written. -/
theorem mapDefsM_calls (s : Statement) (st : σ) :
    ∃ s' st', (s.mapDefsM f).run st = (s', st') ∧ Calls f st s.defs s'.defs st' ∧
      s.AlikeButDefs s' := by
  cases s with
  | assign lhs byRef rhs => exact ⟨_, _, rfl, .single rfl, .assign ..⟩
  | _ => exact ⟨_, _, rfl, .nil st, .refl _⟩

/-- **Replacing agrees with listing.**  Whatever state the callback carries, replacing the variables
read calls it exactly on these, in their order, the result reads its answers, in the same order, and
everything else of the statement stays; the same holds of the variables written.  A callback that
answers with what it is asked leaves the statement as it is. -/
theorem replacing_agrees_with_listing (s : Statement) (st : σ) :
    (∃ s' st', (s.mapUsesM f).run st = (s', st') ∧
      (s.mapUsesM (noting f)).run (st, []) = (s', st', s.uses) ∧
      Calls f st s.uses s'.uses st' ∧ s.AlikeButUses s' ∧
      s'.defs = s.defs ∧ s'.targets = s.targets) ∧
    (∃ s' st', (s.mapDefsM f).run st = (s', st') ∧
      (s.mapDefsM (noting f)).run (st, []) = (s', st', s.defs) ∧
      Calls f st s.defs s'.defs st' ∧ s.AlikeButDefs s' ∧
      s'.uses = s.uses ∧ s'.targets = s.targets) ∧
    (s.mapUsesM pure : StateM σ Statement).run st = (s, st) ∧
      (s.mapDefsM pure : StateM σ Statement).run st = (s, st) := by
  refine ⟨?_, ?_, ?_, ?_⟩
  · obtain ⟨s', st', hrun, hcalls, halike⟩ := s.mapUsesM_calls f st
    refine ⟨s', st', hrun, ?_, hcalls, halike, halike.defs_eq, halike.targets_eq⟩
    obtain ⟨s₁, ⟨st₁, log⟩, hrun₁, hnoted, halike₁⟩ := s.mapUsesM_calls (noting f) (st, [])
    obtain ⟨hcalls₁, hlog⟩ := hnoted.of_noting
    obtain ⟨huses, rfl⟩ := hcalls.unique hcalls₁
    rw [hrun₁, hlog, List.nil_append, halike.eq_of_uses halike₁ huses]
  · obtain ⟨s', st', hrun, hcalls, halike⟩ := s.mapDefsM_calls f st
    refine ⟨s', st', hrun, ?_, hcalls, halike, halike.uses_eq, halike.targets_eq⟩
    obtain ⟨s₁, ⟨st₁, log⟩, hrun₁, hnoted, halike₁⟩ := s.mapDefsM_calls (noting f) (st, [])
    obtain ⟨hcalls₁, hlog⟩ := hnoted.of_noting
    obtain ⟨hdefs, rfl⟩ := hcalls.unique hcalls₁
    rw [hrun₁, hlog, List.nil_append, halike.eq_of_defs halike₁ hdefs]
  · obtain ⟨s', st', hrun, hcalls, halike⟩ := s.mapUsesM_calls pure st
    obtain ⟨huses, rfl⟩ := hcalls.of_pure
    rw [hrun, halike.eq_of_uses (.refl s) huses]
  · obtain ⟨s', st', hrun, hcalls, halike⟩ := s.mapDefsM_calls pure st
    obtain ⟨hdefs, rfl⟩ := hcalls.of_pure
    rw [hrun, halike.eq_of_defs (.refl s) hdefs]

end Statement
end
end FlowGraph
