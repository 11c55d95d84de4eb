import FlowGraph.Proofs.Meaning
import FlowGraph.Ssa.Entering

/-! # Other names for variables

A block in which the variables read and the variable written have been given other names.  The steps
that put versions in force produce exactly such blocks (`renameKind_run`), and a block under other
names does the same to a store in which the values stand under those names (`store_rename`).
-/
namespace FlowGraph

/-- An operand with another name for its variable. -/
def Operand.rename (f : Var → Var) : Operand → Operand
  | .var v => .var (f v)
  | .lit l => .lit l

/-- An expression with other names for its variables. -/
def Expr.rename (f : Var → Var) : Expr → Expr
  | .var v => .var (f v)
  | .lit l => .lit l
  | .binary op left right => .binary op (left.rename f) (right.rename f)
  | .unary op operand => .unary op (operand.rename f)
  | .call function args => .call function (args.map (Operand.rename f))

/-- A statement with other names for the variables that it reads and for the one that it writes. -/
def Statement.rename (use define : Var → Var) : Statement → Statement
  | .branch b => .branch { b with cond := use b.cond }
  | .assign lhs byRef rhs => .assign (define lhs) byRef (rhs.rename use)
  | .eval e => .eval (e.rename use)
  | .ret value => .ret (value.rename use)
  | s => s

/-- A block with other names for the variables that it reads and for the one that it writes. -/
def Kind.rename (use define : Var → Var) : Kind → Kind
  | .statement s => .statement (s.rename use define)
  | .branch b => .branch { b with cond := use b.cond }
  | k => k

variable {use define f : Var → Var}

@[simp] theorem Operand.uses_rename (x : Operand) : (x.rename f).uses = x.uses.map f := by
  cases x <;> rfl

@[simp] theorem Expr.uses_rename (e : Expr) : (e.rename f).uses = e.uses.map f := by
  cases e with
  | binary op left right => simp [rename, uses]
  | unary op operand => simp [rename, uses]
  | call function args => simp [rename, uses, List.flatMap_map, List.map_flatMap]
  | _ => rfl

@[simp] theorem Statement.uses_rename (s : Statement) :
    (s.rename use define).uses = s.uses.map use := by
  cases s <;> simp [rename, uses]

@[simp] theorem Statement.defs_rename (s : Statement) :
    (s.rename use define).defs = s.defs.map define := by
  cases s <;> rfl

namespace Kind

@[simp] theorem uses_rename (k : Kind) : (k.rename use define).uses = k.uses.map use := by
  cases k <;> simp [rename, uses]

@[simp] theorem defs_rename (k : Kind) : (k.rename use define).defs = k.defs.map define := by
  cases k <;> simp [rename, defs]

@[simp] theorem name_rename (k : Kind) : (k.rename use define).name = k.name := by
  cases k <;> rfl

theorem rename_id (k : Kind) : k.rename id id = k := by
  have hx : ∀ x : Operand, x.rename id = x := fun x => by cases x <;> rfl
  have he : ∀ e : Expr, e.rename id = e := fun e => by
    cases e with
    | call function args => rw [Expr.rename, List.map_congr_left fun x _ => hx x, List.map_id']
    | _ => simp [Expr.rename, hx]
  cases k with
  | statement s => cases s <;> simp [rename, Statement.rename, he, hx]
  | _ => rfl

/-- Names given one after the other. -/
theorem rename_rename (use define use' define' : Var → Var) (k : Kind) :
    (k.rename use define).rename use' define' = k.rename (use' ∘ use) (define' ∘ define) := by
  have hx : ∀ x : Operand, (x.rename use).rename use' = x.rename (use' ∘ use) := fun x => by
    cases x <;> rfl
  have he : ∀ e : Expr, (e.rename use).rename use' = e.rename (use' ∘ use) := fun e => by
    cases e <;> simp [Expr.rename, hx]
  cases k with
  | statement s => cases s <;> simp [rename, Statement.rename, he, hx]
  | _ => rfl

/-- A block without variables has none to name. -/
theorem rename_eq_self {k : Kind} (huses : k.uses = []) (hdefs : k.defs = []) :
    k.rename use define = k := by
  have hx : ∀ {x : Operand}, x.uses = [] → x.rename use = x := by
    intro x hx
    cases x with
    | var v => cases hx
    | lit l => rfl
  have he : ∀ {e : Expr}, e.uses = [] → e.rename use = e := by
    intro e he
    cases e with
    | var v => cases he
    | lit l => rfl
    | binary op left right =>
      obtain ⟨hl, hr⟩ := List.append_eq_nil_iff.mp he
      rw [Expr.rename, hx hl, hx hr]
    | unary op operand => rw [Expr.rename, hx he]
    | call function args =>
      have hargs : args.map (Operand.rename use) = args.map id :=
        List.map_congr_left fun x hin => hx (List.flatMap_eq_nil_iff.mp he x hin)
      rw [Expr.rename, hargs, List.map_id]
  cases k with
  | statement s =>
    cases s with
    | branch b => cases huses
    | assign lhs byRef rhs => cases hdefs
    | eval e => rw [rename, Statement.rename, he huses]
    | ret x => rw [rename, Statement.rename, hx huses]
    | _ => rfl
  | branch b => cases huses
  | _ => rfl

end Kind

/-! ### Renaming in the midst of versions -/

namespace Ssa

/-- Looking the variables of an operand up. -/
theorem operand_lookUp (x : Operand) : (x.mapUsesM fun v => lookUp v.name : Renamer Operand) =
    fun s => (x.rename fun v => s.2.current v.name, s) := by
  cases x <;> rfl

theorem operands_lookUp (xs : List Operand) :
    (xs.mapM (Operand.mapUsesM fun v => lookUp v.name) : Renamer (List Operand)) =
      fun s => (xs.map (Operand.rename fun v => s.2.current v.name), s) := by
  induction xs with
  | nil => rfl
  | cons x xs ih =>
    rw [List.mapM_cons, operand_lookUp, ih]
    rfl

theorem expr_lookUp (e : Expr) : (e.mapUsesM fun v => lookUp v.name : Renamer Expr) =
    fun s => (e.rename fun v => s.2.current v.name, s) := by
  cases e with
  | binary op left right =>
    rw [Expr.mapUsesM, operand_lookUp, operand_lookUp]
    rfl
  | unary op operand =>
    rw [Expr.mapUsesM, operand_lookUp]
    rfl
  | call function args =>
    rw [Expr.mapUsesM, operands_lookUp]
    rfl
  | _ => rfl

theorem statement_lookUp (s : Statement) : (s.mapUsesM fun v => lookUp v.name : Renamer Statement) =
    fun st => (s.rename (fun v => st.2.current v.name) id, st) := by
  cases s with
  | assign lhs byRef rhs =>
    rw [Statement.mapUsesM, expr_lookUp]
    rfl
  | eval e =>
    rw [Statement.mapUsesM, expr_lookUp]
    rfl
  | ret x =>
    rw [Statement.mapUsesM, operand_lookUp]
    rfl
  | _ => rfl

/-- What a block defines, with the versions that a supply gives it. -/
def freshDefs (names : NameSupply) (k : Kind) : Versions :=
  k.defs.map fun v => (v.name, names.lastVersion v.name + 1)

/-- The supply after a block has drawn its versions. -/
def namesAfter (names : NameSupply) (k : Kind) : NameSupply :=
  k.defs.foldl (fun names v => (names.freshVersion v.name).2) names

theorem current_cons_self (name : String) (n : Nat) (env : Versions) :
    Versions.current ((name, n) :: env) name = .versioned name n := by
  simp [Versions.current]

/-- **Renaming a block** reads the versions in force and puts its own in force. -/
theorem renameKind_run (k : Kind) (names : NameSupply) (env : Versions) :
    (renameKind k).run (names, env) =
      (k.rename (fun v => env.current v.name)
        (fun v => Versions.current (freshDefs names k ++ env) v.name),
        (namesAfter names k, freshDefs names k ++ env)) := by
  cases k with
  | statement s =>
    rw [renameKind, statement_lookUp]
    cases s with
    | assign lhs byRef rhs =>
      simp only [freshDefs, Kind.defs, Statement.defs, List.map_cons, List.map_nil,
        List.singleton_append, Kind.rename, Statement.rename, current_cons_self]
      rfl
    | _ => rfl
  | _ => rfl

end Ssa

/-! ### What blocks do under other names -/

section Perform
variable {V : Type} {I : Interpretation V}

theorem Operand.value_rename {σ σ' : Store V} (x : Operand) (h : ∀ v ∈ x.uses, σ' (f v) = σ v) :
    (x.rename f).value I σ' = x.value I σ := by
  cases x with
  | var v => exact h v (List.mem_singleton.mpr rfl)
  | lit l => rfl

theorem Expr.args_rename {σ σ' : Store V} {xs : List Operand}
    (h : ∀ v ∈ xs.flatMap Operand.uses, σ' (f v) = σ v) :
    (xs.map (Operand.rename f)).map (·.value I σ') = xs.map (·.value I σ) := by
  rw [List.map_map]
  refine List.map_congr_left fun x hx => ?_
  exact x.value_rename fun v hv => h v (List.mem_flatMap.mpr ⟨x, hx, hv⟩)

theorem Expr.value_rename {m m' : Memory V} (e : Expr) (hshown : m'.shown = m.shown)
    (h : ∀ v ∈ e.uses, m'.store (f v) = m.store v) : (e.rename f).value I m' = e.value I m := by
  cases e with
  | var v => exact h v (List.mem_singleton.mpr rfl)
  | lit l => rfl
  | binary op left right =>
    rw [rename, value, value, left.value_rename fun v hv => h v (List.mem_append_left _ hv),
      right.value_rename fun v hv => h v (List.mem_append_right _ hv)]
  | unary op operand => rw [rename, value, value, operand.value_rename h]
  | call function args => rw [rename, value, value, hshown, args_rename h]

theorem Expr.shows_rename {σ σ' : Store V} (e : Expr) (h : ∀ v ∈ e.uses, σ' (f v) = σ v) :
    (e.rename f).shows I σ' = e.shows I σ := by
  cases e with
  | call function args => rw [rename, shows, shows, args_rename h]
  | _ => rfl

namespace Kind

variable {m m' : Memory V} (k : Kind) (hshown : m'.shown = m.shown)
  (h : ∀ v ∈ k.uses, m'.store (use v) = m.store v)

include h in
theorem way_rename : (k.rename use define).way I m'.store = k.way I m.store := by
  cases k with
  | branch b =>
    simp only [rename, way, Branch.outcome]
    rw [h b.cond (List.mem_singleton.mpr rfl)]
  | _ => rfl

include hshown h

theorem shown_rename :
    ((k.rename use define).perform I m').shown = (k.perform I m).shown := by
  cases k with
  | statement s =>
    cases s with
    | assign lhs byRef rhs =>
      simp only [rename, Statement.rename, perform, Statement.perform]
      rw [hshown, rhs.shows_rename h]
    | eval e =>
      simp only [rename, Statement.rename, perform, Statement.perform]
      rw [hshown, e.shows_rename h, e.value_rename hshown h]
    | ret x =>
      simp only [rename, Statement.rename, perform, Statement.perform]
      rw [hshown, x.value_rename h]
    | _ => exact hshown
  | branch b =>
    simp only [rename, perform, Branch.perform, Branch.outcome]
    rw [hshown, h b.cond (List.mem_singleton.mpr rfl)]
  | _ => exact hshown

/-- The value of a variable after a block, if a variable under another name stood for it before and
the block does not confuse the two. -/
theorem store_rename {v w : Var} (hvw : v ∉ k.defs → m'.store w = m.store v)
    (hdef : ∀ u ∈ k.defs, define u = w ↔ u = v) :
    ((k.rename use define).perform I m').store w = (k.perform I m).store v := by
  cases k with
  | statement s =>
    cases s with
    | assign lhs byRef rhs =>
      simp only [rename, Statement.rename, perform, Statement.perform]
      have hiff := hdef lhs (List.mem_singleton.mpr rfl)
      by_cases heq : lhs = v
      · rw [hiff.mpr heq, heq, Store.set_self, Store.set_self, rhs.value_rename hshown h]
      · rw [Store.set_of_ne _ _ fun hw => heq (hiff.mp hw.symm),
          Store.set_of_ne _ _ (Ne.symm heq)]
        exact hvw fun hin => heq (List.mem_singleton.mp hin).symm
    | _ => exact hvw (List.not_mem_nil)
  | _ => exact hvw (List.not_mem_nil)

end Kind

/-- **Stores that agree** on what a block reads agree on what it does. -/
theorem Kind.perform_congr {m m' : Memory V} (k : Kind) (hshown : m'.shown = m.shown)
    (h : ∀ v ∈ k.uses, m'.store v = m.store v) :
    k.way I m'.store = k.way I m.store ∧ (k.perform I m').shown = (k.perform I m).shown ∧
      ∀ {v}, m'.store v = m.store v → (k.perform I m').store v = (k.perform I m).store v := by
  have hway : (k.rename id id).way I m'.store = k.way I m.store := k.way_rename h
  have hshow : ((k.rename id id).perform I m').shown = (k.perform I m).shown :=
    k.shown_rename hshown h
  have hstore : ∀ {v}, m'.store v = m.store v →
      ((k.rename id id).perform I m').store v = (k.perform I m).store v := fun hv =>
    k.store_rename hshown h (fun _ => hv) fun _ _ => Iff.rfl
  rw [rename_id] at hway hshow
  simp only [rename_id] at hstore
  exact ⟨hway, hshow, hstore⟩

end Perform
end FlowGraph
