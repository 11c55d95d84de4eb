import FlowGraph.OrdMap
import FlowGraph.Program.Basic

/-! # Variables and labels

Which variables a statement reads (`uses`) and writes (`defs`) and which labels it jumps to
(`label_refs`), in the order in which they stand in it, and how to replace them (`remap_uses`,
`remap_defs`).  A replacement may carry an effect, such as drawing a fresh version, and the effects
happen in the order of the lists.

A supply (`NameScope`) hands out versions of variables, temporaries and labels that it has not
handed out before (`alloc_version`, `alloc_temp`, `alloc_label`).  Version 0 is never among them: it
stands for the value that a variable has on entry.
-/
namespace FlowGraph
namespace Operand

/-- The variable read, if the operand is one. -/
def uses : Operand → List Var
  | .var v => [v]
  | .lit _ => []

/-- Replaces the variable read. -/
def mapUsesM {m : Type → Type} [Monad m] (f : Var → m Var) : Operand → m Operand
  | .var v => return .var (← f v)
  | .lit l => return .lit l

end Operand

namespace Expr

/-- The variables read, from left to right. -/
def uses : Expr → List Var
  | .var v => [v]
  | .lit _ => []
  | .binary _ left right => left.uses ++ right.uses
  | .unary _ operand => operand.uses
  | .call _ args => args.flatMap Operand.uses

/-- Replaces the variables read, from left to right. -/
def mapUsesM {m : Type → Type} [Monad m] (f : Var → m Var) : Expr → m Expr
  | .var v => return .var (← f v)
  | .lit l => return .lit l
  | .binary op left right => return .binary op (← left.mapUsesM f) (← right.mapUsesM f)
  | .unary op operand => return .unary op (← operand.mapUsesM f)
  | .call function args => return .call function (← args.mapM (Operand.mapUsesM f))

end Expr

/-- Replaces the condition. -/
def Branch.mapUsesM {m : Type → Type} [Monad m] (f : Var → m Var) (b : Branch) : m Branch :=
  return { b with cond := ← f b.cond }

namespace Statement

/-- The variables read. -/
def uses : Statement → List Var
  | .label _ => []
  | .goto _ => []
  | .branch b => [b.cond]
  | .assign _ _ rhs => rhs.uses
  | .eval e => e.uses
  | .ret value => value.uses

/-- The variables written. -/
def defs : Statement → List Var
  | .assign lhs _ _ => [lhs]
  | _ => []

/-- The labels jumped to.  A declaration is no jump. -/
def targets : Statement → List Label
  | .goto target => [target]
  | .branch b => [b.ifTrue, b.ifFalse]
  | _ => []

/-- Replaces the variables read and leaves those written alone. -/
def mapUsesM {m : Type → Type} [Monad m] (f : Var → m Var) : Statement → m Statement
  | .label name => return .label name
  | .goto target => return .goto target
  | .branch b => return .branch (← b.mapUsesM f)
  | .assign lhs byRef rhs => return .assign lhs byRef (← rhs.mapUsesM f)
  | .eval e => return .eval (← e.mapUsesM f)
  | .ret value => return .ret (← value.mapUsesM f)

/-- Replaces the variables written and leaves those read alone. -/
def mapDefsM {m : Type → Type} [Monad m] (f : Var → m Var) : Statement → m Statement
  | .assign lhs byRef rhs => return .assign (← f lhs) byRef rhs
  | s => return s

end Statement

/-! ### Fresh names -/

/-- **A supply of fresh names.**  Its counters are numbers without a bound.  They stand for counters
of 32 bits, on the assumption that none of them overflows: that fewer than 2 ^ 32 versions of each
name and fewer than 2 ^ 32 labels are handed out. -/
structure NameSupply where
  /-- The last version handed out for each base name. -/
  versions : OrdMap String Nat
  /-- How many labels were handed out. -/
  labels : Nat
deriving DecidableEq, Inhabited

namespace NameSupply

/-- The supply that has handed out nothing. -/
def new : NameSupply := ⟨.empty, 0⟩

/-- The base name of temporaries. -/
def temporaryName : String := "__tmp"

/-- The last version handed out for a base name, 0 if there is none. -/
def lastVersion (s : NameSupply) (name : String) : Nat := (s.versions.get? name).getD 0

/-- A fresh version of a variable. -/
def freshVersion (s : NameSupply) (name : String) : Nat × NameSupply :=
  let n := s.lastVersion name + 1
  (n, { s with versions := s.versions.insert name n })

/-- A fresh temporary. -/
def freshTemporary (s : NameSupply) : Var × NameSupply :=
  let (n, s) := s.freshVersion temporaryName
  (.versioned temporaryName n, s)

/-- The label with a given number. -/
def labelNumbered (n : Nat) : Label := "L" ++ Nat.repr n

/-- A fresh label: `L0`, `L1`, and so on. -/
def freshLabel (s : NameSupply) : Label × NameSupply :=
  (labelNumbered s.labels, { s with labels := s.labels + 1 })

end NameSupply
end FlowGraph
