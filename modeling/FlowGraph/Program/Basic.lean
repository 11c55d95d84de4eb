import FlowGraph.Text.Quoted

/-! # Procedures

A procedure is a name and a list of statements over named variables.  Control moves from a statement
to the next one unless it jumps to a label.  Operators and called functions are only names here:
what they compute is no concern of this library.

These are `Procedure`, `Statement`, `Branch`, `Expr`, `Rvalue` (an `Operand` here), `Literal`,
`VariableName` (`Var`) and `LabelName` (`Label`), with their text forms: names and labels are
written as they are, and only string literals are quoted.
-/
namespace FlowGraph

/-- **A variable**: a base name, and a version once the variable is in single assignment form. -/
structure Var where
  name : String
  version : Option Nat
deriving DecidableEq, Repr, Inhabited

namespace Var

/-- A variable without a version. -/
def plain (name : String) : Var := ⟨name, none⟩

/-- A given version of a variable. -/
def versioned (name : String) (version : Nat) : Var := ⟨name, some version⟩

/-- Whether the variable carries a version. -/
def isVersioned (v : Var) : Bool := v.version.isSome

end Var

/-- The name of a place in a statement list. -/
abbrev Label := String

/-- **A literal.**  Integers have 64 bits. -/
inductive Literal where
  | int (value : Int64)
  | bool (value : Bool)
  | str (value : String)
  | nil
deriving DecidableEq, Repr, Inhabited

/-- **An operand**: a variable or a literal. -/
inductive Operand where
  | var (v : Var)
  | lit (l : Literal)
deriving DecidableEq, Repr, Inhabited

/-- **An expression** of one operation at most. -/
inductive Expr where
  | var (v : Var)
  | lit (l : Literal)
  | binary (op : String) (left right : Operand)
  | unary (op : String) (operand : Operand)
  | call (function : String) (args : List Operand)
deriving DecidableEq, Repr, Inhabited

/-- **A two-way conditional jump.**  Inside a graph the labels have no meaning, the edges that leave
the block say where control goes. -/
structure Branch where
  cond : Var
  ifTrue : Label
  ifFalse : Label
deriving DecidableEq, Repr, Inhabited

/-- **A statement.** -/
inductive Statement where
  /-- Declares a place to jump to. -/
  | label (name : Label)
  | goto (target : Label)
  | branch (b : Branch)
  /-- Gives a variable the value of an expression, by reference if so marked. -/
  | assign (lhs : Var) (byRef : Bool) (rhs : Expr)
  /-- Evaluates an expression for its effect. -/
  | eval (e : Expr)
  | ret (value : Operand)
deriving DecidableEq, Repr, Inhabited

/-- The statement that copies one variable to another. -/
def Statement.copy (lhs rhs : Var) : Statement := .assign lhs false (.var rhs)

/-- **A procedure.** -/
structure Procedure where
  name : String
  statements : List Statement
deriving DecidableEq, Repr, Inhabited

/-! ### Text -/

/-- `x`, or `x_3` for a version. -/
def Var.text (v : Var) : String :=
  match v.version with
  | none => v.name
  | some n => v.name ++ "_" ++ Nat.repr n

/-- A literal as it stands in a statement. -/
def Literal.text : Literal → String
  | .int n => n.toInt.repr
  | .bool true => "true"
  | .bool false => "false"
  | .str s => Text.quote s
  | .nil => "nil"

/-- An operand as it stands in a statement. -/
def Operand.text : Operand → String
  | .var v => v.text
  | .lit l => l.text

/-- An expression as it stands in a statement. -/
def Expr.text : Expr → String
  | .var v => v.text
  | .lit l => l.text
  | .binary op left right => left.text ++ " " ++ op ++ " " ++ right.text
  | .unary op operand => op ++ operand.text
  | .call function args => function ++ "(" ++ ", ".intercalate (args.map Operand.text) ++ ")"

/-- A conditional jump with both its targets. -/
def Branch.text (b : Branch) : String :=
  "if (" ++ b.cond.text ++ ") goto " ++ b.ifTrue ++ "; else goto " ++ b.ifFalse ++ ";"

/-- One statement. -/
def Statement.text : Statement → String
  | .label name => name ++ ":"
  | .goto target => "goto " ++ target ++ ";"
  | .branch b => b.text
  | .assign lhs true rhs => lhs.text ++ " =& " ++ rhs.text ++ ";"
  | .assign lhs false rhs => lhs.text ++ " = " ++ rhs.text ++ ";"
  | .eval e => e.text ++ ";"
  | .ret value => "return " ++ value.text ++ ";"

/-- A procedure, one statement to a line, without a line end after the closing brace. -/
def Procedure.text (p : Procedure) : String :=
  "procedure " ++ p.name ++ " \x7b\n" ++
    String.join (p.statements.map fun s => "    " ++ s.text ++ "\n") ++ "\x7d"

end FlowGraph
