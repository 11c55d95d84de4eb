import FlowGraph.Json.Reader
import FlowGraph.Program.Basic

/-! # The JSON form of procedures

A statement is an object whose first member names its kind; the other members follow in a fixed
order.  A choice between shapes, such as that of an expression, is an object with one member.  The
version of a variable is left out when there is none.

Reading accepts more than is written: fields of a record in any order, unknown members, a record as
the array of its fields, a missing or null version and a missing reference mark.  Everything else
has to be as written, and a field given twice is refused.
-/
namespace FlowGraph

/-! ### Writing -/

/-- The JSON form of a variable. -/
def Var.toJson (v : Var) : Json :=
  .obj <| ("name", .str v.name) ::
    match v.version with
    | none => []
    | some n => [("version", .int n)]

/-- The JSON form of a literal. -/
def Literal.toJson : Literal → Json
  | .int n => .obj [("int", .int n.toInt)]
  | .bool b => .obj [("bool", .bool b)]
  | .str s => .obj [("str", .str s)]
  | .nil => .str "nil"

/-- The JSON form of an operand. -/
def Operand.toJson : Operand → Json
  | .var v => .obj [("var", v.toJson)]
  | .lit l => .obj [("lit", l.toJson)]

/-- The JSON form of an expression. -/
def Expr.toJson : Expr → Json
  | .var v => .obj [("var", v.toJson)]
  | .lit l => .obj [("lit", l.toJson)]
  | .binary op left right =>
    .obj [("bin", .obj [("op", .str op), ("left", left.toJson), ("right", right.toJson)])]
  | .unary op operand => .obj [("unary", .obj [("op", .str op), ("operand", operand.toJson)])]
  | .call function args =>
    .obj [("call", .obj [("name", .str function), ("args", .arr (args.map Operand.toJson))])]

/-- The members of a conditional jump. -/
def Branch.members (b : Branch) : List (String × Json) :=
  [("cond", b.cond.toJson), ("iftrue", .str b.ifTrue), ("iffalse", .str b.ifFalse)]

/-- The JSON form of a conditional jump that is not part of a statement. -/
def Branch.toJson (b : Branch) : Json := .obj b.members

/-- The JSON form of a statement. -/
def Statement.toJson : Statement → Json
  | .label name => .obj [("kind", .str "label"), ("name", .str name)]
  | .goto target => .obj [("kind", .str "goto"), ("label", .str target)]
  | .branch b => .obj (("kind", .str "branch") :: b.members)
  | .assign lhs byRef rhs =>
    .obj [("kind", .str "assign_var"), ("lhs", lhs.toJson), ("is_ref", .bool byRef),
      ("rhs", rhs.toJson)]
  | .eval e => .obj [("kind", .str "eval"), ("expr", e.toJson)]
  | .ret value => .obj [("kind", .str "return"), ("value", value.toJson)]

/-- The JSON form of a procedure. -/
def Procedure.toJson (p : Procedure) : Json :=
  .obj [("name", .str p.name), ("statements", .arr (p.statements.map Statement.toJson))]

/-- The compact JSON text of a procedure. -/
def Procedure.write (p : Procedure) : String := p.toJson.compact

/-! ### Reading -/

/-- **How the kind of a statement may be given.**  A text that is read in one pass knows kinds by
name only; a text that may hold one procedure or several is gathered first, and then a kind may also
be given by its place in the list of kinds. -/
inductive KindForm where
  | byName
  | byNameOrPlace
deriving DecidableEq, Repr

namespace Json

/-- A string. -/
def string? : Json → Option String
  | .str s => some s
  | _ => none

/-- A truth value. -/
def bool? : Json → Option Bool
  | .bool b => some b
  | _ => none

/-- The items of an array, each read by `f`. -/
def listOf? {α : Type} (f : Json → Option α) : Json → Option (List α)
  | .arr items => items.mapM f
  | _ => none

/-- An integer of the given range, both ends included. -/
def intBetween? (low high : Int) : Json → Option Int
  | .num n => do
    let i ← n.toInt?
    if low ≤ i ∧ i ≤ high then some i else none
  | _ => none

/-- The two parts of an object with exactly one member. -/
def choice? : Json → Option (String × Json)
  | .obj [(tag, body)] => some (tag, body)
  | _ => none

end Json

/-- Versions have 32 bits. -/
def Var.versionLimit : Int := 4294967295

/-- A version, or null for none. -/
def Var.version? : Json → Option (Option Nat)
  | .null => some none
  | j => (j.intBetween? 0 Var.versionLimit).map fun n => some n.toNat

/-- Reads a variable. -/
def Var.ofJson? (j : Json) : Option Var := do
  match ← j.fields? ["name", "version"] with
  | [some name, none] => return ⟨← name.string?, none⟩
  | [some name, some version] => return ⟨← name.string?, ← Var.version? version⟩
  | _ => none

/-- Reads a literal. -/
def Literal.ofJson? : Json → Option Literal
  | .str tag => if tag = "nil" then some .nil else none
  | j => do
    let (tag, body) ← j.choice?
    if tag = "int" then
      return .int (Int64.ofInt (← body.intBetween? Int64.minValue.toInt Int64.maxValue.toInt))
    else if tag = "bool" then return .bool (← body.bool?)
    else if tag = "str" then return .str (← body.string?)
    else if tag = "nil" then
      match body with
      | .null => return .nil
      | .obj [] => return .nil
      | _ => none
    else none

/-- Reads an operand. -/
def Operand.ofJson? (j : Json) : Option Operand := do
  let (tag, body) ← j.choice?
  if tag = "var" then return .var (← Var.ofJson? body)
  else if tag = "lit" then return .lit (← Literal.ofJson? body)
  else none

/-- Reads an expression. -/
def Expr.ofJson? (j : Json) : Option Expr := do
  let (tag, body) ← j.choice?
  if tag = "var" then return .var (← Var.ofJson? body)
  else if tag = "lit" then return .lit (← Literal.ofJson? body)
  else if tag = "bin" then
    match ← body.fields? ["op", "left", "right"] with
    | [some op, some left, some right] =>
      return .binary (← op.string?) (← Operand.ofJson? left) (← Operand.ofJson? right)
    | _ => none
  else if tag = "unary" then
    match ← body.fields? ["op", "operand"] with
    | [some op, some operand] => return .unary (← op.string?) (← Operand.ofJson? operand)
    | _ => none
  else if tag = "call" then
    match ← body.fields? ["name", "args"] with
    | [some function, some args] =>
      return .call (← function.string?) (← args.listOf? Operand.ofJson?)
    | _ => none
  else none

/-- Reads a conditional jump that is not part of a statement. -/
def Branch.ofJson? (j : Json) : Option Branch := do
  match ← j.fields? ["cond", "iftrue", "iffalse"] with
  | [some cond, some ifTrue, some ifFalse] =>
    return ⟨← Var.ofJson? cond, ← ifTrue.string?, ← ifFalse.string?⟩
  | _ => none

/-- The kinds of statements, in the order of their places. -/
def Statement.kinds : List String := ["label", "goto", "branch", "assign_var", "eval", "return"]

/-- Reads the kind of a statement. -/
def Statement.kind? (form : KindForm) : Json → Option String
  | .str kind => some kind
  | j =>
    match form with
    | .byName => none
    | .byNameOrPlace => do
      let place ← j.intBetween? 0 5
      Statement.kinds[place.toNat]?

/-- Reads the rest of a statement of a known kind. -/
def Statement.ofBody? (kind : String) (body : Json) : Option Statement := do
  if kind = "label" then
    match ← body.fields? ["name"] with
    | [some name] => return .label (← name.string?)
    | _ => none
  else if kind = "goto" then
    match ← body.fields? ["label"] with
    | [some target] => return .goto (← target.string?)
    | _ => none
  else if kind = "branch" then return .branch (← Branch.ofJson? body)
  else if kind = "assign_var" then
    match ← body.fields? ["lhs", "is_ref", "rhs"] with
    | [some lhs, none, some rhs] => return .assign (← Var.ofJson? lhs) false (← Expr.ofJson? rhs)
    | [some lhs, some byRef, some rhs] =>
      return .assign (← Var.ofJson? lhs) (← byRef.bool?) (← Expr.ofJson? rhs)
    | _ => none
  else if kind = "eval" then
    match ← body.fields? ["expr"] with
    | [some e] => return .eval (← Expr.ofJson? e)
    | _ => none
  else if kind = "return" then
    match ← body.fields? ["value"] with
    | [some value] => return .ret (← Operand.ofJson? value)
    | _ => none
  else none

/-- Reads a statement: an object with a kind among its members, or an array with the kind first. -/
def Statement.ofJson? (form : KindForm) : Json → Option Statement
  | .obj members => do
    let kind ← (← Json.field? members "kind")
    Statement.ofBody? (← Statement.kind? form kind) (.obj (members.filter (·.1 ≠ "kind")))
  | .arr (kind :: fields) => do
    Statement.ofBody? (← Statement.kind? form kind) (.arr fields)
  | _ => none

/-- Reads a procedure. -/
def Procedure.ofJson? (form : KindForm) (j : Json) : Option Procedure := do
  match ← j.fields? ["name", "statements"] with
  | [some name, some statements] =>
    return ⟨← name.string?, ← statements.listOf? (Statement.ofJson? form)⟩
  | _ => none

/-- **Reads a text that holds one procedure.**  Members of the procedure other than its name and
statements are not looked into. -/
def Procedure.read (text : String) : Option Procedure := do
  Procedure.ofJson? .byName (← Json.read (fun k => k ≠ "name" ∧ k ≠ "statements") text)

end FlowGraph
