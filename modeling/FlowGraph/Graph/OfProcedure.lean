import FlowGraph.Graph.Tables

/-! # The graph of a statement list

The graph of a procedure (`new` of `Cfg`).  It starts with the two terminal blocks
(`with_terminals`), and statement `i` gets the block in slot `i + 2` behind them (`add_statements`).
Labels and gotos leave empty blocks: all they say is in the edges.  Control falls from a block to
the next one unless it jumps, and from the last block to the exit.
-/
namespace FlowGraph

/-- What the block of a statement does. -/
def Statement.kind : Statement → Kind
  | .label _ => .empty
  | .goto _ => .empty
  | .branch b => .branch b
  | s => .statement s

namespace Graph

/-- Where labels are declared. -/
abbrev LabelTable := List (Label × BlockId)

/-- Collects the labels of the statements from a slot on, in front of those already known.  The
first label that is declared again is a fault. -/
def declareLabels (procedure : String) : Nat → LabelTable → List Statement → Except Fault LabelTable
  | _, table, [] => .ok table
  | slot, table, .label name :: rest =>
    if (table.lookup name).isSome then .error (.duplicateLabel name procedure)
    else declareLabels procedure (slot + 1) ((name, ⟨slot⟩) :: table) rest
  | slot, table, _ :: rest => declareLabels procedure (slot + 1) table rest

/-- The block of a label. -/
def findLabel (table : LabelTable) (label : Label) : Except Fault BlockId :=
  match table.lookup label with
  | some b => .ok b
  | none => .error (.undeclaredLabel label)

/-- The edges out of the statements from a slot on.  The first argument is the block from which
control falls into the first of them, if it does. -/
def flow (table : LabelTable) : Option BlockId → Nat → List Statement → Except Fault (List Edge)
  | above, _, [] => .ok (above.toList.map fun a => ⟨a, exit, .always⟩)
  | above, slot, s :: rest => do
    let b : BlockId := ⟨slot⟩
    let fall := above.toList.map fun a => (⟨a, b, .always⟩ : Edge)
    match s with
    | .goto label =>
      let target ← findLabel table label
      return fall ++ [⟨b, target, .always⟩] ++ (← flow table none (slot + 1) rest)
    | .branch br =>
      let ifTrue ← findLabel table br.ifTrue
      let ifFalse ← findLabel table br.ifFalse
      return fall ++ [⟨b, ifTrue, .onTrue⟩, ⟨b, ifFalse, .onFalse⟩] ++
        (← flow table none (slot + 1) rest)
    | _ => return fall ++ (← flow table (some b) (slot + 1) rest)

/-- **The graph of a procedure.** -/
def ofProcedure (p : Procedure) : Except Fault Graph := do
  let table ← declareLabels p.name 2 [] p.statements
  let edges ← flow table (some entry) 2 p.statements
  let blocks := p.statements.foldl (fun g s => (g.addBlock s.kind).2) (new p.name)
  blocks.connectAll edges

end Graph
end FlowGraph
