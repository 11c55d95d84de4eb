import FlowGraph.Graph.Traversal
import FlowGraph.Graph.Query
import FlowGraph.Program.Names
import FlowGraph.Run

/-! # Laying a graph out as a statement list

Every block gets a label from the supply and an explicit jump (`emit_block`), in the order in which
a search from the entry meets them; the exit comes last (`linearize`).  Then jumps to the next
statement and labels that nothing jumps to are taken out again (`remove_fallthrough_gotos`,
`remove_unused_labels`).
-/
namespace FlowGraph
namespace Layout

/-- Draws a label from a supply for each of some blocks. -/
def drawLabels : NameSupply → List BlockId → List (BlockId × Label)
  | _, [] => []
  | names, b :: bs =>
    let (label, names) := names.freshLabel
    (b, label) :: drawLabels names bs

/-- The labels of the blocks, drawn from a new supply in the order of their slots. -/
def labels (g : Graph) : List (BlockId × Label) := drawLabels .new g.blockIds

/-- The label of a block, which has to have one. -/
def labelFor (table : List (BlockId × Label)) (b : BlockId) : Except Fault Label :=
  match table.lookup b with
  | some label => .ok label
  | none => .error (.unlabelled b)

/-- The statements of a block: its label, what it does, and where control goes. -/
def emit (g : Graph) (table : List (BlockId × Label)) (b : BlockId) :
    Except Fault (List Statement) := do
  let block ← g.block b
  let own : Except Fault Statement := return .label (← labelFor table b)
  let jump : Except Fault Statement := return .goto (← labelFor table (← g.successor b))
  match block.kind with
  | .exit => return []
  | .branch br =>
    let own ← own
    let ifTrue ← labelFor table (← g.branchTarget b true)
    let ifFalse ← labelFor table (← g.branchTarget b false)
    return [own, .branch { br with ifTrue, ifFalse }]
  | .statement s => return [← own, s, ← jump]
  | _ => return [← own, ← jump]

/-- Takes out every jump to the label that follows it. -/
def dropFallthrough : List Statement → List Statement
  | .goto l :: .label m :: rest =>
    if l = m then dropFallthrough (.label m :: rest)
    else .goto l :: dropFallthrough (.label m :: rest)
  | s :: rest => s :: dropFallthrough rest
  | [] => []

/-- The labels that a statement declares or jumps to. -/
def mentioned : Statement → List Label
  | .label name => [name]
  | s => s.targets

/-- Takes out every label that only its own declaration mentions. -/
def dropUnusedLabels (ss : List Statement) : List Statement :=
  let all := ss.flatMap mentioned
  ss.filter fun
    | .label name => all.count name ≠ 1
    | _ => true

end Layout

/-- **The statement list of a graph.**  Phi functions are lost in it. -/
def Graph.layOut (g : Graph) : Run (List Statement) := do
  if g.liveBlocks.any fun b => !b.phis.isEmpty then Run.report (.phisDropped g.name)
  let table := Layout.labels g
  let blocks ← ((← g.layoutFromEntry).mapM (Layout.emit g table) : Except Fault _)
  let full := blocks.flatten ++ [.label (← Layout.labelFor table Graph.exit)]
  return Layout.dropUnusedLabels (Layout.dropFallthrough full)

end FlowGraph
