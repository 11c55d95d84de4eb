import FlowGraph.Graph.Basic
import FlowGraph.Program.Names

/-! # What a graph has to satisfy

Three checks, each of which names the first violation that it meets (`CfgError`).  `checkWiring`
(`check_structure`) covers the two tables and what every kind of block demands, `checkEntered`
(`check_connected`) asks in addition that every block between entry and exit can be entered, and
`checkVersions` (`check_in_ssa`) that every variable carries a version.
-/
namespace FlowGraph

/-- **A violated rule.** -/
inductive Violation where
  /-- A block handle is not in use. -/
  | staleBlock (b : BlockId)
  /-- An edge handle is not in use. -/
  | staleEdge (e : EdgeId)
  /-- A block records another handle than that of its slot. -/
  | idMismatch (slot : Nat) (recorded : BlockId)
  /-- A block lists an edge that does not touch it on that side. -/
  | danglingEdge (e : EdgeId) (b : BlockId)
  /-- An end point of an edge does not list it once. -/
  | unlistedEdge (e : EdgeId)
  /-- The entry or exit slot holds a block of another kind. -/
  | wrongTerminal (b : BlockId) (expected : Kind)
  | entryHasPredecessors (b : BlockId)
  | exitHasSuccessors (b : BlockId)
  | malformedBranch (b : BlockId)
  | badOutDegree (b : BlockId) (count : Nat)
  | noPredecessors (b : BlockId)
  /-- A phi function has an argument for an edge that does not enter its block. -/
  | danglingPhiArg (b : BlockId) (name : String) (e : EdgeId)
  | missingVersion (b : BlockId) (v : Var)
deriving DecidableEq, Repr

/-- The wording of a violation. -/
def Violation.message : Violation → String
  | .staleBlock b => "stale block handle " ++ b.text
  | .staleEdge e => "stale edge handle " ++ e.text
  | .idMismatch slot recorded =>
    "block in slot " ++ Nat.repr slot ++ " records id " ++ recorded.text
  | .danglingEdge e b => "edge " ++ e.text ++ " is listed by " ++ b.text ++
    " but does not connect to it"
  | .unlistedEdge e => "edge " ++ e.text ++ " is not listed exactly once by both its endpoints"
  | .wrongTerminal b expected => b.text ++ " is not the " ++ expected.name ++ " block"
  | .entryHasPredecessors b => "entry block " ++ b.text ++ " has predecessors"
  | .exitHasSuccessors b => "exit block " ++ b.text ++ " has successors"
  | .malformedBranch b => "branch block " ++ b.text ++
    " needs exactly one true and one false successor edge"
  | .badOutDegree b count => "block " ++ b.text ++ " has " ++ Nat.repr count ++
    " successor edges, expected one unconditional edge"
  | .noPredecessors b => "block " ++ b.text ++ " has no predecessors"
  | .danglingPhiArg b name e => "phi for " ++ name ++ " in " ++ b.text ++
    " has an argument for edge " ++ e.text ++ ", which does not enter it"
  | .missingVersion b v => "variable " ++ v.text ++ " in " ++ b.text ++
    " carries no SSA version"

/-- The variables of a block, in the order in which they are checked. -/
def Block.occurrences (block : Block) : List Var :=
  let phis := block.phis.toList.flatMap fun (lhs, p) => lhs :: p.args.entries.map (·.2)
  phis ++ match block.kind with
    | .statement s => s.defs ++ s.uses
    | .branch b => [b.cond]
    | _ => []

namespace Graph

/-- A check passes or names a violation. -/
abbrev Verdict := Except Violation Unit

/-- Fails with a violation unless the condition holds. -/
def demand (holds : Bool) (otherwise : Violation) : Verdict :=
  if holds then .ok () else .error otherwise

/-- The block of a handle, which has to be in use. -/
def tryBlock (g : Graph) (b : BlockId) : Except Violation Block :=
  match g.block? b with
  | some block => .ok block
  | none => .error (.staleBlock b)

/-- The edge of a handle, which has to be in use. -/
def tryEdge (g : Graph) (e : EdgeId) : Except Violation Edge :=
  match g.edge? e with
  | some edge => .ok edge
  | none => .error (.staleEdge e)

/-! ### Structure -/

/-- The blocks in use with the numbers of their slots. -/
def liveSlots (g : Graph) : List (Block × Nat) :=
  g.blocks.toList.zipIdx.filterMap fun (b, slot) => b.map (·, slot)

/-- A block records its slot, lists edges that touch it, and has phi arguments for its incoming
edges only. -/
def checkLists (g : Graph) (block : Block) (slot : Nat) : Verdict := do
  demand (block.id.slot = slot) (.idMismatch slot block.id)
  block.preds.forM fun e => do
    demand ((← g.tryEdge e).target = block.id) (.danglingEdge e block.id)
  block.succs.forM fun e => do
    demand ((← g.tryEdge e).source = block.id) (.danglingEdge e block.id)
  block.phis.entries.forM fun (name, phi) =>
    phi.args.keys.forM fun e => demand (e ∈ block.preds) (.danglingPhiArg block.id name e)

/-- An edge joins blocks in use, and each of them lists it once. -/
def checkEdge (g : Graph) (e : EdgeId) (edge : Edge) : Verdict := do
  let source ← g.tryBlock edge.source
  let target ← g.tryBlock edge.target
  demand (source.succs.count e = 1 && target.preds.count e = 1) (.unlistedEdge e)

/-- The two terminal blocks are in place. -/
def checkTerminals (g : Graph) : Verdict := do
  let first ← g.tryBlock entry
  demand (first.kind = .entry) (.wrongTerminal entry .entry)
  demand first.preds.isEmpty (.entryHasPredecessors entry)
  let last ← g.tryBlock exit
  demand (last.kind = .exit) (.wrongTerminal exit .exit)
  demand last.succs.isEmpty (.exitHasSuccessors exit)

/-- A block has the outgoing edges that its kind demands. -/
def checkOutgoing (g : Graph) (block : Block) : Verdict :=
  let directions := block.succs.filterMap fun e => (g.edge? e).map (·.direction)
  match block.kind with
  | .exit => .ok ()
  | .branch _ =>
    demand (directions.length = 2 && .onTrue ∈ directions && .onFalse ∈ directions)
      (.malformedBranch block.id)
  | _ => demand (directions = [.always]) (.badOutDegree block.id directions.length)

/-- **The structural rules.** -/
def checkWiring (g : Graph) : Verdict := do
  g.liveSlots.forM fun (block, slot) => g.checkLists block slot
  g.liveEdges.forM fun (e, edge) => g.checkEdge e edge
  g.checkTerminals
  g.liveBlocks.forM g.checkOutgoing

/-! ### Connection and versions -/

/-- **The structural rules, and every block but the terminal ones has a predecessor.** -/
def checkEntered (g : Graph) : Verdict := do
  g.checkWiring
  g.liveBlocks.forM fun block =>
    demand (block.kind.isTerminal || !block.preds.isEmpty) (.noPredecessors block.id)

/-- **Every variable carries a version**, those of phi functions included. -/
def checkVersions (g : Graph) : Verdict :=
  g.liveBlocks.forM fun block =>
    block.occurrences.forM fun v =>
      demand v.isVersioned (.missingVersion block.id v)

end Graph
end FlowGraph
