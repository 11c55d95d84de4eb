import FlowGraph.Graph.Traversal
import FlowGraph.Graph.Rewire

/-! # Tidying a graph

Removes what the entry does not reach (`remove_unreachable_raw`), and then every block that does
nothing, until nothing changes any more (`tidy`).  A block with phi functions stays
(`is_removable`), and so does one that jumps to itself (`is_self_loop`).  A branch whose condition
is known loses one of its two edges (`fold_branch`).
-/
namespace FlowGraph
namespace Graph

/-! ### Unreachable blocks -/

/-- The blocks that are not among some others, the terminal ones left out. -/
def outside (g : Graph) (reached : List BlockId) : List BlockId :=
  (g.liveBlocks.filter fun b => !b.kind.isTerminal && b.id ∉ reached).map (·.id)

/-- **Removes every block that the entry does not reach.**  The exit stays in any case.  Gives the
number of blocks removed. -/
def pruneUnreachable (g : Graph) : Run (Nat × Graph) := do
  let dead := g.outside (← g.reachableFromEntry)
  let touched := (← (dead.mapM g.successors : Answer _)).flatten
  let rest ← dead.foldlM (fun g b => do
    Run.report (.removingUnreachable b)
    g.discard b) g
  let rest ← (rest.blockIds.filter (· ∈ touched)).foldlM simplifySolo rest
  return (dead.length, rest)

/-! ### Blocks without effect -/

/-- Whether tidying takes a block out. -/
def isIdle (g : Graph) (b : BlockId) : Answer Bool := do
  let block ← g.block b
  if block.kind.isTerminal || !block.phis.isEmpty || (← g.loopsOnItself b) then
    return false
  else
    let dead := block.preds.isEmpty || block.succs.isEmpty
    if block.kind.isBranch then
      if dead then throw (.branchLostEdges b) else return false
    else return dead || block.kind = .empty

/-- Takes a block out if it is still there and does nothing.  Counts the blocks taken out. -/
def tidyAt : Nat × Graph → BlockId → Run (Nat × Graph)
  | (count, g), b => do
    if g.isLive b then
      if ← g.isIdle b then return (count + 1, ← g.bypass b)
      else return (count, g)
    else return (count, g)

/-- One pass over the blocks present at its start.  Gives the number of blocks removed. -/
def tidyPass (g : Graph) : Run (Nat × Graph) := g.blockIds.foldlM tidyAt (0, g)

/-- Passes until one removes nothing.  The number bounds the passes: each but the last removes a
block. -/
def tidyPasses : Nat → Graph → Run (Nat × Graph)
  | 0, g => return (0, g)
  | fuel + 1, g => do
    let (count, g) ← g.tidyPass
    if count = 0 then return (0, g)
    else
      let (more, g) ← tidyPasses fuel g
      return (count + more, g)

/-- **Removes unreachable blocks and blocks without effect.**  Gives the number of blocks removed.
-/
def tidy (g : Graph) : Run (Nat × Graph) := do
  let (dead, g) ← g.pruneUnreachable
  let (idle, g) ← tidyPasses (g.blocks.size + 1) g
  let count := dead + idle
  if 0 < count then Run.report (.tidied count g.name)
  return (count, g)

/-! ### Branches with a known outcome -/

/-- **Resolves a branch**: its block becomes empty and keeps only the edge for the outcome. -/
def resolveBranch (g : Graph) (b : BlockId) (outcome : Bool) : Run Graph := do
  let kept ← g.directedEdge b (.ofOutcome outcome)
  let dropped ← g.directedEdge b (.ofOutcome !outcome)
  let orphan := (← g.edge dropped).target
  Run.report (.folding b outcome)
  let g ← g.disconnect dropped
  let g ← g.updateEdge kept fun edge => { edge with direction := .always }
  let g ← g.update b fun block => { block with kind := .empty }
  g.simplifySolo orphan

end Graph
end FlowGraph
