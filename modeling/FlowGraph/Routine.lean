import FlowGraph.Dominance
import FlowGraph.Graph.Tables
import FlowGraph.Graph.OfProcedure
import FlowGraph.Graph.Tidy
import FlowGraph.Layout
import FlowGraph.Ssa.Leaving
import FlowGraph.Ssa.Entering
import FlowGraph.Web

/-! # Procedures under transformation

A routine is the graph of a procedure together with its supply of fresh names and with what has been
derived from the graph: its dominators (`compute_dominance`, `dominance`), and its web of
definitions and uses (`def_use`).  Every operation that changes the graph drops what was derived
from it and then checks the graph.

The operations are the batch (`edit`), blocks put onto an edge (`insert_on_edge`, `insert_between`)
and in the place of another (`replace`), phi functions taken out (`remove_phi_nodes`,
`fix_solo_phi_args`), changes within a block (`block_mut`), the two clean-ups (`tidy`,
`fold_branch`) and the conversions (`convert_to_ssa_form`, `rebuild_ssa_form`,
`convert_out_of_ssa_form`).
-/
namespace FlowGraph

/-- **A procedure under transformation.** -/
structure Routine where
  graph : Graph
  /-- Survives conversions, so that no name is handed out twice. -/
  names : NameSupply
  /-- The dominators, if they are known. -/
  dominance : Option Dominance
  /-- The definitions and uses, if they are known. -/
  web : Option Web
deriving DecidableEq, Inhabited

namespace Routine

/-- The routine with another graph, from which nothing has been derived. -/
def withGraph (r : Routine) (g : Graph) : Routine :=
  { r with graph := g, dominance := none, web := none }

/-- The routine with another graph that satisfies the structural rules. -/
def settle (r : Routine) (g : Graph) : Run Routine := do
  g.demandConsistent
  return r.withGraph g

/-- **The routine of a procedure.** -/
def ofProcedure (p : Procedure) : Run Routine := do
  let g ← Graph.ofProcedure p
  Run.report (.built g.name g.liveBlocks.length g.liveEdges.length)
  g.demandConsistent
  return ⟨g, .new, none, none⟩

/-! ### Derived data -/

/-- The dominators, which have to be known. -/
def knownDominance (r : Routine) : Except Fault Dominance :=
  match r.dominance with
  | some d => .ok d
  | none => .error (.dominanceOutOfDate r.graph.name)

/-- **Computes the dominators** whether they are known or not. -/
def refreshDominance (r : Routine) : Run (Dominance × Routine) := do
  let d ← Dominance.ofGraph r.graph
  Run.report (.dominanceComputed r.graph.name d.postorder.length)
  return (d, { r with dominance := some d })

/-- **The dominators**, computed if they are not known. -/
def needDominance (r : Routine) : Run (Dominance × Routine) :=
  match r.dominance with
  | some d => return (d, r)
  | none => r.refreshDominance

/-- Collects the definitions and uses of a graph. -/
def buildWeb (g : Graph) : Run Web := do
  let w := Web.ofGraph g
  Run.report (.webBuilt g.name w.definedVars.length w.usedVars.length)
  return w

/-- **The definitions and uses**, collected if they are not known. -/
def needWeb (r : Routine) : Run (Web × Routine) :=
  match r.web with
  | some w => return (w, r)
  | none => do
    let w ← buildWeb r.graph
    return (w, { r with web := some w })

/-- The immediate dominator of a block. -/
def idom (r : Routine) (b : BlockId) : Except Fault (Option BlockId) := do
  (← r.knownDominance).idomIn r.graph b

/-- The dominance frontier of a block, in the order of slots. -/
def frontier (r : Routine) (b : BlockId) : Except Fault (List BlockId) := do
  (← r.knownDominance).frontierIn r.graph b

/-- The blocks that a block dominates immediately, in the order of slots. -/
def idomChildren (r : Routine) (b : BlockId) : Except Fault (List BlockId) :=
  return (← r.knownDominance).children b

/-- Whether one block dominates another. -/
def dominates (r : Routine) (a b : BlockId) : Except Fault Bool := do
  (← r.knownDominance).dominates r.graph a b

/-! ### Changes of structure -/

/-- **Removes unreachable blocks and blocks without effect**; gives their number. -/
def tidy (r : Routine) : Run (Nat × Routine) := do
  let (count, g) ← r.graph.tidy
  g.demandConnected
  return (count, r.withGraph g)

/-- **Resolves a branch with a known outcome**, and tidies. -/
def resolveBranch (r : Routine) (b : BlockId) (outcome : Bool) : Run Routine := do
  let g ← r.graph.resolveBranch b outcome
  let (_, r) ← { r with graph := g : Routine }.tidy
  return r

/-- **Puts a new block onto an edge.** -/
def putOnEdge (r : Routine) (e : EdgeId) (kind : Kind) : Run (BlockId × Routine) := do
  let s ← r.graph.splice e kind
  return (s.block, ← r.settle s.graph)

/-- **Puts a new block onto the first edge between two blocks.** -/
def putBetween (r : Routine) (source target : BlockId) (kind : Kind) :
    Run (BlockId × Routine) := do
  r.putOnEdge (← r.graph.edgeBetween source target) kind

/-- **Replaces a block by a chain**, or takes it out if the chain is empty.  A chain of nothing but
the block itself changes nothing. -/
def replace (r : Routine) (b : BlockId) (rs : List Graph.Replacement) :
    Run (List BlockId × Routine) :=
  match rs with
  | [.itself] => return ([b], r)
  | [] => do
    let g ← r.graph.bypass b
    return ([], ← r.settle g)
  | rs => do
    let (chain, g) ← r.graph.replaceByChain b rs
    return (chain, ← r.settle g)

/-- **Forgets the phi functions of a block.** -/
def forgetPhis (r : Routine) (b : BlockId) : Run Routine := do
  let _ ← r.graph.block b
  return r.withGraph (r.graph.modifyBlock b fun block => { block with phis := .empty })

/-- **Turns the phi functions of a block with a single predecessor into copies.** -/
def simplifySolo (r : Routine) (b : BlockId) : Run Routine := do
  r.settle (← r.graph.simplifySolo b)

/-- **Runs a batch of changes**, and checks the graph when it is over.  While it runs, what was
derived from the graph stays. -/
def batch {α : Type} (r : Routine) (f : Routine → Run (α × Routine)) : Run (α × Routine) := do
  let (a, inner) ← f r
  return (a, ← inner.settle inner.graph)

/-- One step of a batch. -/
def perform (r : Routine) (s : Graph.Step) : Run (Graph.StepResult × Routine) := do
  let (result, g) ← r.graph.perform s
  return (result, { r with graph := g })

/-- Some steps of a batch, one after the other. -/
def performAll (r : Routine) : List Graph.Step → Run (List Graph.StepResult × Routine)
  | [] => return ([], r)
  | s :: rest => do
    let (result, r) ← r.perform s
    let (results, r) ← r.performAll rest
    return (result :: results, r)

/-- **Runs a batch of given steps.** -/
def runBatch (r : Routine) (steps : List Graph.Step) : Run (List Graph.StepResult × Routine) :=
  r.batch (·.performAll steps)

/-! ### Changes of what a block does

The edges stay as they are, so the dominators do too. -/

/-- The routine with a block changed in itself.  The definitions and uses are forgotten. -/
def changeBlock (r : Routine) (b : BlockId) (f : Block → Option Block) :
    Run (Bool × Routine) := do
  match f (← r.graph.block b) with
  | some block =>
    return (true, { r with graph := r.graph.modifyBlock b fun _ => block, web := none })
  | none => return (false, { r with web := none })

/-- **Gives a statement block another statement**; tells whether the block is one. -/
def setStatement (r : Routine) (b : BlockId) (s : Statement) : Run (Bool × Routine) :=
  r.changeBlock b fun block => match block.kind with
    | .statement _ => some { block with kind := .statement s }
    | _ => none

/-- **Gives a branch block another condition and other labels**; tells whether the block is one. -/
def setBranch (r : Routine) (b : BlockId) (br : Branch) : Run (Bool × Routine) :=
  r.changeBlock b fun block => match block.kind with
    | .branch _ => some { block with kind := .branch br }
    | _ => none

/-- **Gives a branch block another condition**; tells whether the block is one. -/
def setCond (r : Routine) (b : BlockId) (cond : Var) : Run (Bool × Routine) :=
  r.changeBlock b fun block => match block.kind with
    | .branch br => some { block with kind := .branch { br with cond } }
    | _ => none

/-- **Gives the phi function of a variable another version**; tells whether there is one. -/
def setPhiVersion (r : Routine) (b : BlockId) (lhs : Var) : Run (Bool × Routine) :=
  r.changeBlock b fun block =>
    (block.phis.get? lhs.name).map fun p =>
      { block with phis := block.phis.insert lhs.name { p with version := lhs.version } }

/-! ### Single assignment form -/

/-- **Collects the definitions and uses anew.** -/
def rebuildWeb (r : Routine) : Run Routine := do
  let (_, r) ← { r with web := none : Routine }.needWeb
  return r

/-- **Removes the blocks that the entry does not reach**, if there are any. -/
def prune (r : Routine) : Run Routine := do
  let (count, g) ← r.graph.pruneUnreachable
  if 0 < count then r.settle g else return r

/-- **Converts to single assignment form.**  Blocks that the entry does not reach are removed first.
Afterwards every variable has a version, version 0 where nothing defines it. -/
def toSsa (r : Routine) : Run Routine := do
  let r ← r.prune
  let (d, r) ← r.refreshDominance
  let w ← buildWeb r.graph
  let (added, g) ← Ssa.place d w r.graph
  Run.report (.phisInserted added g.name)
  let (names, g) ← Ssa.rename d r.names g
  match g.checkVersions with
  | .error v => Run.fail (.notInSsa g v)
  | .ok _ =>
    g.demandConsistent
    { r with graph := g, names : Routine }.rebuildWeb

/-- **Leaves single assignment form**: phi functions become copies. -/
def outOfSsa (r : Routine) : Run Routine := do
  let (names, g) ← Ssa.leave r.names r.graph
  { r with names : Routine }.settle g

/-- The statement list of the graph. -/
def layOut (r : Routine) : Run (List Statement) := r.graph.layOut

end Routine
end FlowGraph
