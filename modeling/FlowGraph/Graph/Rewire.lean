import FlowGraph.Graph.Tables
import FlowGraph.Run

/-! # Operations on blocks and edges

What the elementary changes are put together to: turning the phi functions of a block with a single
predecessor into copies (`fix_solo_phi_args_raw`), taking a block out and leading its predecessors
past it (`remove_rerouting_raw`), and replacing a block by a chain (`replace_with_chain_raw`).

Taking out a block `b` in front of `s` has to account for the phi functions of both.  A phi function
of `s` keeps its arguments for the edges that do not come from `b`; its argument for the edge from
`b` is passed on to each edge that used to enter `b`, and where that argument was itself defined by
a phi function of `b`, the argument of that one is passed on instead.  A phi function of `b` for a
variable that `s` does not merge moves to `s`, where the variable keeps its value along the edges
that did not come from `b`.
-/
namespace FlowGraph
namespace Graph

/-- **Puts a new block onto an edge.** -/
def splice (g : Graph) (e : EdgeId) (kind : Kind) : Run Spliced := do
  if kind.isBranch || kind.isTerminal then
    Run.fail .unspliceable
  else
    let edge ← g.edge e
    let s ← g.split e kind
    Run.report (.spliced s.block edge.source edge.target)
    return s

/-- Puts a copy statement onto an edge; gives the edge behind it. -/
def spliceCopy (g : Graph) (e : EdgeId) (lhs rhs : Var) : Run (EdgeId × Graph) := do
  let s ← g.splice e (.statement (.copy lhs rhs))
  return (s.tail, s.graph)

/-! ### Solo phi functions -/

/-- The copies that stand for the phi functions of a block with a single predecessor.  A phi
function without an argument, or of a variable by itself, needs none. -/
def soloCopies (ps : Phis) : List (Var × Var) :=
  ps.toList.filterMap fun (lhs, p) => do
    let (_, arg) ← p.args.entries.head?
    if arg = lhs then none else some (lhs, arg)

/-- **Turns the phi functions of a block with a single predecessor into copies** on the edge that
enters it. -/
def simplifySolo (g : Graph) (b : BlockId) : Run Graph := do
  let block ← g.block b
  match block.preds with
  | [e] =>
    let g := g.modifyBlock b fun block => { block with phis := .empty }
    let (_, g) ← (soloCopies block.phis).foldlM (fun (e, g) (lhs, arg) => do
      Run.report (.soloPhi b lhs arg)
      g.spliceCopy e lhs arg) (e, g)
    return g
  | _ => return g

/-! ### Taking a block out -/

/-- The value that a phi function of the successor takes along an edge that used to enter the block
taken out.  `own` is the phi function of the successor, `passed` the one of the block for the same
variable, `link` the edge between the two and `e` the edge that used to enter the block. -/
def passedValue (name : String) (own : Phi) (passed : Option Phi) (link e : EdgeId) : Option Var :=
  match own.arg? link, passed with
  | none, _ => none
  | some arg, none => some arg
  | some arg, some p => if Phis.lhs name p = arg then some ((p.arg? e).getD arg) else some arg

/-- The phi function that the successor gets for a variable, before the link to the block taken out
is gone.  `pairs` are the edges that used to enter the block with their new handles. -/
def mergedPhi (name : String) (own : Phi) (passed : Option Phi) (link : EdgeId)
    (pairs : List (EdgeId × EdgeId)) : Phi :=
  pairs.foldl (fun p (old, new) =>
    match passedValue name own passed link old with
    | some v => p.setArg new v
    | none => p) own

/-- The phi function that moves to the successor: the arguments of the block taken out along the
edges that used to enter it, and the variable itself along all `others`. -/
def movedPhi (name : String) (passed : Phi) (pairs : List (EdgeId × EdgeId))
    (others : List EdgeId) : Phi :=
  let along := pairs.foldl (fun p (old, new) =>
    match passed.arg? old with
    | some v => p.setArg new v
    | none => p) (Phi.new passed.version)
  others.foldl (fun p e => p.setArg e (Phis.lhs name passed)) along

/-- The phi functions of the successor once the block in front of it is bypassed. -/
def bypassedPhis (own passed : Phis) (link : EdgeId) (pairs : List (EdgeId × EdgeId))
    (others : List EdgeId) : Phis :=
  let merged := own.mapValues fun name p => mergedPhi name p (passed.get? name) link pairs
  let moved := passed.entries.filter fun (name, _) => !own.contains name
  moved.foldl (fun ps (name, p) => ps.insert name (movedPhi name p pairs others)) merged

/-- **Takes a block out**, leading its predecessors to its successor. -/
def bypass (g : Graph) (b : BlockId) : Run Graph := do
  let old ← g.block b
  if old.kind.isTerminal then
    Run.fail (.unremovable b)
  else if old.kind.isBranch then
    Run.fail (.unroutable b)
  else if old.succs.isEmpty then
    Run.report (.removingDeadEnd b)
    g.discard b
  else
    let link ← g.onwardEdge b
    let succ := (← g.edge link).target
    if succ = b then
      Run.fail (.ownSuccessor b)
    else if old.preds.isEmpty then
      Run.report (.removingOrphan b succ)
      (← g.discard b).simplifySolo succ
    else
      let others := (← g.block succ).preds.filter (· ≠ link)
      let (pairs, g) ← g.rerouteAll succ old.preds
      let g := g.modifyBlock succ fun s =>
        { s with phis := bypassedPhis s.phis old.phis link pairs others }
      Run.report (.removing b succ)
      (← g.discard b).simplifySolo succ

/-! ### Replacing a block -/

/-- **An element of a replacement chain.** -/
inductive Replacement where
  /-- What the replaced block did. -/
  | itself
  | block (kind : Kind)
deriving DecidableEq, Repr

/-- The kinds of a chain in place of a block of a given kind, which may be used once. -/
def chainKinds (b : BlockId) : Option Kind → List Replacement → Answer (List Kind)
  | _, [] => .ok []
  | own, r :: rest => do
    let (kind, own) ← match r, own with
      | .itself, some kind => pure (kind, none)
      | .itself, none => throw (.repeatedInChain b)
      | .block kind, own => pure (kind, own)
    if kind.isBranch then throw .branchInChain
    else if kind.isTerminal then throw .terminalInChain
    else return kind :: (← chainKinds b own rest)

/-- Adds blocks in a row behind a block; gives their handles. -/
def appendChain (g : Graph) (last : BlockId) : List Kind → Answer (List BlockId × Graph)
  | [] => return ([], g)
  | kind :: rest => do
    let (b, g) := g.addBlock kind
    let (_, g) ← g.connect ⟨last, b, .always⟩
    let (chain, g) ← g.appendChain b rest
    return (b :: chain, g)

/-- Leads the end of a chain to where the replaced block led by the edge `link`. -/
def attachChain (g : Graph) (last : Option BlockId) (link : EdgeId) (succ : BlockId) :
    Answer Graph :=
  match last with
  | none => return g
  | some last => do
    let (tail, g) ← g.connect ⟨last, succ, .always⟩
    let g ← g.update succ fun s => { s with phis := s.phis.map (·.moveArg link tail) }
    g.disconnect link

/-- **Replaces a block by a chain of blocks** that is not empty.  The first of them keeps the
handle, the incoming edges and the phi functions; the last leads to the old successor. -/
def replaceByChain (g : Graph) (b : BlockId) (rs : List Replacement) :
    Run (List BlockId × Graph) := do
  let old ← g.block b
  if old.kind.isTerminal || old.kind.isBranch then
    Run.fail (.irreplaceable old.kind b)
  else
    let link ← g.onwardEdge b
    let succ := (← g.edge link).target
    match ← chainKinds b (some old.kind) rs with
    | [] => return ([b], g)
    | kind :: kinds =>
      let g := g.modifyBlock b fun block => { block with kind }
      let (added, g) ← g.appendChain b kinds
      let g ← g.attachChain added.getLast? link succ
      Run.report (.replaced b (b :: added))
      return (b :: added, g)

end Graph
end FlowGraph
