import FlowGraph.Digraph.Named
import FlowGraph.Graph.Rewire
import FlowGraph.Program.Names

/-! # Leaving single assignment form

Every phi function becomes a copy on each edge that enters its block (`convert_out_of_ssa_form`).
The copies of one edge happen at once, so they are put in sequence, as a chain of blocks on the
edge.

Copies are put in an order in which none overwrites what another one still has to read
(`sequentialize_copies`).  In the graph that leads from each destination to its source, a
destination has to come before what it reads; a cycle is opened by saving one of its variables in a
temporary.
-/
namespace FlowGraph
namespace Ssa

/-! ### Parallel copies in sequence -/

/-- **A copy**: a destination and a source. -/
structure Copy where
  dst : Var
  src : Var
deriving DecidableEq, Repr, Inhabited

/-- Adds a copy to the graph, unless it is one of a variable to itself. -/
def addCopy (g : NamedGraph Var) (c : Copy) : NamedGraph Var :=
  if c.dst = c.src then g else g.addEdge c.dst c.src

/-- The graph of copies, those of a variable to itself left out. -/
def copyGraph (copies : List Copy) : NamedGraph Var := copies.foldl addCopy .empty

/-- The copies along a cycle from a variable on, for a number of variables before the last one.  The
last one reads the temporary. -/
def rotate (g : NamedGraph Var) (temporary : Var) : Nat → Var → Except Fault (List Copy)
  | 0, dst => .ok [⟨dst, temporary⟩]
  | n + 1, dst =>
    match g.firstSuccessor? dst with
    | none => .error (.copyCycleWithoutSource dst)
    | some src => return ⟨dst, src⟩ :: (← rotate g temporary n src)

/-- The copies of one component of the graph. -/
def copiesOf (g : NamedGraph Var) (names : NameSupply) :
    List Var → Except Fault (List Copy × NameSupply)
  | [] => .error (.outOfBounds 0 0)
  | [dst] =>
    match g.firstSuccessor? dst with
    | none => .ok ([], names)
    | some src => .ok ([⟨dst, src⟩], names)
  | first :: rest => do
    let (temporary, names) := names.freshTemporary
    let turn ← rotate g temporary rest.length first
    return (⟨temporary, first⟩ :: turn, names)

/-- Puts the copies of one component behind those that are in sequence already. -/
def appendCopies (g : NamedGraph Var) :
    List Copy × NameSupply → List Var → Except Fault (List Copy × NameSupply)
  | (done, names), group => do
    let (more, names) ← copiesOf g names group
    return (done ++ more, names)

/-- **Puts parallel copies in sequence.** -/
def schedule (copies : List Copy) (names : NameSupply) :
    Except Fault (List Copy × NameSupply) :=
  let g := copyGraph copies
  match g.components.inverseOrder with
  | .error _ => .error .copyComponentCycle
  | .ok order => order.reverse.foldlM (appendCopies g) ([], names)

/-! ### Phi functions to copies -/

/-- **The state of the conversion.** -/
structure Leaving where
  /-- How many copies were made. -/
  copies : Nat
  names : NameSupply
  graph : Graph

/-- The copies that the phi functions of a block ask for on an edge. -/
def copiesOn (b : BlockId) (phis : Phis) (e : EdgeId) : Except Fault (List Copy) :=
  phis.toList.mapM fun (lhs, p) =>
    match p.arg? e with
    | some arg => .ok ⟨lhs, arg⟩
    | none => .error (.missingPhiArg lhs p b e)

/-- Puts the next copy of a chain for an edge onto its tail. -/
def spliceNext (e : EdgeId) : EdgeId × Graph → Copy → Run (EdgeId × Graph)
  | (tail, g), c => do
    Run.report (.copied e c.dst c.src)
    g.spliceCopy tail c.dst c.src

/-- Puts a chain of copies onto an edge. -/
def spliceCopies (e : EdgeId) (copies : List Copy) (g : Graph) : Run Graph := do
  let (_, g) ← copies.foldlM (spliceNext e) (e, g)
  return g

/-- Puts the copies for the phi functions of a block onto one of its incoming edges. -/
def leaveEdge (b : BlockId) (phis : Phis) (s : Leaving) (e : EdgeId) : Run Leaving := do
  let (copies, names) ← schedule (← copiesOn b phis e) s.names
  let g ← spliceCopies e copies s.graph
  return ⟨s.copies + copies.length, names, g⟩

/-- Turns the phi functions of a block into copies. -/
def leaveBlock (s : Leaving) (b : BlockId) : Run Leaving := do
  let block ← s.graph.block b
  if block.phis.isEmpty then return s
  else
    let g := s.graph.modifyBlock b fun block => { block with phis := .empty }
    block.preds.foldlM (leaveEdge b block.phis) { s with graph := g }

/-- **Turns all phi functions into copies.** -/
def leave (names : NameSupply) (g : Graph) : Run (NameSupply × Graph) := do
  let s ← g.blockIds.foldlM leaveBlock ⟨0, names, g⟩
  Run.report (.leftSsa g.name s.copies)
  return (s.names, s.graph)

end Ssa
end FlowGraph
