import FlowGraph.Graph.Query

/-! # Changes to the tables

The elementary changes: adding and removing blocks and edges, giving an edge another target, and
putting a block onto an edge.  Each comes in two forms.  The first is total and says what changes;
at a handle that is not in use it changes nothing.  The second is the one that other operations use:
it looks up every handle that the change touches, and a handle that is not in use is a fault
(`add_edge_raw`, `remove_edge_raw`, `remove_block_raw`, `reroute_raw`, `splice_raw`).

The steps of a batch (`Editor`), from which a caller composes changes of its own, are made of these.
Each checks what it is given; that the graph as a whole is sound is checked once, when the batch is
over.
-/
namespace FlowGraph
namespace Graph

/-- The graph of a procedure with nothing but its two terminal blocks. -/
def new (name : String) : Graph :=
  ⟨name, #[some { id := entry, kind := .entry }, some { id := exit, kind := .exit }], #[]⟩

/-- Changes the record of a block. -/
def modifyBlock (g : Graph) (b : BlockId) (f : Block → Block) : Graph :=
  { g with blocks := g.blocks.modify b.slot (Option.map f) }

/-- Changes the record of an edge. -/
def modifyEdge (g : Graph) (e : EdgeId) (f : Edge → Edge) : Graph :=
  { g with edges := g.edges.modify e.slot (Option.map f) }

/-- Empties the slot of an edge. -/
def clearEdge (g : Graph) (e : EdgeId) : Graph :=
  { g with edges := g.edges.setIfInBounds e.slot none }

/-- Empties the slot of a block. -/
def clearBlock (g : Graph) (b : BlockId) : Graph :=
  { g with blocks := g.blocks.setIfInBounds b.slot none }

/-- Adds a block without edges. -/
def addBlock (g : Graph) (kind : Kind) : BlockId × Graph :=
  let b : BlockId := ⟨g.blocks.size⟩
  (b, { g with blocks := g.blocks.push (some { id := b, kind }) })

/-- Adds an edge that no block lists yet. -/
def addUnlistedEdge (g : Graph) (edge : Edge) : EdgeId × Graph :=
  (⟨g.edges.size⟩, { g with edges := g.edges.push (some edge) })

/-- Adds an edge, last in the lists of both its end points. -/
def addEdge (g : Graph) (edge : Edge) : EdgeId × Graph :=
  let (e, g) := g.addUnlistedEdge edge
  let g := g.modifyBlock edge.source fun b => { b with succs := b.succs ++ [e] }
  (e, g.modifyBlock edge.target fun b => { b with preds := b.preds ++ [e] })

/-- Puts a handle in the place of another in a list. -/
def renameIn (old new : EdgeId) (es : List EdgeId) : List EdgeId :=
  es.map fun e => if e = old then new else e

/-- Removes an edge and the phi arguments for it. -/
def removeEdge (g : Graph) (e : EdgeId) : Graph :=
  match g.edge? e with
  | none => g
  | some edge =>
    let g := g.modifyBlock edge.source fun b => { b with succs := b.succs.filter (· ≠ e) }
    let g := g.modifyBlock edge.target fun b =>
      { b with preds := b.preds.filter (· ≠ e), phis := b.phis.map (·.dropArg e) }
    g.clearEdge e

/-- Removes a block and all edges that touch it. -/
def removeBlock (g : Graph) (b : BlockId) : Graph :=
  match g.block? b with
  | none => g
  | some block => ((block.preds ++ block.succs).foldl removeEdge g).clearBlock b

/-- Leads an edge to another target.  The edge gets a new handle, which takes the place of the old
one at the source and comes last at the new target. -/
def redirect (g : Graph) (e : EdgeId) (edge : Edge) (target : BlockId) : EdgeId × Graph :=
  let (new, g) := g.addUnlistedEdge { edge with target }
  let g := g.modifyBlock edge.source fun b => { b with succs := renameIn e new b.succs }
  let g := g.modifyBlock edge.target fun b => { b with preds := b.preds.filter (· ≠ e) }
  let g := g.modifyBlock target fun b => { b with preds := b.preds ++ [new] }
  (new, g.clearEdge e)

/-- **What putting a block onto an edge gives**: the block, and its edge to the old target. -/
structure Spliced where
  block : BlockId
  tail : EdgeId
  graph : Graph

/-- Puts a new block onto an edge.  The first half keeps the direction, the second half takes the
place of the edge at the target, in its phi functions too. -/
def splitEdge (g : Graph) (e : EdgeId) (edge : Edge) (kind : Kind) : Spliced :=
  let (b, g) := g.addBlock kind
  let (head, g) := g.addUnlistedEdge { edge with target := b }
  let (tail, g) := g.addUnlistedEdge ⟨b, edge.target, .always⟩
  let g := g.modifyBlock edge.source fun s => { s with succs := renameIn e head s.succs }
  let g := g.modifyBlock b fun n => { n with preds := [head], succs := [tail] }
  let g := g.modifyBlock edge.target fun t =>
    { t with preds := renameIn e tail t.preds, phis := t.phis.map (·.moveArg e tail) }
  ⟨b, tail, g.clearEdge e⟩

/-! ### Changes that look up what they touch -/

/-- Changes the record of an edge in use. -/
def updateEdge (g : Graph) (e : EdgeId) (f : Edge → Edge) : Answer Graph := do
  let _ ← g.edge e
  return g.modifyEdge e f

/-- Changes the record of a block in use. -/
def update (g : Graph) (b : BlockId) (f : Block → Block) : Answer Graph := do
  let _ ← g.block b
  return g.modifyBlock b f

/-- Adds an edge between two blocks in use. -/
def connect (g : Graph) (edge : Edge) : Answer (EdgeId × Graph) := do
  let _ ← g.block edge.source
  let _ ← g.block edge.target
  return g.addEdge edge

/-- Adds some edges between blocks in use. -/
def connectAll (g : Graph) (edges : List Edge) : Answer Graph :=
  edges.foldlM (fun g edge => return (← g.connect edge).2) g

/-- Removes an edge in use. -/
def disconnect (g : Graph) (e : EdgeId) : Answer Graph := do
  let edge ← g.edge e
  let _ ← g.block edge.source
  let _ ← g.block edge.target
  return g.removeEdge e

/-- Removes a block in use, and the edges that it lists.  An edge from the block to itself is listed
twice, and gone the second time. -/
def discard (g : Graph) (b : BlockId) : Answer Graph := do
  let block ← g.block b
  let g ← (block.preds ++ block.succs).foldlM (fun g e =>
    if (g.edge? e).isSome then g.disconnect e else return g) g
  return g.clearBlock b

/-- Leads an edge in use to another target. -/
def reroute (g : Graph) (target : BlockId) (e : EdgeId) : Answer (EdgeId × Graph) := do
  let edge ← g.edge e
  let _ ← g.block edge.source
  let _ ← g.block edge.target
  let _ ← g.block target
  return g.redirect e edge target

/-- Leads some edges to another target, one after the other.  Gives each old handle with the new
one. -/
def rerouteAll (g : Graph) (target : BlockId) :
    List EdgeId → Answer (List (EdgeId × EdgeId) × Graph)
  | [] => return ([], g)
  | e :: es => do
    let (new, g) ← g.reroute target e
    let (pairs, g) ← g.rerouteAll target es
    return ((e, new) :: pairs, g)

/-- Puts a new block onto an edge in use.  The block is there when the end points are looked up. -/
def split (g : Graph) (e : EdgeId) (kind : Kind) : Answer Spliced := do
  let edge ← g.edge e
  let (_, grown) := g.addBlock kind
  let _ ← grown.block edge.source
  let _ ← grown.block edge.target
  return g.splitEdge e edge kind

/-! ### Single steps of a batch -/

/-- **A step of a batch.** -/
inductive Step where
  | addBlock (kind : Kind)
  | addEdge (source target : BlockId)
  | addConditionalEdges (source ifTrue ifFalse : BlockId)
  | removeEdge (e : EdgeId)
  | removeBlock (b : BlockId)
  /-- Gives a block a phi function for a variable unless it has one. -/
  | addPhi (b : BlockId) (v : Var)
  | setPhiArg (b : BlockId) (v : Var) (e : EdgeId) (value : Var)
deriving DecidableEq, Repr

/-- **What a step gives back.** -/
inductive StepResult where
  | block (b : BlockId)
  | edge (e : EdgeId)
  | edges (ifTrue ifFalse : EdgeId)
  | flag (b : Bool)
  | done
deriving DecidableEq, Repr

/-- **Carries out a step.** -/
def perform (g : Graph) : Step → Answer (StepResult × Graph)
  | .addBlock kind =>
    if kind.isTerminal then throw .extraTerminal
    else
      let (b, g) := g.addBlock kind
      return (.block b, g)
  | .addEdge source target => do
    let (e, g) ← g.connect ⟨source, target, .always⟩
    return (.edge e, g)
  | .addConditionalEdges source ifTrue ifFalse => do
    if (← g.block source).kind.isBranch then
      let (t, g) ← g.connect ⟨source, ifTrue, .onTrue⟩
      let (f, g) ← g.connect ⟨source, ifFalse, .onFalse⟩
      return (.edges t f, g)
    else throw (.conditionalFromNonBranch source)
  | .removeEdge e => return (.done, ← g.disconnect e)
  | .removeBlock b => do
    if (← g.block b).kind.isTerminal then throw .removedTerminal
    else return (.done, ← g.discard b)
  | .addPhi b v => do
    if (← g.block b).phis.contains v.name then return (.flag false, g)
    else
      return (.flag true, g.modifyBlock b fun block =>
        { block with phis := block.phis.insert v.name (.new none) })
  | .setPhiArg b v e value => do
    match (← g.block b).phis.get? v.name with
    | none => throw (.noPhi b v)
    | some p =>
      return (.done, g.modifyBlock b fun block =>
        { block with phis := block.phis.insert v.name (p.setArg e value) })

end Graph
end FlowGraph
