import FlowGraph.Fault

/-! # Questions about a graph

Questions that presuppose something: that a handle is in use (`block`, `edge`, `successors`,
`predecessors`), that a block is a branch (`true_successor`, `false_successor`, by `directed_edge`),
that it has one successor (`successor_edge`, `successor`), that there is an edge (`get_edge`), that
the graph passes its checks (`assert_consistent`, `assert_connected`).  Where the presupposition
fails the answer is a fault.
-/
namespace FlowGraph
namespace Graph

/-- What an answer gives when it may be a fault instead. -/
abbrev Answer := Except Fault

/-- The block of a handle. -/
def block (g : Graph) (b : BlockId) : Answer Block :=
  match g.block? b with
  | some block => .ok block
  | none => .error (.violation (.staleBlock b))

/-- The edge of a handle. -/
def edge (g : Graph) (e : EdgeId) : Answer Edge :=
  match g.edge? e with
  | some edge => .ok edge
  | none => .error (.violation (.staleEdge e))

/-- The outgoing edges of a block. -/
def successorEdges (g : Graph) (b : BlockId) : Answer (List EdgeId) :=
  return (← g.block b).succs

/-- The incoming edges of a block. -/
def predecessorEdges (g : Graph) (b : BlockId) : Answer (List EdgeId) :=
  return (← g.block b).preds

/-- The targets of the outgoing edges of a block. -/
def successors (g : Graph) (b : BlockId) : Answer (List BlockId) := do
  (← g.block b).succs.mapM fun e => return (← g.edge e).target

/-- The sources of the incoming edges of a block. -/
def predecessors (g : Graph) (b : BlockId) : Answer (List BlockId) := do
  (← g.block b).preds.mapM fun e => return (← g.edge e).source

/-- The only outgoing edge of a block. -/
def onwardEdge (g : Graph) (b : BlockId) : Answer EdgeId := do
  match (← g.block b).succs with
  | [e] => return e
  | es => throw (.notSingleSuccessor b es.length)

/-- The only successor of a block. -/
def successor (g : Graph) (b : BlockId) : Answer BlockId :=
  return (← g.edge (← g.onwardEdge b)).target

/-- The edge that leaves the entry block. -/
def entryEdge (g : Graph) : Answer EdgeId := g.onwardEdge entry

/-- The edge that a branch takes in a direction. -/
def directedEdge (g : Graph) (b : BlockId) (d : Direction) : Answer EdgeId := do
  let block ← g.block b
  if block.kind.isBranch then
    match ← block.succs.findM? fun e => return decide ((← g.edge e).direction = d) with
    | some e => return e
    | none => throw (.missingDirection b d)
  else throw (.notBranch b)

/-- Where a branch goes for an outcome. -/
def branchTarget (g : Graph) (b : BlockId) (outcome : Bool) : Answer BlockId :=
  return (← g.edge (← g.directedEdge b (.ofOutcome outcome))).target

/-- The first edge from one block to another, if there is one. -/
def findEdge (g : Graph) (source target : BlockId) : Answer (Option EdgeId) := do
  (← g.block source).succs.findM? fun e => return decide ((← g.edge e).target = target)

/-- The first edge from one block to another. -/
def edgeBetween (g : Graph) (source target : BlockId) : Answer EdgeId := do
  match ← g.findEdge source target with
  | some e => return e
  | none => throw (.noEdge source target)

/-- Whether a conditional edge is the one for a true condition. -/
def isTrueEdge (g : Graph) (e : EdgeId) : Answer Bool := do
  match (← g.edge e).direction with
  | .onTrue => return true
  | .onFalse => return false
  | .always => throw (.unconditionalEdge e)

/-- Whether the only successor of a block is the block itself. -/
def loopsOnItself (g : Graph) (b : BlockId) : Answer Bool := do
  match (← g.block b).succs with
  | [e] => return (← g.edge e).target = b
  | _ => return false

/-- Gives up unless some blocks are in use. -/
def demandLive (g : Graph) (bs : List BlockId) : Answer Unit :=
  bs.forM fun b => do let _ ← g.block b

/-- Gives up unless every edge that a block in use leaves by is in use. -/
def demandListed (g : Graph) : Answer Unit :=
  g.liveBlocks.forM fun block => block.succs.forM fun e => do let _ ← g.edge e

/-- Gives up unless the structural rules hold. -/
def demandConsistent (g : Graph) : Answer Unit :=
  match g.checkWiring with
  | .ok _ => .ok ()
  | .error v => .error (.inconsistent g v)

/-- Gives up unless the structural rules hold and every block can be entered. -/
def demandConnected (g : Graph) : Answer Unit :=
  match g.checkEntered with
  | .ok _ => .ok ()
  | .error v => .error (.inconsistent g v)

end Graph
end FlowGraph
