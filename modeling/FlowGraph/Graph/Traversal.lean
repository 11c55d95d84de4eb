import FlowGraph.Digraph.Named
import FlowGraph.Graph.Query

/-! # Searches of a graph

One depth-first search serves three traversals: it records the blocks in the order in which they are
entered and in the order in which they are left.  The blocks that the entry reaches
(`reachable_from_entry`), their postorder (`postorder_from_entry`) and the order in which
`linearize` lays the blocks out are read off it.  The way back is kept by the recursion where those
functions keep it on a stack.

The order from the top down (`blocks_top_down`) takes two searches.  The first one (`forward_graph`)
colours the blocks: gray ones are on the way by which it came, so an edge to a gray block closes a
loop and is dropped.  The edges that are left, with one more from the entry to each block where the
search had to start again, are sorted topologically by the second.
-/
namespace FlowGraph
namespace DepthFirst

variable {ε α : Type} [DecidableEq α]

/-- **The record of a search**, newest first. -/
structure Trail (α : Type) where
  /-- The nodes entered so far. -/
  entered : List α
  /-- The nodes left again, with all that they lead to. -/
  left : List α
deriving Repr, Inhabited

/-- Enters a node that is new, visits what it leads to in order, and leaves it.  The number bounds
the depth of the search: a search never gets deeper than there are nodes. -/
def visitM (next : α → Except ε (List α)) : Nat → Trail α → α → Except ε (Trail α)
  | 0, trail, _ => return trail
  | fuel + 1, trail, v =>
    if v ∈ trail.entered then return trail
    else do
      let inner ← (← next v).foldlM (visitM next fuel) { trail with entered := v :: trail.entered }
      return { inner with left := v :: inner.left }

/-- **The search from each of the roots in turn**, in a graph of at most `size` nodes. -/
def searchM (next : α → Except ε (List α)) (size : Nat) (roots : List α) : Except ε (Trail α) :=
  roots.foldlM (visitM next size) ⟨[], []⟩

end DepthFirst

namespace Graph

/-- The search from some blocks. -/
def searchFrom (g : Graph) (roots : List BlockId) : Answer (DepthFirst.Trail BlockId) :=
  DepthFirst.searchM g.successors g.blocks.size roots

/-- The blocks that the entry reaches, in the order in which the search meets them. -/
def reachableFromEntry (g : Graph) : Answer (List BlockId) :=
  return (← g.searchFrom [entry]).entered.reverse

/-- The blocks that the entry reaches, in the order in which the search leaves them. -/
def postorderFromEntry (g : Graph) : Answer (List BlockId) :=
  return (← g.searchFrom [entry]).left.reverse

/-- All blocks in the order in which a search meets them that starts at the entry and then at every
block it has not met, in the order of their slots. -/
def layoutFromEntry (g : Graph) : Answer (List BlockId) :=
  return (← g.searchFrom (entry :: g.blockIds)).entered.reverse

/-! ### From the top down -/

/-- **How far the search has got with a block.** -/
inductive Color where
  /-- It was not entered. -/
  | white
  /-- It was entered and not left yet. -/
  | gray
  /-- It was left. -/
  | black
deriving DecidableEq, Repr, Inhabited

/-- **The state of the search for forward edges.** -/
structure Forward where
  /-- The forward edges found so far, between the slots of blocks. -/
  edges : Digraph
  /-- The color of each slot. -/
  colors : Array Color
  /-- The blocks on the way by which the search came, the last one first, each with the number of
  its edges that were followed. -/
  way : List (BlockId × Nat)
deriving DecidableEq, Repr, Inhabited

namespace Forward

/-- The color of a block. -/
def color (s : Forward) (b : BlockId) : Answer Color :=
  match s.colors[b.slot]? with
  | some c => .ok c
  | none => .error (.outOfBounds s.colors.size b.slot)

/-- Gives a block a color. -/
def paint (s : Forward) (b : BlockId) (c : Color) : Forward :=
  { s with colors := s.colors.setIfInBounds b.slot c }

/-- Adds a forward edge. -/
def addEdge (s : Forward) (a b : BlockId) : Forward :=
  { s with edges := s.edges.addEdge a.slot b.slot }

/-- Goes on to a block. -/
def descend (s : Forward) (b : BlockId) : Forward :=
  { s.paint b .gray with way := (b, 0) :: s.way }

/-- One step: the next edge of the last block on the way is followed, or the block is left. -/
def step (g : Graph) (s : Forward) : Answer Forward :=
  match s.way with
  | [] => return s
  | (b, next) :: rest => do
    match (← g.successorEdges b)[next]? with
    | none => return { s.paint b .black with way := rest }
    | some e =>
      let target := (← g.edge e).target
      let s := { s with way := (b, next + 1) :: rest }
      match ← s.color target with
      | .gray => return s
      | .black => return s.addEdge b target
      | .white => return (s.addEdge b target).descend target

/-- Steps until the way is empty.  The number bounds the steps. -/
def run (g : Graph) : Nat → Forward → Answer Forward
  | 0, s => return s
  | fuel + 1, s => if s.way.isEmpty then return s else do run g fuel (← s.step g)

end Forward

/-- The number of steps that a search spends on a block: one for each edge, and one to leave it. -/
def stepsAt (g : Graph) (b : BlockId) : Nat :=
  match g.block? b with
  | none => 0
  | some block => block.succs.length + 1

/-- The number of steps of a search of all blocks. -/
def searchSteps (g : Graph) : Nat :=
  (List.range g.blocks.size).foldr (fun slot count => g.stepsAt ⟨slot⟩ + count) 0

/-- Searches from a block that was not entered before.  It gets an edge from the entry, unless it is
the entry. -/
def Forward.searchFrom (g : Graph) (s : Forward) (root : BlockId) : Answer Forward := do
  match ← s.color root with
  | .white =>
    let s := if root = entry then s else s.addEdge entry root
    run g g.searchSteps (s.descend root)
  | _ => return s

/-- **The graph without the edges that close loops**, between the slots of blocks. -/
def forwardGraph (g : Graph) : Answer Digraph := do
  let size := g.blocks.size
  let roots := entry :: g.blockIds.filter (· ≠ entry)
  return (← roots.foldlM (Forward.searchFrom g)
    ⟨.ofSize size, Array.replicate size .white, []⟩).edges

/-- **All blocks from the top down**: each one after those that lead to it by forward edges. -/
def topDown (g : Graph) : Except Fault (List BlockId) := do
  match (← g.forwardGraph).inverseOrder with
  | .error slot => throw (.forwardCycle ⟨slot⟩)
  | .ok order => return (order.reverse.map BlockId.mk).filter g.isLive

/-- All blocks from the bottom up. -/
def bottomUp (g : Graph) : Except Fault (List BlockId) := return (← g.topDown).reverse

end Graph
end FlowGraph
