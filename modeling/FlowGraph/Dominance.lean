import FlowGraph.Graph.Traversal
import FlowGraph.Graph.Query

/-! # Dominance

A block *dominates* another when every way from the entry to the second passes through the first.
The *immediate* dominator of a block is its closest other dominator; immediate dominators form a
tree with the entry at its root.  The *frontier* of a block holds the places where its dominance
ends: the blocks with a predecessor that it dominates and which it does not strictly dominate
itself.

Immediate dominators are found by improvement.  In reverse postorder, each block is given the
nearest common ancestor of those of its predecessors that already have a dominator, again and again
until nothing changes (`compute_dominance`, `intersect`).  Frontiers are found in the same way.  In
postorder, each block is given what the frontiers of its children in the tree hold, again and again
until nothing changes.
-/
namespace FlowGraph

/-- **The dominators of the blocks that the entry reaches.** -/
structure Dominance where
  /-- The blocks that the entry reaches, in postorder. -/
  postorder : List BlockId
  /-- The immediate dominator of each slot; the entry and what it does not reach have none. -/
  idom : Array (Option BlockId)
  /-- The frontier of each slot, in the order of slots. -/
  frontier : Array (List BlockId)
deriving DecidableEq, Repr, Inhabited

namespace Dominance

/-- The immediate dominator of a block. -/
def parent? (d : Dominance) (b : BlockId) : Option BlockId := d.idom[b.slot]?.join

/-- The blocks with a given immediate dominator, in the order of their slots. -/
def childrenIn (idom : Array (Option BlockId)) (b : BlockId) : List BlockId :=
  idom.toList.zipIdx.filterMap fun (parent, slot) =>
    if parent = some b then some ⟨slot⟩ else none

/-- The children of a block in the tree, in the order of their slots. -/
def children (d : Dominance) (b : BlockId) : List BlockId := childrenIn d.idom b

/-- The frontier of a block. -/
def frontierOf (d : Dominance) (b : BlockId) : List BlockId := d.frontier[b.slot]?.getD []

/-- Makes passes until one changes nothing.  A pass tells whether it changed anything, and the
number bounds the passes. -/
def untilStable {m : Type → Type} [Monad m] {σ : Type} (pass : σ → m (Bool × σ)) : Nat → σ → m σ
  | 0, s => return s
  | fuel + 1, s => do
    let (changed, s) ← pass s
    if changed then untilStable pass fuel s else return s

/-! ### Immediate dominators -/

/-- The tree found so far: the dominator of each slot that has one.  The entry is its own. -/
abbrev Tree := Array (Option BlockId)

/-- The dominator recorded for a block. -/
def Tree.get? (t : Tree) (b : BlockId) : Option BlockId := (t[b.slot]? : Option _).join

/-- The place of each block in reverse postorder. -/
def ranks (size : Nat) (order : List BlockId) : Array (Option Nat) :=
  order.zipIdx.foldl (fun t (b, i) => t.setIfInBounds b.slot (some i)) (Array.replicate size none)

/-- The nearest common ancestor of two blocks in the tree found so far: of two different blocks the
one later in the order steps to its dominator.  No two blocks have the same place, so one of them is
later.  The number bounds the steps; every step takes one of the blocks to an earlier place. -/
def commonAncestor (rank : Array (Option Nat)) (t : Tree) : Nat → BlockId → BlockId → Option BlockId
  | 0, _, _ => none
  | fuel + 1, a, b =>
    if a = b then some a
    else do
      let i ← rank[a.slot]?.join
      let j ← rank[b.slot]?.join
      if j < i then commonAncestor rank t fuel (← t.get? a) b
      else commonAncestor rank t fuel a (← t.get? b)

/-- The nearest common ancestor of the predecessors of a block that have a dominator. -/
def candidate (g : Graph) (rank : Array (Option Nat)) (t : Tree) (b : BlockId) :
    Except Fault BlockId := do
  match (← g.predecessors b).filter fun p => (t.get? p).isSome with
  | [] => throw (.unprocessedPredecessors b)
  | p :: ps =>
    match ps.foldlM (fun other p => commonAncestor rank t (2 * t.size + 1) p other) p with
    | some d => return d
    | none => throw .noCommonDominator

/-- Gives a block its candidate.  Notes whether that changes anything. -/
def improveAt (g : Graph) (rank : Array (Option Nat)) :
    Bool × Tree → BlockId → Except Fault (Bool × Tree)
  | (changed, t), b => do
    let d ← candidate g rank t b
    if t.get? b = some d then return (changed, t)
    else return (true, t.setIfInBounds b.slot (some d))

/-- One pass over the blocks behind the entry in reverse postorder.  Tells whether anything
changed. -/
def improve (g : Graph) (rank : Array (Option Nat)) (order : List BlockId) (t : Tree) :
    Except Fault (Bool × Tree) :=
  order.foldlM (improveAt g rank) (false, t)

/-- The immediate dominators, given the postorder of the blocks that the entry reaches. -/
def immediate (g : Graph) (postorder : List BlockId) : Except Fault (Array (Option BlockId)) := do
  let order := postorder.reverse
  let size := g.blocks.size
  let start := (Array.replicate size none).setIfInBounds Graph.entry.slot (some Graph.entry)
  -- In each pass but the last some dominator is found or moves to an earlier place.
  let t ← untilStable (improve g (ranks size order) (order.filter (· ≠ Graph.entry)))
    (size * size + size + 1) start
  return t.setIfInBounds Graph.entry.slot none

/-! ### Frontiers -/

/-- The part of a frontier that the block makes itself: what it leads to, except for what it
dominates immediately.  The edges were looked up when the postorder was found, so none is missing
here. -/
def ownFrontier (g : Graph) (ids : List BlockId) (idom : Array (Option BlockId)) (x : BlockId) :
    List BlockId :=
  ids.filter fun y => y ∈ g.targets x && idom[y.slot]?.join ≠ some x

/-- The blocks that the entry reaches with the parts of their frontiers that they make themselves.
-/
def ownFrontiers (g : Graph) (postorder : List BlockId) (idom : Array (Option BlockId)) :
    Array (List BlockId) :=
  let ids := g.blockIds
  postorder.foldl (fun known x => known.setIfInBounds x.slot (ownFrontier g ids idom x))
    (Array.replicate g.blocks.size [])

/-- The frontier of a block as far as it is known, with what its children hand up: what their
frontiers hold, except for what the block dominates immediately. -/
def handedUp (ids : List BlockId) (idom : Array (Option BlockId)) (known : Array (List BlockId))
    (x : BlockId) : List BlockId :=
  let below := (childrenIn idom x).flatMap fun c => known[c.slot]?.getD []
  ids.filter fun y =>
    y ∈ known[x.slot]?.getD [] || (y ∈ below && idom[y.slot]?.join ≠ some x)

/-- Gives a block what its children hand up.  Notes whether that changes anything. -/
def widenAt (ids : List BlockId) (idom : Array (Option BlockId)) :
    Bool × Array (List BlockId) → BlockId → Bool × Array (List BlockId)
  | (changed, known), x =>
    let ys := handedUp ids idom known x
    if known[x.slot]?.getD [] = ys then (changed, known)
    else (true, known.setIfInBounds x.slot ys)

/-- One pass over the blocks in postorder.  Tells whether anything changed. -/
def widen (ids postorder : List BlockId) (idom : Array (Option BlockId))
    (known : Array (List BlockId)) : Bool × Array (List BlockId) :=
  postorder.foldl (widenAt ids idom) (false, known)

/-- The frontiers of the blocks that the entry reaches. -/
def frontiers (g : Graph) (postorder : List BlockId) (idom : Array (Option BlockId)) :
    Array (List BlockId) :=
  let size := g.blocks.size
  -- In each pass but the last some frontier grows.
  Id.run (untilStable (pure <| widen g.blockIds postorder idom ·) (size * size + 1)
    (ownFrontiers g postorder idom))

/-- **Computes the dominators and frontiers of a graph.** -/
def ofGraph (g : Graph) : Except Fault Dominance := do
  let postorder ← g.postorderFromEntry
  let idom ← immediate g postorder
  g.demandLive g.blockIds
  return ⟨postorder, idom, frontiers g postorder idom⟩

/-! ### Questions

A question is asked about a graph that may have changed since: a block it is about, or passes on its
way up the tree, has to be in use. -/

/-- The immediate dominator of a block in use. -/
def idomIn (d : Dominance) (g : Graph) (b : BlockId) : Except Fault (Option BlockId) := do
  let _ ← g.block b
  return d.parent? b

/-- The frontier of a block in use. -/
def frontierIn (d : Dominance) (g : Graph) (b : BlockId) : Except Fault (List BlockId) := do
  let _ ← g.block b
  return d.frontierOf b

/-- Whether `a` is met on the way from `b` up the tree.  The number bounds the way. -/
def climb (d : Dominance) (g : Graph) (a : BlockId) : Nat → BlockId → Except Fault Bool
  | 0, _ => .ok false
  | fuel + 1, b =>
    if b = a then .ok true
    else do
      match ← d.idomIn g b with
      | some c => climb d g a fuel c
      | none => return false

/-- **Whether one block dominates another.**  A block dominates itself. -/
def dominates (d : Dominance) (g : Graph) (a b : BlockId) : Except Fault Bool :=
  climb d g a (d.idom.size + 1) b

end Dominance
end FlowGraph
