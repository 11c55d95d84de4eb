/-! # Directed graphs, on numbers and on named nodes

A graph (`Graph`) over the nodes `0 … n - 1`, as the list of successors of each node.  Parallel
edges and self loops are allowed, and an edge to a node that does not exist yet makes the graph
grow.

`inverseOrder` (`inverse_topsort`) lists every node after the nodes that it leads to.  There is such
an order exactly when the graph has no cycle; otherwise the search names a node on one.

`components` (`find_strongly_connected`) sorts the nodes into classes of nodes that reach each
other, by Tarjan's search (`strongconnect`).  Nodes are put on a stack when they are entered, and
each keeps the earliest entry on the stack that it is known to lead to, its low link.  A node whose
low link is its own entry has its component above it on the stack.  Components are numbered in the
order in which they are found, so every edge between two of them leads to a smaller number.

A named graph (`ObjectGraph`) has values of any type for nodes: it keeps the values in the order in
which they were first mentioned, and the graph on their positions.
-/
namespace FlowGraph

/-- **A directed graph** on the nodes below its size. -/
structure Digraph where
  /-- The successors of each node, in the order in which the edges were added. -/
  next : Array (List Nat)
deriving DecidableEq, Repr, Inhabited

namespace Digraph

/-- The number of nodes. -/
def size (g : Digraph) : Nat := g.next.size

/-- The graph of `n` nodes without edges. -/
def ofSize (n : Nat) : Digraph := ⟨Array.replicate n []⟩

/-- All nodes. -/
def nodes (g : Digraph) : List Nat := List.range g.size

/-- The successors of a node. -/
def successors (g : Digraph) (v : Nat) : List Nat := g.next[v]?.getD []

/-- All edges, by source. -/
def edges (g : Digraph) : List (Nat × Nat) :=
  g.nodes.flatMap fun v => (g.successors v).map fun w => (v, w)

/-- Adds nodes until `v` is one. -/
def grow (g : Digraph) (v : Nat) : Digraph :=
  ⟨g.next ++ Array.replicate (v + 1 - g.size) []⟩

/-- Adds an edge, and its end points if they are new. -/
def addEdge (g : Digraph) (v w : Nat) : Digraph :=
  ⟨((g.grow v).grow w).next.modify v (· ++ [w])⟩

/-- Adds an edge unless there is one between the same nodes. -/
def addEdgeOnce (g : Digraph) (v w : Nat) : Digraph :=
  if w ∈ g.successors v then (g.grow v).grow w else g.addEdge v w

/-! ### Inverse topological order -/

/-- Adds a node to the nodes `done` so far, newest first, after all that it leads to.  The `path` is
the way by which the search came: meeting one of its nodes again closes a cycle.  The number bounds
the length of the path. -/
def settle (g : Digraph) : Nat → List Nat → List Nat → Nat → Except Nat (List Nat)
  | 0, _, done, _ => .ok done
  | fuel + 1, path, done, v =>
    if v ∈ done then .ok done
    else if v ∈ path then .error v
    else do
      let done ← (g.successors v).foldlM (settle g fuel (v :: path)) done
      return v :: done

/-- **The nodes in inverse topological order**, or a node on a cycle. -/
def inverseOrder (g : Digraph) : Except Nat (List Nat) := do
  let done ← g.nodes.foldlM (settle g (g.size + 1) []) []
  return done.reverse

/-! ### Strongly connected components -/

/-- **The state of the search for components.** -/
structure Tarjan where
  /-- The nodes that were entered and belong to no component yet, the last one first. -/
  stack : List Nat
  /-- The place of each node in the order in which nodes are entered. -/
  indices : Array (Option Nat)
  /-- The smallest place of a node on the stack that each node is known to lead to. -/
  lowlink : Array Nat
  /-- Whether each node is on the stack. -/
  onStack : Array Bool
  /-- The place of the next node that is entered. -/
  index : Nat
  /-- The components found so far. -/
  result : List (List Nat)
deriving DecidableEq, Repr, Inhabited

namespace Tarjan

/-- Nothing is entered yet. -/
def new (n : Nat) : Tarjan where
  stack := []
  indices := Array.replicate n none
  lowlink := Array.replicate n 0
  onStack := Array.replicate n false
  index := 0
  result := []

/-- The place of a node, if it was entered. -/
def place? (t : Tarjan) (v : Nat) : Option Nat := t.indices[v]?.join

/-- The low link of a node. -/
def low (t : Tarjan) (v : Nat) : Nat := t.lowlink[v]?.getD 0

/-- Whether a node is on the stack. -/
def isOnStack (t : Tarjan) (v : Nat) : Bool := t.onStack[v]?.getD false

/-- Enters a node. -/
def enter (t : Tarjan) (v : Nat) : Tarjan where
  stack := v :: t.stack
  indices := t.indices.setIfInBounds v (some t.index)
  lowlink := t.lowlink.setIfInBounds v t.index
  onStack := t.onStack.setIfInBounds v true
  index := t.index + 1
  result := t.result

/-- Notes that a node leads to the place `i` on the stack. -/
def lower (t : Tarjan) (v i : Nat) : Tarjan :=
  { t with lowlink := t.lowlink.modify v (min · i) }

/-- The top of a stack down to a node, and the rest. -/
def popTo (v : Nat) : List Nat → List Nat × List Nat
  | [] => ([], [])
  | w :: rest =>
    if w = v then ([w], rest)
    else
      let (above, below) := popTo v rest
      (w :: above, below)

/-- Leaves a node.  If it leads to nothing on the stack that was entered before it, the stack down
to it is its component. -/
def leave (t : Tarjan) (v : Nat) : Tarjan :=
  if t.place? v = some (t.low v) then
    let (component, rest) := popTo v t.stack
    { t with
      stack := rest
      onStack := component.foldl (·.setIfInBounds · false) t.onStack
      result := t.result ++ [component] }
  else t

/-- Follows an edge from `v` to `w`.  A node that is on no stack any more belongs to a component
that is complete. -/
def follow (connect : Tarjan → Nat → Tarjan) (v : Nat) (t : Tarjan) (w : Nat) : Tarjan :=
  match t.place? w with
  | none =>
    let t := connect t w
    t.lower v (t.low w)
  | some i => if t.isOnStack w then t.lower v i else t

end Tarjan

/-- Enters a node, follows its edges in order, and leaves it.  The number bounds the depth of the
search, which is never deeper than there are nodes. -/
def strongConnect (g : Digraph) : Nat → Tarjan → Nat → Tarjan
  | 0, t, _ => t
  | fuel + 1, t, v =>
    ((g.successors v).foldl (Tarjan.follow (strongConnect g fuel) v) (t.enter v)).leave v

/-- The search from every node that was not entered before. -/
def tarjan (g : Digraph) : Tarjan :=
  g.nodes.foldl (fun t v => if (t.place? v).isNone then g.strongConnect g.size t v else t)
    (.new g.size)

/-- The nodes of each component, by the number of the component. -/
def groups (g : Digraph) : List (List Nat) := g.tarjan.result

/-- **The components of a graph.** -/
structure Components where
  /-- The component of each node. -/
  component : List Nat
  /-- The graph of components, with one edge for all the edges that lead from one to another. -/
  graph : Digraph
deriving DecidableEq, Repr, Inhabited

/-- Notes the number of a component for all its nodes. -/
def assign (numbers : Array Nat) (group : List Nat × Nat) : Array Nat :=
  group.1.foldl (·.setIfInBounds · group.2) numbers

/-- The graph between the components of `g`. -/
def between (g : Digraph) (count : Nat) (component : List Nat) : Digraph :=
  g.edges.foldl
    (fun q (v, w) =>
      let i := component[v]?.getD 0
      let j := component[w]?.getD 0
      if i = j then q else q.addEdgeOnce i j)
    (ofSize count)

/-- **Finds the strongly connected components.** -/
def components (g : Digraph) : Components :=
  let groups := g.groups
  let component := (groups.zipIdx.foldl assign (Array.replicate g.size 0)).toList
  ⟨component, g.between groups.length component⟩

/-- The nodes of each component, in increasing order. -/
def Components.members (c : Components) : List (List Nat) :=
  c.graph.nodes.map fun i =>
    c.component.zipIdx.filterMap fun (k, v) => if k = i then some v else none

end Digraph

/-! ### Named nodes -/

/-- **A directed graph on values.** -/
structure NamedGraph (α : Type) where
  /-- The value of each node. -/
  names : List α
  /-- The edges between positions. -/
  graph : Digraph
deriving Repr, Inhabited

namespace NamedGraph

variable {α : Type}

/-- The graph without nodes. -/
def empty : NamedGraph α := ⟨[], .ofSize 0⟩

/-- The values at some positions. -/
def valuesAt (g : NamedGraph α) (vs : List Nat) : List α := vs.filterMap (g.names[·]?)

/-- **The values in inverse topological order**, or a value on a cycle. -/
def inverseOrder (g : NamedGraph α) : Except (Option α) (List α) :=
  match g.graph.inverseOrder with
  | .ok vs => .ok (g.valuesAt vs)
  | .error v => .error g.names[v]?

/-- **The components**, each as the list of its values. -/
def components (g : NamedGraph α) : NamedGraph (List α) :=
  let c := g.graph.components
  ⟨c.members.map g.valuesAt, c.graph⟩

section
variable [DecidableEq α]

/-- The position of a value. -/
def index? (g : NamedGraph α) (a : α) : Option Nat := g.names.idxOf? a

/-- Makes a value a node unless it is one. -/
def addNode (g : NamedGraph α) (a : α) : NamedGraph α :=
  if a ∈ g.names then g else ⟨g.names ++ [a], g.graph.grow g.names.length⟩

/-- Adds an edge between two values, and the values if they are new. -/
def addEdge (g : NamedGraph α) (a b : α) : NamedGraph α :=
  let g := (g.addNode a).addNode b
  ⟨g.names, g.graph.addEdge (g.names.idxOf a) (g.names.idxOf b)⟩

/-- The first successor of a value. -/
def firstSuccessor? (g : NamedGraph α) (a : α) : Option α := do
  g.names[← (g.graph.successors (← g.index? a)).head?]?

end

end NamedGraph
end FlowGraph
