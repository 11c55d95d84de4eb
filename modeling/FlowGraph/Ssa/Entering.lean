import FlowGraph.Dominance
import FlowGraph.Graph.Tables
import FlowGraph.Program.Names
import FlowGraph.Run
import FlowGraph.Web

/-! # Entering single assignment form

**Phi functions** are placed first (`insert_phi_nodes`).  A variable defined in a block needs one
wherever the block's dominance ends, that is on its frontier.  The phi function defines the variable
again, so the frontier of that block needs one too, and so on.

**Versions** come second (`rename_variables`).  Every definition gets a fresh version, and every use
the version that reaches it.  The blocks are taken from the root of the dominator tree down.  What a
block defines is in force for the blocks below it in the tree, and for the phi functions of its
successors, each of which gets an argument for the edge from it (`rename_block`).

The walk over the tree keeps a list of what is left to do.  To leave a block is to take the versions
out of force that it put in force (`VersionStacks`), so that the next block starts from those of its
own dominator.
-/
namespace FlowGraph

/-! ### Placing phi functions -/

/-- Whether a block has a phi function for a name. -/
def Graph.hasPhi (g : Graph) (b : BlockId) (name : String) : Bool :=
  (g.block? b).any (·.phis.contains name)

namespace Ssa

/-- The base names that a block defines, by the web or by the phi functions it has now. -/
def definedNames (w : Web) (g : Graph) (x : BlockId) : List String :=
  let phis := ((g.block? x).map (·.phis.keys)).getD []
  (OrdMap.ofList ((w.blockDefs x ++ phis).map (·, ()))).keys

/-- Gives a block a phi function for a name, unless it has one, and counts it. -/
def addPhi (y : BlockId) : Nat × Graph → String → Run (Nat × Graph)
  | (count, g), name => do
    let _ ← g.block y
    if g.hasPhi y name then return (count, g)
    else
      Run.report (.phiInserted (.plain name) y)
      return (count + 1, g.modifyBlock y fun b => { b with phis := b.phis.insert name (.new none) })

/-- Gives a block a phi function for every name for which it has none.  Gives the number of those.
-/
def addPhis (y : BlockId) (names : List String) (g : Graph) : Run (Nat × Graph) :=
  names.foldlM (addPhi y) (0, g)

/-- **The state of the placement.** -/
structure Placing where
  /-- How many phi functions were added. -/
  added : Nat
  /-- The blocks whose frontiers have to be looked at, in order. -/
  pending : List BlockId
  graph : Graph

/-- Gives a block phi functions for some names.  If it got any it has to be looked at again. -/
def placeOn (names : List String) (s : Placing) (y : BlockId) : Run Placing := do
  let (count, g) ← addPhis y names s.graph
  return ⟨s.added + count, if count = 0 then s.pending else s.pending ++ [y], g⟩

/-- Takes a block from the front: its frontier gets phi functions for what the block defines. -/
def placeAt (d : Dominance) (w : Web) (x : BlockId) (s : Placing) : Run Placing := do
  (← d.frontierIn s.graph x).foldlM (placeOn (definedNames w s.graph x)) s

/-- Looks at pending blocks until there are none.  The number bounds the steps. -/
def placeAll (d : Dominance) (w : Web) : Nat → Placing → Run (Nat × Graph)
  | 0, s => return (s.added, s.graph)
  | fuel + 1, s =>
    match s.pending with
    | [] => return (s.added, s.graph)
    | x :: rest => do placeAll d w fuel (← placeAt d w x { s with pending := rest })

/-- **Places the phi functions of a graph**; gives their number.  Every block is looked at once, and
once more whenever it gets a phi function. -/
def place (d : Dominance) (w : Web) (g : Graph) : Run (Nat × Graph) := do
  let names := (OrdMap.ofList (w.defs.map fun (v, _) => (v.name, ()))).size
  placeAll d w (g.blocks.size * (names + 1) + 1) ⟨0, ← g.topDown, g⟩

end Ssa

/-! ### Renaming -/

namespace Ssa

/-- **The versions in force**, the latest definition first. -/
abbrev Versions := List (String × Nat)

/-- The version of a variable in force: version 0 where nothing defines it. -/
def Versions.current (env : Versions) (name : String) : Var :=
  .versioned name ((env.lookup name).getD 0)

/-- Takes the latest version of a variable out of force. -/
def Versions.pop (env : Versions) (name : String) : Versions := env.eraseP (·.1 = name)

/-- The names of the versions that were put in force since, in that order. -/
def Versions.pushed (env inner : Versions) : List String :=
  ((inner.take (inner.length - env.length)).map (·.1)).reverse

/-- A step that draws fresh versions and puts them in force. -/
abbrev Renamer := StateM (NameSupply × Versions)

/-- Puts a fresh version of a variable in force. -/
def define (name : String) : Renamer Var := do
  let (names, env) ← get
  let (n, names) := names.freshVersion name
  set (names, ((name, n) :: env : Versions))
  return .versioned name n

/-- The version of a variable in force. -/
def lookUp (name : String) : Renamer Var := return (← get).2.current name

/-- Gives the variables that phi functions define fresh versions. -/
def renamePhis (ps : Phis) : Renamer Phis := do
  ps.keys.forM fun name => do let _ ← define name
  let (_, env) ← get
  return ps.mapValues fun name p => { p with version := (env.current name).version }

/-- Renames what a block reads, and then what it writes. -/
def renameKind : Kind → Renamer Kind
  | .statement s => do
    let s ← s.mapUsesM fun v => lookUp v.name
    let s ← s.mapDefsM fun v => define v.name
    return .statement s
  | .branch b => return .branch (← b.mapUsesM fun v => lookUp v.name)
  | k => return k

/-- Renames what a block merges, what it reads, and what it writes. -/
def renameBody (block : Block) : Renamer Block := do
  let phis ← renamePhis block.phis
  let kind ← renameKind block.kind
  return { block with phis, kind }

/-- Gives the phi functions at the end of an edge their arguments for it. -/
def passArgs (env : Versions) (g : Graph) (e : EdgeId) : Graph.Answer Graph := do
  let edge ← g.edge e
  g.update edge.target fun t =>
    { t with phis := t.phis.mapValues fun name p => p.setArg e (env.current name) }

/-- Renames a block and passes the versions on to its successors.  Gives the versions then in
force. -/
def renameBlock (names : NameSupply) (env : Versions) (g : Graph) (b : BlockId) :
    Graph.Answer (Graph × NameSupply × Versions) := do
  let (block, names, inner) := (renameBody (← g.block b)).run (names, env)
  let g ← block.succs.foldlM (passArgs inner) (g.modifyBlock b fun _ => block)
  return (g, names, inner)

/-- **Something left to do.** -/
inductive Task where
  | enter (b : BlockId)
  /-- The versions of these variables go out of force, one each time a name is listed. -/
  | leave (pushed : List String)
deriving DecidableEq, Repr, Inhabited

/-- **The state of the renaming.** -/
structure Renaming where
  todo : List Task
  names : NameSupply
  env : Versions
  graph : Graph

/-- Carries out a task.  A block that is entered is left when all its children are done with. -/
def Renaming.carryOut (d : Dominance) (s : Renaming) : Task → Run Renaming
  | .leave pushed => return { s with env := pushed.foldl Versions.pop s.env }
  | .enter b => do
    let (graph, names, env) ← renameBlock s.names s.env s.graph b
    let pushed := s.env.pushed env
    Run.report (.renamed b pushed.length)
    return ⟨(d.children b).map .enter ++ .leave pushed :: s.todo, names, env, graph⟩

/-- Carries out tasks until there are none.  The number bounds the tasks. -/
def Renaming.run (d : Dominance) : Nat → Renaming → Run Renaming
  | 0, s => return s
  | fuel + 1, s =>
    match s.todo with
    | [] => return s
    | task :: rest => do run d fuel (← carryOut d { s with todo := rest } task)

/-- **Renames all variables of the blocks that the entry reaches.**  Each of them is entered once
and left once. -/
def rename (d : Dominance) (names : NameSupply) (g : Graph) : Run (NameSupply × Graph) := do
  let s ← Renaming.run d (2 * g.blocks.size) ⟨[.enter Graph.entry], names, [], g⟩
  return (s.names, s.graph)

end Ssa
end FlowGraph
