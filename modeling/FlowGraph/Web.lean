import FlowGraph.Graph.Basic
import FlowGraph.Program.Names
import FlowGraph.Fault

/-! # Definitions and uses

Where every variable of a graph is defined and where it is used, in the order of blocks:
`DefUseWeb`, as `build` makes it, with the questions that it answers.
-/
namespace FlowGraph

/-- **A place that defines or uses variables.** -/
inductive Site where
  | statement (b : BlockId)
  | branch (b : BlockId)
  /-- The phi function of a block that defines the given variable. -/
  | phi (b : BlockId) (lhs : Var)
deriving DecidableEq, Repr, Inhabited

/-- The block of a site. -/
def Site.block : Site → BlockId
  | .statement b => b
  | .branch b => b
  | .phi b _ => b

/-- **All definitions and all uses.** -/
structure Web where
  defs : List (Var × Site)
  uses : List (Var × Site)
deriving DecidableEq, Repr, Inhabited

/-- The definitions in a block. -/
def Block.definitions (block : Block) : List (Var × Site) :=
  let phis := block.phis.toList.map fun (lhs, _) => (lhs, Site.phi block.id lhs)
  phis ++ match block.kind with
    | .statement s => s.defs.map (·, .statement block.id)
    | _ => []

/-- The uses in a block. -/
def Block.uses (block : Block) : List (Var × Site) :=
  let phis := block.phis.toList.flatMap fun (lhs, p) =>
    p.args.entries.map fun (_, arg) => (arg, Site.phi block.id lhs)
  phis ++ match block.kind with
    | .statement s => s.uses.map (·, .statement block.id)
    | .branch b => [(b.cond, .branch block.id)]
    | _ => []

namespace Web

/-- **Collects the definitions and uses of a graph.** -/
def ofGraph (g : Graph) : Web :=
  ⟨g.liveBlocks.flatMap Block.definitions, g.liveBlocks.flatMap Block.uses⟩

/-- Where a variable is defined. -/
def defsOf (w : Web) (v : Var) : List Site :=
  w.defs.filterMap fun (u, site) => if u = v then some site else none

/-- Where a variable is used. -/
def usesOf (w : Web) (v : Var) : List Site :=
  w.uses.filterMap fun (u, site) => if u = v then some site else none

/-- The only definition of a variable, if it is defined at all. -/
def defOf (w : Web) (v : Var) : Except Fault (Option Site) :=
  let sites := w.defsOf v
  if sites.length ≤ 1 then .ok sites.head? else .error (.multipleDefinitions v sites.length)

/-- Whether a variable is never used. -/
def isUnused (w : Web) (v : Var) : Bool := (w.usesOf v).isEmpty

/-- The base names among some occurrences that belong to a block, in order and once each. -/
def namesIn (occurrences : List (Var × Site)) (b : BlockId) : List String :=
  let names := occurrences.filterMap fun (v, site) =>
    if site.block = b then some (v.name, ()) else none
  (OrdMap.ofList names).keys

/-- The base names that a block defines. -/
def blockDefs (w : Web) (b : BlockId) : List String := namesIn w.defs b

/-- The base names that a block uses. -/
def blockUses (w : Web) (b : BlockId) : List String := namesIn w.uses b

/-- The variables among some occurrences, once each, in the order of their first occurrence. -/
def distinctVars (occurrences : List (Var × Site)) : List Var :=
  (occurrences.map (·.1)).foldl (fun seen v => if v ∈ seen then seen else v :: seen) [] |>.reverse

/-- The variables with a definition. -/
def definedVars (w : Web) : List Var := distinctVars w.defs

/-- The variables with a use. -/
def usedVars (w : Web) : List Var := distinctVars w.uses

end Web
end FlowGraph
