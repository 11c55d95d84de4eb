import FlowGraph.Graph.Basic

/-! # What a run reports

Operations report what they do as events.  An event is a value; its wording, its level and the part
of the program that it comes from are functions of it.  A verbose run also prints banners and graphs
among its events.
-/
namespace FlowGraph

/-- **How important an event is.** -/
inductive Level where
  | trace
  | debug
  | warn
deriving DecidableEq, Repr

/-- The name of a level. -/
def Level.name : Level → String
  | .trace => "TRACE"
  | .debug => "DEBUG"
  | .warn => "WARN"

/-- **An event.** -/
inductive Event where
  /-- The passage of a procedure starts. -/
  | optimizing (name : String)
  /-- A graph was built from a procedure. -/
  | built (name : String) (blocks edges : Nat)
  /-- A block was replaced by a chain of blocks. -/
  | replaced (b : BlockId) (chain : List BlockId)
  /-- A block without successors goes. -/
  | removingDeadEnd (b : BlockId)
  /-- A block without predecessors goes. -/
  | removingOrphan (b successor : BlockId)
  /-- A block goes, and what led to it leads to its successor. -/
  | removing (b successor : BlockId)
  /-- A block that Entry does not reach goes. -/
  | removingUnreachable (b : BlockId)
  /-- The phi function of a block with a single predecessor becomes a copy. -/
  | soloPhi (b : BlockId) (lhs arg : Var)
  /-- A block was put onto an edge. -/
  | spliced (b source target : BlockId)
  /-- A branch is resolved. -/
  | folding (b : BlockId) (outcome : Bool)
  /-- Some blocks were tidied away. -/
  | tidied (count : Nat) (name : String)
  /-- The dominators were computed. -/
  | dominanceComputed (name : String) (reachable : Nat)
  /-- The definitions and uses were collected. -/
  | webBuilt (name : String) (defined used : Nat)
  /-- A block got a phi function. -/
  | phiInserted (v : Var) (b : BlockId)
  /-- All phi functions were inserted. -/
  | phisInserted (count : Nat) (name : String)
  /-- The variables of a block got their versions. -/
  | renamed (b : BlockId) (versions : Nat)
  /-- A phi function becomes a copy on an edge. -/
  | copied (e : EdgeId) (lhs rhs : Var)
  /-- All phi functions were turned into copies. -/
  | leftSsa (name : String) (copies : Nat)
  /-- Phi functions get lost in a statement list. -/
  | phisDropped (name : String)
  /-- Text for whoever watches a verbose run. -/
  | printed (text : String)
deriving DecidableEq, Repr

namespace Event

/-- The level of an event; printed text has none. -/
def level? : Event → Option Level
  | .optimizing _ => some .debug
  | .built .. => some .debug
  | .replaced .. => some .trace
  | .removingDeadEnd _ => some .trace
  | .removingOrphan .. => some .trace
  | .removing .. => some .trace
  | .removingUnreachable _ => some .trace
  | .soloPhi .. => some .trace
  | .spliced .. => some .trace
  | .folding .. => some .trace
  | .tidied .. => some .debug
  | .dominanceComputed .. => some .debug
  | .webBuilt .. => some .trace
  | .phiInserted .. => some .trace
  | .phisInserted .. => some .debug
  | .renamed .. => some .trace
  | .copied .. => some .trace
  | .leftSsa .. => some .debug
  | .phisDropped _ => some .warn
  | .printed _ => none

/-- The wording of an event. -/
def message : Event → String
  | .optimizing name => "optimizing " ++ name
  | .built name blocks edges => "built cfg for " ++ name ++ ": " ++ Nat.repr blocks ++
    " blocks, " ++ Nat.repr edges ++ " edges"
  | .replaced b chain => "replaced " ++ b.text ++ " with [" ++
    ", ".intercalate (chain.map BlockId.longText) ++ "]"
  | .removingDeadEnd b => "removing dead end " ++ b.text
  | .removingOrphan b successor => "removing orphan " ++ b.text ++ ", successor " ++ successor.text
  | .removing b successor => "removing " ++ b.text ++ ", successor " ++ successor.text
  | .removingUnreachable b => "removing unreachable " ++ b.text
  | .soloPhi b lhs arg => "solo phi in " ++ b.text ++ ": " ++ lhs.text ++ " = " ++ arg.text
  | .spliced b source target => "spliced " ++ b.text ++ " onto " ++ source.text ++ " -> " ++
    target.text
  | .folding b outcome => "folding " ++ b.text ++ " to its " ++
    (Direction.ofOutcome outcome).name ++ " edge"
  | .tidied count name => "tidy removed " ++ Nat.repr count ++ " blocks from " ++ name
  | .dominanceComputed name reachable => "computed dominance for " ++ name ++ ": " ++
    Nat.repr reachable ++ " reachable blocks"
  | .webBuilt name defined used => "def-use web of " ++ name ++ ": " ++ Nat.repr defined ++
    " defined, " ++ Nat.repr used ++ " used variables"
  | .phiInserted v b => "phi for " ++ v.text ++ " in " ++ b.text
  | .phisInserted count name => "inserted " ++ Nat.repr count ++ " phi nodes into " ++ name
  | .renamed b versions => "renamed " ++ b.text ++ ", " ++ Nat.repr versions ++ " new versions"
  | .copied e lhs rhs => "copy on " ++ e.text ++ ": " ++ lhs.text ++ " = " ++ rhs.text
  | .leftSsa name copies => name ++ " left SSA form with " ++ Nat.repr copies ++ " copies"
  | .phisDropped name => "linearizing " ++ name ++ " with phi nodes, they are dropped"
  | .printed text => text

/-- The part of the program that an event comes from, as a log line names it. -/
def origin : Event → String
  | .optimizing _ => "mir_cfg::pipeline"
  | .built .. => "mir_cfg::cfg::build"
  | .replaced .. => "mir_cfg::cfg::edit"
  | .removingDeadEnd _ => "mir_cfg::cfg::edit"
  | .removingOrphan .. => "mir_cfg::cfg::edit"
  | .removing .. => "mir_cfg::cfg::edit"
  | .soloPhi .. => "mir_cfg::cfg::edit"
  | .spliced .. => "mir_cfg::cfg::edit"
  | .removingUnreachable _ => "mir_cfg::cfg::cleanup"
  | .folding .. => "mir_cfg::cfg::cleanup"
  | .tidied .. => "mir_cfg::cfg::cleanup"
  | .dominanceComputed .. => "mir_cfg::dominance"
  | .webBuilt .. => "mir_cfg::def_use"
  | .phiInserted .. => "mir_cfg::ssa"
  | .phisInserted .. => "mir_cfg::ssa"
  | .renamed .. => "mir_cfg::ssa::rename"
  | .copied .. => "mir_cfg::ssa::destroy"
  | .leftSsa .. => "mir_cfg::ssa::destroy"
  | .phisDropped _ => "mir_cfg::linearize"
  | .printed _ => ""

end Event
end FlowGraph
