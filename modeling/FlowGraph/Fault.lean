import FlowGraph.Graph.Violation

/-! # Why an operation gives up

A fault ends a run.  Each constructor is one cause: a broken rule (`CfgError`), a demand of one
operation with a message of its own, or an index out of bounds.  `Fault.message` is the only place
that words them.
-/
namespace FlowGraph

/-- **The cause of a failed operation.** -/
inductive Fault where
  /-- A rule is violated that the operation relies on, such as a handle being in use. -/
  | violation (v : Violation)
  /-- The graph breaks a rule after an operation. -/
  | inconsistent (g : Graph) (v : Violation)
  /-- Some variable has no version after renaming. -/
  | notInSsa (g : Graph) (v : Violation)
  /-- A label is declared twice. -/
  | duplicateLabel (label : Label) (procedure : String)
  /-- A jump goes to a label that is not declared. -/
  | undeclaredLabel (label : Label)
  /-- A block was expected to have a single successor. -/
  | notSingleSuccessor (b : BlockId) (count : Nat)
  | notBranch (b : BlockId)
  /-- A branch has no edge for an outcome. -/
  | missingDirection (b : BlockId) (d : Direction)
  | noEdge (source target : BlockId)
  | unconditionalEdge (e : EdgeId)
  /-- A second entry or exit block is asked for. -/
  | extraTerminal
  /-- Conditional edges are asked for at a block that is not a branch. -/
  | conditionalFromNonBranch (b : BlockId)
  /-- The removal of the entry or exit block is asked for. -/
  | removedTerminal
  /-- An argument is given to a phi function that does not exist. -/
  | noPhi (b : BlockId) (v : Var)
  /-- A block of this kind cannot be replaced by a chain. -/
  | irreplaceable (kind : Kind) (b : BlockId)
  /-- The replaced block occurs twice in the chain. -/
  | repeatedInChain (b : BlockId)
  | branchInChain
  | terminalInChain
  /-- The entry or exit block cannot be bypassed. -/
  | unremovable (b : BlockId)
  /-- A branch cannot be bypassed. -/
  | unroutable (b : BlockId)
  | ownSuccessor (b : BlockId)
  /-- A block that is a branch or terminal is to be put onto an edge. -/
  | unspliceable
  | branchLostEdges (b : BlockId)
  /-- The blocks cannot be ordered from the entry down. -/
  | forwardCycle (b : BlockId)
  /-- No predecessor of a reachable block has a dominator yet. -/
  | unprocessedPredecessors (b : BlockId)
  /-- Two blocks have no common ancestor among the dominators found so far. -/
  | noCommonDominator
  | dominanceOutOfDate (name : String)
  | multipleDefinitions (v : Var) (count : Nat)
  /-- A phi function has no argument for an incoming edge. -/
  | missingPhiArg (lhs : Var) (phi : Phi) (b : BlockId) (e : EdgeId)
  /-- The components of the graph of copies cannot be ordered. -/
  | copyComponentCycle
  | copyCycleWithoutSource (v : Var)
  /-- A block has no label. -/
  | unlabelled (b : BlockId)
  /-- A position beyond the end of a list of some length is asked for. -/
  | outOfBounds (length index : Nat)
deriving DecidableEq

/-- The wording of a fault. -/
def Fault.message : Fault → String
  | .violation v => v.message
  | .inconsistent g v => "inconsistent cfg " ++ g.name ++ ": " ++ v.message ++ "\n" ++ g.text
  | .notInSsa g v =>
    g.name ++ " is not in SSA form after renaming: " ++ v.message ++ "\n" ++ g.text
  | .duplicateLabel label procedure => "label " ++ label ++ " is declared twice in " ++ procedure
  | .undeclaredLabel label => "jump to undeclared label " ++ label
  | .notSingleSuccessor b count =>
    "assertion `left == right` failed: " ++ b.text ++ " does not have a single successor" ++
      "\n  left: " ++ Nat.repr count ++ "\n right: 1"
  | .notBranch b => b.text ++ " is not a branch block"
  | .missingDirection b d => "branch " ++ b.text ++ " has no " ++ d.name ++ " edge"
  | .noEdge source target => "no edge from " ++ source.text ++ " to " ++ target.text
  | .unconditionalEdge e => e.text ++ " is not a conditional edge"
  | .extraTerminal => "a graph has exactly one entry and one exit"
  | .conditionalFromNonBranch b =>
    "conditional edges must leave a branch block, " ++ b.text ++ " is not one"
  | .removedTerminal => "entry and exit blocks are never removed"
  | .noPhi b v => b.text ++ " has no phi for " ++ v.text
  | .irreplaceable kind b =>
    "cannot replace " ++ kind.name ++ " block " ++ b.text ++ " with a chain"
  | .repeatedInChain b => b.text ++ " appears twice in its replacement"
  | .branchInChain => "a replacement chain cannot contain a branch"
  | .terminalInChain => "a replacement chain cannot contain entry or exit blocks"
  | .unremovable b => b.text ++ " cannot be removed"
  | .unroutable b => "branch block " ++ b.text ++ " cannot be rerouted"
  | .ownSuccessor b =>
    "assertion `left != right` failed: " ++ b.text ++ " is its own successor" ++
      "\n  left: " ++ b.longText ++ "\n right: " ++ b.longText
  | .unspliceable => "only straight-line blocks can be spliced onto an edge"
  | .branchLostEdges b => "branch block " ++ b.text ++ " lost its edges"
  | .forwardCycle b => b.text ++ " is on a cycle of forward edges"
  | .unprocessedPredecessors b =>
    "reachable block " ++ b.text ++ " has no processed predecessor"
  | .noCommonDominator => "no entry found for key"
  | .dominanceOutOfDate name => "dominance of " ++ name ++ " is not computed or out of date"
  | .multipleDefinitions v count =>
    v.text ++ " is defined " ++ Nat.repr count ++ " times, the graph is not in SSA form"
  | .missingPhiArg lhs phi b e =>
    "phi " ++ phi.text lhs ++ " in " ++ b.text ++ " has no argument for " ++ e.text
  | .copyComponentCycle => "components of a copy graph cannot form a cycle"
  | .copyCycleWithoutSource v => v.text ++ " is on a copy cycle without a source"
  | .unlabelled _ => "no entry found for key"
  | .outOfBounds length index =>
    "index out of bounds: the len is " ++ Nat.repr length ++ " but the index is " ++ Nat.repr index

end FlowGraph
