import FlowGraph.Proofs.Conversion

/-! # Operations as data

The operations on a routine with their arguments, so that histories of a routine can be spoken of:
`act` carries one out, `acts` several in a row, and `moments` are the graphs that come about on the
way, those between the steps of a batch included.

`Action.Refused` lists the reasons for which an operation gives up.  Each of them is about the
arguments, given the graph at the start; the only one about the graph afterwards is that a batch may
leave it unsound.
-/
namespace FlowGraph

/-- **An operation on a routine** with its arguments.  Access to a block (`block_mut`) is access to
its statement or branch, as its comment has it, and to the versions of its phi functions:
`setStatement`, `setBranch`, `setCond` and `setPhiVersion` are what can be done with it.  To put
another block in the place of the whole record is not among the operations. -/
inductive Action where
  | batch (steps : List Graph.Step)
  | putBetween (source target : BlockId) (kind : Kind)
  | putOnEdge (e : EdgeId) (kind : Kind)
  | replace (b : BlockId) (chain : List Graph.Replacement)
  | simplifySolo (b : BlockId)
  | forgetPhis (b : BlockId)
  | tidy
  | resolveBranch (b : BlockId) (outcome : Bool)
  | toSsa
  | outOfSsa
  | setStatement (b : BlockId) (s : Statement)
  | setBranch (b : BlockId) (br : Branch)
  | setCond (b : BlockId) (cond : Var)
  | setPhiVersion (b : BlockId) (lhs : Var)
  | refreshDominance
  | needDominance
  | needWeb
  | rebuildWeb
deriving DecidableEq

namespace Routine

/-- **Carries out an operation.**  What it gives besides the routine is left out. -/
def act (r : Routine) : Action → Run Routine
  | .batch steps => do return (← r.runBatch steps).2
  | .putBetween source target kind => do return (← r.putBetween source target kind).2
  | .putOnEdge e kind => do return (← r.putOnEdge e kind).2
  | .replace b chain => do return (← r.replace b chain).2
  | .simplifySolo b => r.simplifySolo b
  | .forgetPhis b => r.forgetPhis b
  | .tidy => do return (← r.tidy).2
  | .resolveBranch b outcome => r.resolveBranch b outcome
  | .toSsa => r.toSsa
  | .outOfSsa => r.outOfSsa
  | .setStatement b s => do return (← r.setStatement b s).2
  | .setBranch b br => do return (← r.setBranch b br).2
  | .setCond b cond => do return (← r.setCond b cond).2
  | .setPhiVersion b lhs => do return (← r.setPhiVersion b lhs).2
  | .refreshDominance => do return (← r.refreshDominance).2
  | .needDominance => do return (← r.needDominance).2
  | .needWeb => do return (← r.needWeb).2
  | .rebuildWeb => r.rebuildWeb

/-- Carries out operations one after the other. -/
def acts (r : Routine) (as : List Action) : Run Routine := as.foldlM act r

end Routine

/-! ### Moments -/

namespace Graph

/-- The graph after some steps of a batch. -/
def performs (g : Graph) (steps : List Step) : Answer Graph :=
  steps.foldlM (fun g s => do return (← g.perform s).2) g

/-- The graphs after each step of a batch, as far as it gets. -/
def during (g : Graph) : List Step → List Graph
  | [] => []
  | s :: rest =>
    match g.perform s with
    | .ok (_, g') => g' :: g'.during rest
    | .error _ => []

end Graph

/-- The graphs that come about while an operation is carried out. -/
def Action.during (g : Graph) : Action → List Graph
  | .batch steps => g.during steps
  | _ => []

/-- **The graphs of a routine** at the start, during each operation and after it, as far as the
operations get. -/
def Routine.moments (r : Routine) : List Action → List Graph
  | [] => [r.graph]
  | a :: as => r.graph :: (a.during r.graph ++
    match (r.act a).outcome with
    | .ok r' => r'.moments as
    | .error _ => [])

/-! ### Reasons to refuse -/

/-- The blocks that a step of a batch is about. -/
def Graph.Step.blocks : Graph.Step → List BlockId
  | .addBlock _ => []
  | .addEdge source target => [source, target]
  | .addConditionalEdges source ifTrue ifFalse => [source, ifTrue, ifFalse]
  | .removeEdge _ => []
  | .removeBlock b => [b]
  | .addPhi b _ => [b]
  | .setPhiArg b _ _ _ => [b]

/-- **Why a step of a batch is refused.** -/
inductive Graph.Step.Refused (g : Graph) : Graph.Step → Fault → Prop
  | staleBlock {s b} (hb : b ∈ s.blocks) (h : g.block? b = none) :
      Refused g s (.violation (.staleBlock b))
  | staleEdge {e} (h : g.edge? e = none) : Refused g (.removeEdge e) (.violation (.staleEdge e))
  | extraTerminal {k} (h : k.isTerminal = true) : Refused g (.addBlock k) .extraTerminal
  | notBranch {b k t f} (hk : g.kind? b = some k) (h : k.isBranch = false) :
      Refused g (.addConditionalEdges b t f) (.conditionalFromNonBranch b)
  | terminal {b k} (hk : g.kind? b = some k) (h : k.isTerminal = true) :
      Refused g (.removeBlock b) .removedTerminal
  | noPhi {b block v e value} (hb : g.block? b = some block)
      (h : block.phis.get? v.name = none) : Refused g (.setPhiArg b v e value) (.noPhi b v)

/-- The block that an operation looks up. -/
def Action.block? : Action → Option BlockId
  | .putBetween source _ _ => some source
  | .replace b chain => if chain = [.itself] then none else some b
  | .simplifySolo b => some b
  | .forgetPhis b => some b
  | .resolveBranch b _ => some b
  | .setStatement b _ => some b
  | .setBranch b _ => some b
  | .setCond b _ => some b
  | .setPhiVersion b _ => some b
  | _ => none

/-- **Why an operation is refused.** -/
inductive Action.Refused (g : Graph) : Action → Fault → Prop
  | staleBlock {a b} (hb : a.block? = some b) (h : g.block? b = none) :
      Refused g a (.violation (.staleBlock b))
  | staleEdge {e k} (h : g.edge? e = none) : Refused g (.putOnEdge e k) (.violation (.staleEdge e))
  | noEdge {a b k} (h : ¬ g.Leads a b) : Refused g (.putBetween a b k) (.noEdge a b)
  | unspliceable {e k} (h : k.isBranch = true ∨ k.isTerminal = true) :
      Refused g (.putOnEdge e k) .unspliceable
  | unspliceableBetween {a b k} (h : k.isBranch = true ∨ k.isTerminal = true) :
      Refused g (.putBetween a b k) .unspliceable
  | notBranch {b k outcome} (hk : g.kind? b = some k) (h : k.isBranch = false) :
      Refused g (.resolveBranch b outcome) (.notBranch b)
  | unremovable {b k} (hk : g.kind? b = some k) (h : k.isTerminal = true) :
      Refused g (.replace b []) (.unremovable b)
  | unroutable {b k} (hk : g.kind? b = some k) (h : k.isBranch = true) :
      Refused g (.replace b []) (.unroutable b)
  | ownSuccessor {b} (h : g.Leads b b) : Refused g (.replace b []) (.ownSuccessor b)
  | irreplaceable {b k chain} (hk : g.kind? b = some k)
      (h : k.isTerminal = true ∨ k.isBranch = true) :
      Refused g (.replace b chain) (.irreplaceable k b)
  | repeatedInChain {b chain} (h : 2 ≤ chain.count .itself) :
      Refused g (.replace b chain) (.repeatedInChain b)
  | branchInChain {b k chain} (hk : .block k ∈ chain) (h : k.isBranch = true) :
      Refused g (.replace b chain) .branchInChain
  | terminalInChain {b k chain} (hk : .block k ∈ chain) (h : k.isTerminal = true) :
      Refused g (.replace b chain) .terminalInChain
  /-- A phi function has no argument for an edge that enters its block. -/
  | missingArgument {b block name p e} (hb : g.block? b = some block)
      (hp : block.phis.get? name = some p) (he : e ∈ block.preds) (h : p.arg? e = none) :
      Refused g .outOfSsa (.missingPhiArg (Phis.lhs name p) p b e)
  /-- Phi functions that were there before leave a variable without a version. -/
  | missingVersion {g' b block v} (hg : ¬ g.PhiFree) (hb : g'.block? b = some block)
      (hv : v ∈ block.occurrences) (h : v.isVersioned = false) :
      Refused g .toSsa (.notInSsa g' (.missingVersion b v))
  /-- A step of a batch is refused by the graph as it is by then. -/
  | step {front s rest g₁ f} (hfront : g.performs front = .ok g₁) (h : s.Refused g₁ f) :
      Refused g (.batch (front ++ s :: rest)) f
  /-- A batch leaves the graph unsound. -/
  | unsound {steps g' v} (hsteps : g.performs steps = .ok g') (h : g'.checkWiring = .error v) :
      Refused g (.batch steps) (.inconsistent g' v)

end FlowGraph
