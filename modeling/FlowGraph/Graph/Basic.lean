import FlowGraph.OrdMap
import FlowGraph.Program.Basic

/-! # Control-flow graphs

The graph of one procedure (`Cfg`): blocks of at most one statement (`BasicBlock`, `BlockKind`),
joined by directed edges (`Edge`, `Direction`).  Blocks and edges live in two tables addressed by
handles (`BlockId`, `EdgeId`), the numbers of their slots.  A slot is never used again, so the
handle of something removed stays out of use for good.  Control enters at slot 0 and leaves at slot
1.

Each block lists its incoming and outgoing edges in an order of its own.  A *phi function* of a
block (`Phi`, `PhiNodes`) gives a variable a value that depends on the edge by which control
arrives.

In the text form the blocks stand in the order of their slots, each with its phi functions and what
it does, and under it its outgoing edges.
-/
namespace FlowGraph

/-! ### Handles -/

/-- **The handle of a block.** -/
@[ext]
structure BlockId where
  slot : Nat
deriving DecidableEq, Repr, Hashable, Inhabited

/-- **The handle of an edge.** -/
@[ext]
structure EdgeId where
  slot : Nat
deriving DecidableEq, Repr, Hashable, Inhabited

/-- `bb3` -/
def BlockId.text (b : BlockId) : String := "bb" ++ Nat.repr b.slot

/-- `BlockId(3)`, the form in which a block stands in a list or a comparison. -/
def BlockId.longText (b : BlockId) : String := "BlockId(" ++ Nat.repr b.slot ++ ")"

/-- `e5` -/
def EdgeId.text (e : EdgeId) : String := "e" ++ Nat.repr e.slot

namespace EdgeId

instance : LT EdgeId := ⟨fun a b => a.slot < b.slot⟩

instance : DecidableLT EdgeId := fun a b => Nat.decLt a.slot b.slot

instance : OrderedKey EdgeId where
  irrefl := Nat.lt_irrefl _
  trans := Nat.lt_trans
  connected h hne := by
    have : ¬ _ = _ := fun h' => hne (EdgeId.ext h')
    exact Nat.lt_of_le_of_ne (Nat.le_of_not_lt h) fun h' => this h'.symm

end EdgeId

/-! ### Records -/

/-- **Which outcome of a branch an edge stands for.** -/
inductive Direction where
  | onTrue
  | onFalse
  | always
deriving DecidableEq, Repr, Inhabited

namespace Direction

/-- The direction of a branch outcome. -/
def ofOutcome : Bool → Direction
  | true => .onTrue
  | false => .onFalse

/-- The name of a direction. -/
def name : Direction → String
  | .onTrue => "True"
  | .onFalse => "False"
  | .always => "Unconditional"

/-- The mark behind the target of an edge. -/
def mark : Direction → String
  | .onTrue => " [T]"
  | .onFalse => " [F]"
  | .always => ""

end Direction

/-- **What a block does.** -/
inductive Kind where
  | entry
  | exit
  | statement (s : Statement)
  | branch (b : Branch)
  | empty
deriving DecidableEq, Repr, Inhabited

namespace Kind

/-- Whether control splits here. -/
def isBranch : Kind → Bool
  | .branch _ => true
  | _ => false

/-- Whether control enters or leaves the procedure here. -/
def isTerminal : Kind → Bool
  | .entry => true
  | .exit => true
  | _ => false

/-- The name of a kind. -/
def name : Kind → String
  | .entry => "entry"
  | .exit => "exit"
  | .statement _ => "statement"
  | .branch _ => "branch"
  | .empty => "empty"

end Kind

/-- **A phi function** without its base name, which is its key in the block: the version of the
variable that it defines, and one argument for each incoming edge that has been given one. -/
structure Phi where
  version : Option Nat
  args : OrdMap EdgeId Var
deriving DecidableEq, Inhabited

namespace Phi

/-- A phi function without arguments. -/
def new (version : Option Nat) : Phi := ⟨version, .empty⟩

/-- The argument for an edge. -/
def arg? (p : Phi) (e : EdgeId) : Option Var := p.args.get? e

/-- Sets the argument for an edge. -/
def setArg (p : Phi) (e : EdgeId) (v : Var) : Phi := { p with args := p.args.insert e v }

/-- Takes the argument for an edge away. -/
def dropArg (p : Phi) (e : EdgeId) : Phi := { p with args := p.args.erase e }

/-- Passes the argument for one edge on to another. -/
def moveArg (p : Phi) (old new : EdgeId) : Phi :=
  match p.arg? old with
  | none => p
  | some v => (p.dropArg old).setArg new v

end Phi

/-- **The phi functions of a block**, by the base name of the variable that they define. -/
abbrev Phis := OrdMap String Phi

namespace Phis

/-- The variable that the phi function of a base name defines. -/
def lhs (name : String) (p : Phi) : Var := ⟨name, p.version⟩

/-- The phi functions with the variables that they define, in the order of their base names. -/
def toList (ps : Phis) : List (Var × Phi) := ps.entries.map fun (name, p) => (lhs name p, p)

/-- Changes every phi function. -/
def map (f : Phi → Phi) (ps : Phis) : Phis := ps.mapValues fun _ p => f p

end Phis

/-- **A block.** -/
structure Block where
  /-- The handle that the block records for itself. -/
  id : BlockId
  kind : Kind
  phis : Phis := .empty
  /-- The incoming edges. -/
  preds : List EdgeId := []
  /-- The outgoing edges. -/
  succs : List EdgeId := []
deriving DecidableEq, Inhabited

/-- **An edge.** -/
structure Edge where
  source : BlockId
  target : BlockId
  direction : Direction
deriving DecidableEq, Repr, Inhabited

/-- **A control-flow graph.** -/
structure Graph where
  /-- The name of the procedure. -/
  name : String
  /-- The blocks by slot. -/
  blocks : Array (Option Block)
  /-- The edges by slot. -/
  edges : Array (Option Edge)
deriving DecidableEq, Inhabited

namespace Graph

/-- Where control enters. -/
def entry : BlockId := ⟨0⟩

/-- Where control leaves. -/
def exit : BlockId := ⟨1⟩

/-- The block of a handle, if it is in use. -/
def block? (g : Graph) (b : BlockId) : Option Block := g.blocks[b.slot]?.join

/-- The edge of a handle, if it is in use. -/
def edge? (g : Graph) (e : EdgeId) : Option Edge := g.edges[e.slot]?.join

/-- Whether a block is in use. -/
def isLive (g : Graph) (b : BlockId) : Bool := (g.block? b).isSome

/-- The blocks in use, in the order of their slots. -/
def liveBlocks (g : Graph) : List Block := g.blocks.toList.filterMap id

/-- The handles of the blocks in use, in the order of their slots. -/
def blockIds (g : Graph) : List BlockId := g.liveBlocks.map (·.id)

/-- The edges in use with their handles, in the order of their slots. -/
def liveEdges (g : Graph) : List (EdgeId × Edge) :=
  g.edges.toList.zipIdx.filterMap fun (e, slot) => e.map (⟨slot⟩, ·)

/-- Where the outgoing edges of a block lead, in the order of its list. -/
def targets (g : Graph) (b : BlockId) : List BlockId :=
  match g.block? b with
  | none => []
  | some block => block.succs.filterMap fun e => (g.edge? e).map (·.target)

/-- Where the incoming edges of a block come from, in the order of its list. -/
def sources (g : Graph) (b : BlockId) : List BlockId :=
  match g.block? b with
  | none => []
  | some block => block.preds.filterMap fun e => (g.edge? e).map (·.source)

end Graph

/-! ### Text -/

/-- A phi function of a given variable, with its arguments in the order of their edges. -/
def Phi.text (lhs : Var) (p : Phi) : String :=
  let args := p.args.entries.map fun (e, v) => e.text ++ ": " ++ v.text
  lhs.text ++ " = phi(" ++ ", ".intercalate args ++ ")"

/-- What a block does, on one line. -/
def Kind.text : Kind → String
  | .entry => "ENTRY"
  | .exit => "EXIT"
  | .statement s => s.text
  | .branch b => "if (" ++ b.cond.text ++ ")"
  | .empty => ""

/-- A block without its edges and without a line end. -/
def Block.text (b : Block) : String :=
  let phis := b.phis.toList.map fun (lhs, p) => "\n    " ++ p.text lhs
  let body := match b.kind with
    | .statement _ => "\n    " ++ b.kind.text
    | .branch _ => "\n    " ++ b.kind.text
    | _ => ""
  b.id.text ++ " (" ++ b.kind.name ++ "):" ++ String.join phis ++ body

/-- A block with its outgoing edges, each on a line of its own. -/
def Graph.blockText (g : Graph) (b : Block) : String :=
  let line (e : EdgeId) : Option String := (g.edge? e).map fun edge =>
    "    " ++ e.text ++ " -> " ++ edge.target.text ++ edge.direction.mark ++ "\n"
  b.text ++ "\n" ++ String.join (b.succs.filterMap line)

/-- **The text form of a graph.** -/
def Graph.text (g : Graph) : String :=
  "cfg " ++ g.name ++ ":\n" ++ String.join (g.liveBlocks.map g.blockText)

end FlowGraph
