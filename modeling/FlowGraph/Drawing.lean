import FlowGraph.Graph.Basic
import FlowGraph.Web

/-! # Graphs for drawing

A graph in the language of graph drawing tools (`write_graphviz`).  The node of a block
(`node_label`) shows notes above the block, the block with its phi functions, notes about it and
notes below it (`annotation_region`); `DefUseAnnotations` are such notes.  Quotes, backslashes and
line ends in labels are escaped (`escape`).
-/
namespace FlowGraph
namespace Drawing

/-- A name with a list of values, shown as `live = [a, b]`. -/
abbrev Note := String × List String

/-- **What is shown with a block.** -/
structure Notes where
  /-- Attributes of the node, such as a colour. -/
  attributes : List (String × String) := []
  head : List Note := []
  block : List Note := []
  tail : List Note := []
deriving Repr, Inhabited

/-- **What is shown with each block.** -/
abbrev Annotation := BlockId → Notes

/-- Nothing is shown but the blocks. -/
def plain : Annotation := fun _ => {}

/-- Shows the variables that each block defines and uses. -/
def defUse (w : Web) : Annotation := fun b =>
  { block := [("defs", w.blockDefs b), ("uses", w.blockUses b)] }

/-- Characters between the quotes of a label. -/
def escape (c : Char) : List Char :=
  if c = '"' then ['\\', '"']
  else if c = '\\' then ['\\', '\\']
  else if c = '\n' then ['\\', 'n']
  else [c]

/-- A text between the quotes of a label. -/
def escaped (s : String) : String := String.ofList (s.toList.flatMap escape)

/-- A list of values is wrapped once its line has more bytes than this. -/
def lineLength : Nat := 30

/-- Adds the values after the first to a line.  `count` is the number of lines so far. -/
def wrap : Nat → String → List String → String
  | _, line, [] => line
  | count, line, v :: vs =>
    let line := line ++ ", "
    if lineLength * count < line.utf8ByteSize then
      wrap (count + 1) (line ++ "\\n" ++ escaped v) vs
    else wrap count (line ++ escaped v) vs

/-- The line of a note; a note without values has none. -/
def noteLine : Note → String
  | (_, []) => ""
  | (name, v :: vs) => wrap 1 (escaped name ++ " = [" ++ escaped v) vs ++ "]\\n"

/-- The lines of some notes. -/
def region (notes : List Note) : String := String.join (notes.map noteLine)

/-- The phi functions of a block and what it does. -/
def source (b : Block) : String :=
  String.join (b.phis.toList.map fun (lhs, p) => p.text lhs ++ "\n") ++ b.kind.text

/-- The label of a node. -/
def nodeLabel (b : Block) (notes : Notes) : String :=
  let head := region notes.head
  let block := region notes.block
  let tail := region notes.tail
  head ++ (if head.isEmpty then "" else "\\n") ++ escaped (source b) ++
    (if block.isEmpty && tail.isEmpty then "" else "\\n\\n") ++ block ++ tail

/-- The line of a node. -/
def node (b : Block) (notes : Notes) : String :=
  let attributes := notes.attributes.map fun (k, v) => k ++ "=" ++ v ++ ","
  Nat.repr b.id.slot ++ "[" ++ String.join attributes ++ "label=\"" ++ nodeLabel b notes ++ "\"];\n"

/-- The label of an edge. -/
def edgeLabel : Direction → String
  | .onTrue => " [label=T]"
  | .onFalse => " [label=F]"
  | .always => ""

/-- The line of an edge. -/
def edge (e : Edge) : String :=
  Nat.repr e.source.slot ++ "->" ++ Nat.repr e.target.slot ++ edgeLabel e.direction ++ ";\n"

end Drawing

/-- **The drawing of a graph** under a title, with notes. -/
def Graph.drawing (g : Graph) (title : String) (notes : Drawing.Annotation) : String :=
  "digraph G \x7b\n" ++ "graph [outputorder=edgesfirst];\n" ++
    "graph [label=\"" ++ Drawing.escaped (g.name ++ " - " ++ title) ++ "\"];\n" ++
    String.join (g.liveBlocks.map fun b => Drawing.node b (notes b.id)) ++
    String.join (g.liveEdges.map fun (_, e) => Drawing.edge e) ++ "\x7d\n"

end FlowGraph
