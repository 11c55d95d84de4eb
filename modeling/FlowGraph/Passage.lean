import FlowGraph.Drawing
import FlowGraph.Routine

/-! # The passage of a procedure through its graph

Builds the graph of a procedure, tidies it, takes it through single assignment form and back if
asked to, and lays it out again (`run`).  Each stage is announced and its graph drawn if asked to
(`banner` and `done` of `Stages`).
-/
namespace FlowGraph
namespace Passage

/-- **What a passage is asked for.** -/
structure Options where
  /-- Print the graph after each stage. -/
  verbose : Bool
  /-- Go through single assignment form and back. -/
  ssa : Bool
  /-- Draw the graph after each stage. -/
  draw : Bool
deriving DecidableEq, Repr, Inhabited

/-- **What a passage gives.** -/
structure Output where
  procedure : Procedure
  /-- The drawings, one for each stage, if they were asked for. -/
  drawings : List String
deriving DecidableEq, Repr, Inhabited

/-- Announces a stage. -/
def announce (o : Options) (stage : String) : Run Unit :=
  if o.verbose then Run.report (.printed ("========== " ++ stage ++ " ===========\n")) else pure ()

/-- Shows the graph after a stage.  Gives its drawing, if drawings are asked for.  The text looks up
the edges that blocks list, and the drawing looks up the blocks. -/
def present (o : Options) (r : Routine) (stage : String) : Run (List String × Routine) := do
  if o.verbose then
    r.graph.demandListed
    Run.report (.printed (r.graph.text ++ "\n"))
  if o.draw then
    let (w, r) ← r.needWeb
    r.graph.demandLive r.graph.blockIds
    return ([r.graph.drawing stage (Drawing.defUse w)], r)
  else return ([], r)

/-- The way through single assignment form and back. -/
def throughSsa (o : Options) (r : Routine) : Run (List String × Routine) := do
  announce o "CONVERT TO SSA"
  let r ← r.toSsa
  let (inside, r) ← present o r "in SSA form"
  announce o "CONVERT OUT OF SSA"
  let r ← r.outOfSsa
  let (outside, r) ← present o r "out of SSA form"
  return (inside ++ outside, r)

/-- What is done to the graph between tidying and laying out. -/
def convert (o : Options) (r : Routine) : Run (List String × Routine) :=
  if o.ssa then throughSsa o r else pure ([], r)

/-- **Takes a procedure through its graph.** -/
def run (o : Options) (p : Procedure) : Run Output := do
  Run.report (.optimizing p.name)
  announce o "BUILD CFG"
  let r ← Routine.ofProcedure p
  let (built, r) ← present o r "built"
  announce o "TIDY"
  let (_, r) ← r.tidy
  let (tidied, r) ← present o r "tidied"
  let (converted, r) ← convert o r
  announce o "LINEARIZE"
  let statements ← r.layOut
  let procedure : Procedure := ⟨r.graph.name, statements⟩
  if o.verbose then Run.report (.printed (procedure.text ++ "\n"))
  return ⟨procedure, built ++ tidied ++ converted⟩

end Passage
end FlowGraph
