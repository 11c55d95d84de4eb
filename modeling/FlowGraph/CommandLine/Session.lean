import FlowGraph.CommandLine.Arguments
import FlowGraph.Passage
import FlowGraph.Program.Encoding
import FlowGraph.Text.Plain

/-! # A run from the command line

What `main` does: it reads one procedure or a list of them, takes each through its graph, and writes
the result as text or as JSON of the same shape.  Files are reached through a `Storage`, so the
whole run is a function of what the storage holds.
-/
namespace FlowGraph
namespace CommandLine

/-! ### Input and output -/

/-- **What an input file holds.** -/
inductive Programs where
  | one (p : Procedure)
  | many (ps : List Procedure)
deriving DecidableEq, Repr, Inhabited

namespace Programs

/-- The procedures in order. -/
def toList : Programs → List Procedure
  | .one p => [p]
  | .many ps => ps

/-- Reads one procedure or a list of procedures.  An array is taken for a procedure if it can be. -/
def read (text : String) : Option Programs := do
  let j ← Json.parse text
  match Procedure.ofJson? .byNameOrPlace j with
  | some p => return .one p
  | none => return .many (← j.listOf? (Procedure.ofJson? .byNameOrPlace))

/-- The JSON form, of the same shape as the input. -/
def toJson : Programs → Json
  | .one p => p.toJson
  | .many ps => .arr (ps.map Procedure.toJson)

/-- The JSON text that is written. -/
def jsonText (ps : Programs) : String := ps.toJson.pretty ++ "\n"

/-- The text that is written: the procedures with an empty line between them. -/
def text (ps : Programs) : String :=
  "\n".intercalate (ps.toList.map fun p => p.text ++ "\n")

/-- Replaces every procedure, in order. -/
def mapM {m : Type → Type} [Monad m] (f : Procedure → m Procedure) : Programs → m Programs
  | .one p => return .one (← f p)
  | .many ps => return .many (← ps.mapM f)

end Programs

/-! ### Diagnostics -/

/-- Whether a run shows an event: printed text always, warnings always, notes for debugging only
when it is verbose. -/
def isShown (verbose : Bool) (e : Event) : Bool :=
  match e.level? with
  | none => true
  | some .warn => true
  | some .debug => verbose
  | some .trace => false

/-- The line of an event, without control sequences.  Further lines of its message are indented by
four blanks. -/
def logLine (e : Event) : String :=
  match e.level? with
  | none => e.message
  | some level =>
    let pad := String.ofList (List.replicate (5 - level.name.length) ' ')
    let message := "\n    ".intercalate (e.message.splitOn "\n")
    Text.plain ("[" ++ level.name ++ pad ++ " " ++ e.origin ++ "] " ++ message ++ "\n")

/-- What a run writes to the diagnostic output. -/
def diagnostics (verbose : Bool) (es : List Event) : String :=
  String.join ((es.filter (isShown verbose)).map logLine)

/-! ### The run -/

/-- **How files are reached.** -/
structure Storage (m : Type → Type) where
  /-- The text of a file, `none` if there is no such text. -/
  read : String → m (Option String)
  /-- Replaces the text of a file; tells whether that worked. -/
  write : String → String → m Bool

/-- **How a run ended.** -/
inductive Ending where
  | done
  | help
  | badUsage
  /-- The run failed for a reason outside the program. -/
  | failed (message : String)
  /-- An operation gave up. -/
  | crashed (f : Fault)
deriving DecidableEq

/-- The exit code of an ending. -/
def Ending.code : Ending → UInt32
  | .done => 0
  | .help => 0
  | .badUsage => 2
  | .failed _ => 1
  | .crashed _ => 101

/-- **What a run leaves behind**, its files apart. -/
structure Report where
  ending : Ending
  output : String := ""
  diagnostics : String := ""
deriving DecidableEq

/-- What help shows. -/
def helpText : String :=
  "Rebuild procedures through their control-flow graph\n\n" ++
  "Usage: mir-cfg [OPTIONS] <INPUT>\n\n" ++
  "Arguments:\n" ++
  "  <INPUT>  JSON file with a procedure or a list of procedures\n\n" ++
  "Options:\n" ++
  "  -v, --verbose    Print the graph between stages\n" ++
  "      --ssa        Go through SSA form and back\n" ++
  "      --json       Write the result as JSON instead of text\n" ++
  "      --dot <DOT>  Write graphviz dumps of every stage to this file\n" ++
  "  -o <OUTPUT>      Output file name, standard output by default\n" ++
  "  -h, --help       Print help\n"

/-- Takes all procedures through their graphs.  Gives the results and all drawings in a row. -/
def processAll (a : Arguments) (ps : Programs) : Run (Programs × String) := do
  let options : Passage.Options := ⟨a.verbose, a.ssa, a.dot.isSome⟩
  let step (p : Procedure) : StateT String Run Procedure := do
    let out ← Passage.run options p
    modify (· ++ String.join out.drawings)
    return out.procedure
  (ps.mapM step).run ""

/-- Writes the drawings, and then the result. -/
def deliver {m : Type → Type} [Monad m] (disk : Storage m) (a : Arguments) (ps : Programs)
    (drawings : String) : m (Ending × String) := do
  let rendered := if a.json then ps.jsonText else ps.text
  let drawn ← match a.dot with
    | none => pure none
    | some path =>
      if ← disk.write path drawings then pure none
      else pure (some ("cannot write " ++ path))
  match drawn, a.output with
  | some message, _ => return (.failed message, "")
  | none, none => return (.done, rendered)
  | none, some path =>
    if ← disk.write path rendered then return (.done, "")
    else return (.failed ("cannot open " ++ path ++ " for writing"), "")

/-- A run with arguments that were understood. -/
def process {m : Type → Type} [Monad m] (disk : Storage m) (a : Arguments) : m Report := do
  match ← disk.read a.input with
  | none => return ⟨.failed ("cannot read " ++ a.input), "", ""⟩
  | some text =>
    match Programs.read text with
    | none => return ⟨.failed (a.input ++ " is not a valid procedure"), "", ""⟩
    | some ps =>
      let run := processAll a ps
      let diagnostics := diagnostics a.verbose run.events
      match run.outcome with
      | .error f => return ⟨.crashed f, "", diagnostics⟩
      | .ok (ps, drawings) =>
        let (ending, output) ← deliver disk a ps drawings
        return ⟨ending, output, diagnostics⟩

/-- **A run from the command line.** -/
def session {m : Type → Type} [Monad m] (disk : Storage m) (args : List String) : m Report :=
  match Arguments.parse args with
  | .error .help => return ⟨.help, helpText, ""⟩
  | .error .bad => return ⟨.badUsage, "", ""⟩
  | .ok a => process disk a

end CommandLine
end FlowGraph
