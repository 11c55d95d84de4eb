import FlowGraph.CommandLine.Session

/-! # The command line program

Reaches real files and the standard streams; everything else is `FlowGraph.CommandLine.session`.
-/
namespace FlowGraph
namespace CommandLine

/-- The files of the machine. -/
def disk : Storage IO where
  read path := try
      return String.fromUTF8? (← IO.FS.readBinFile path)
    catch _ => return none
  write path text := try
      IO.FS.writeFile path text
      return true
    catch _ => return false

/-- The last words of a run that did not go well. -/
def Ending.lastWords : Ending → String
  | .done => ""
  | .help => ""
  | .badUsage => "error: bad usage, try '--help'\n"
  | .failed message => "Error: " ++ message ++ "\n"
  | .crashed f => f.message ++ "\n"

end CommandLine
end FlowGraph

open FlowGraph.CommandLine in
def main (args : List String) : IO UInt32 := do
  let report ← session disk args
  (← IO.getStderr).putStr (report.diagnostics ++ report.ending.lastWords)
  (← IO.getStdout).putStr report.output
  return report.ending.code
