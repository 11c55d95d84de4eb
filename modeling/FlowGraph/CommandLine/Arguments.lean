/-! # Command line arguments

The flags, options and the input of `Cli`.  Flags may stand alone or together (`-v`, `--ssa`),
options have a value behind them, behind an equals sign or, for short ones, joined to them.
Whatever else there is has to be the one input.  After `--` everything is taken for input.  Nothing
may be given twice and no value may be empty.
-/
namespace FlowGraph
namespace CommandLine

/-- **The arguments of a run.** -/
structure Arguments where
  /-- Print the graph between stages. -/
  verbose : Bool
  /-- Go through single assignment form and back. -/
  ssa : Bool
  /-- Write the result as JSON instead of text. -/
  json : Bool
  /-- Where to write drawings of every stage. -/
  dot : Option String
  /-- Where to write the result, standard output by default. -/
  output : Option String
  /-- The file to read. -/
  input : String
deriving DecidableEq, Repr, Inhabited

/-- **Why the arguments do not make a run.** -/
inductive Usage where
  /-- Help was asked for. -/
  | help
  /-- The arguments are not of the agreed form. -/
  | bad
deriving DecidableEq, Repr

/-- The arguments read so far. -/
structure Draft where
  verbose : Bool := false
  ssa : Bool := false
  json : Bool := false
  dot : Option String := none
  output : Option String := none
  input : Option String := none
deriving DecidableEq, Repr, Inhabited

namespace Draft

/-- Sets the verbose flag, which must not be set. -/
def setVerbose (d : Draft) : Except Usage Draft :=
  if d.verbose then .error .bad else .ok { d with verbose := true }

/-- A value for something that has none yet. -/
def fresh (old : Option String) (value : String) : Except Usage (Option String) :=
  if old.isSome || value.isEmpty then .error .bad else .ok (some value)

/-- Sets the file for drawings. -/
def setDot (d : Draft) (value : String) : Except Usage Draft :=
  return { d with dot := ← fresh d.dot value }

/-- Sets the output file. -/
def setOutput (d : Draft) (value : String) : Except Usage Draft :=
  return { d with output := ← fresh d.output value }

/-- Sets the input file. -/
def setInput (d : Draft) (value : String) : Except Usage Draft :=
  return { d with input := ← fresh d.input value }

/-- Sets a flag by its long name. -/
def setFlag (d : Draft) (name : String) : Except Usage Draft :=
  if name = "verbose" then d.setVerbose
  else if name = "ssa" then if d.ssa then .error .bad else .ok { d with ssa := true }
  else if name = "json" then if d.json then .error .bad else .ok { d with json := true }
  else if name = "help" then .error .help
  else .error .bad

end Draft

/-- What an argument is. -/
inductive Shape where
  /-- `--name` or `--name=value` -/
  | long (name : String) (value : Option String)
  /-- A dash and some letters. -/
  | short (letters : List Char)
  /-- The mark after which everything is input. -/
  | divider
  /-- Everything else, a single dash included. -/
  | plain
deriving DecidableEq, Repr

/-- Tells the shape of an argument. -/
def shapeOf (arg : String) : Shape :=
  match arg.toList with
  | ['-', '-'] => .divider
  | '-' :: '-' :: cs =>
    let name := String.ofList (cs.takeWhile (· ≠ '='))
    match cs.dropWhile (· ≠ '=') with
    | [] => .long name none
    | _ :: value => .long name (some (String.ofList value))
  | '-' :: c :: cs => .short (c :: cs)
  | _ => .plain

/-- What a group of short options leaves to be done. -/
inductive ShortRest where
  | nothing
  /-- The value of the last option is still to come. -/
  | outputValue
deriving DecidableEq, Repr

/-- Reads a group of short options. -/
def readShort : Draft → List Char → Except Usage (Draft × ShortRest)
  | d, [] => .ok (d, .nothing)
  | d, 'v' :: cs => do readShort (← d.setVerbose) cs
  | _, 'h' :: _ => .error .help
  | d, ['o'] => .ok (d, .outputValue)
  | d, 'o' :: '=' :: cs => return (← d.setOutput (String.ofList cs), .nothing)
  | d, 'o' :: cs => return (← d.setOutput (String.ofList cs), .nothing)
  | _, _ :: _ => .error .bad

/-- Reads arguments one after the other. -/
def readArguments : Draft → List String → Except Usage Draft
  | d, [] => .ok d
  | d, arg :: rest =>
    match shapeOf arg with
    | .divider => rest.foldlM Draft.setInput d
    | .plain => do readArguments (← d.setInput arg) rest
    | .long "dot" (some value) => do readArguments (← d.setDot value) rest
    | .long "dot" none =>
      match rest with
      | value :: rest =>
        if shapeOf value = .plain then do readArguments (← d.setDot value) rest else .error .bad
      | [] => .error .bad
    | .long _ (some _) => .error .bad
    | .long name none => do readArguments (← d.setFlag name) rest
    | .short letters =>
      match readShort d letters with
      | .error u => .error u
      | .ok (d, .nothing) => readArguments d rest
      | .ok (d, .outputValue) =>
        match rest with
        | value :: rest =>
          if shapeOf value = .plain then do readArguments (← d.setOutput value) rest
          else .error .bad
        | [] => .error .bad

/-- **Reads the arguments of a run.** -/
def Arguments.parse (args : List String) : Except Usage Arguments := do
  let d ← readArguments {} args
  match d.input with
  | some input => return ⟨d.verbose, d.ssa, d.json, d.dot, d.output, input⟩
  | none => throw .bad

end CommandLine
end FlowGraph
