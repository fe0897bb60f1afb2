import LineLisp.Arguments
import LineLisp.Script

/-!
# The command line

The program interacts, evaluates one expression, or runs a script, as its arguments say. Values go
to the standard output and the reason of a failure to the standard error. The exit code is 0 after a
success, 1 after a failure and 2 when the arguments are wrong.
-/

namespace LineLisp

/-- What a run of the program leaves behind. -/
structure Report where
  exitCode : UInt8
  stdout : ByteArray
  stderr : String

namespace CommandLine

def version : String := "minilisp 0.1.0\n"

def helpLines : List String :=
  ["A minimal Lisp-like expression interpreter with a tree-walking evaluator",
   "",
   "Usage: minilisp [OPTIONS] [CONTENTS]",
   "",
   "Arguments:",
   "  [CONTENTS]  An expression to evaluate. Starts the interactive loop when omitted",
   "",
   "Options:",
   "  -f, --file             Treat CONTENTS as the path of a file with one expression per line",
   "  -q, --quiet            With --file, only print the value of the last expression",
   "      --prompt <PROMPT>  Prompt shown by the interactive loop [default: \"lisp> \"]",
   "  -h, --help             Print help",
   "  -V, --version          Print version"]

def help : String := String.join (helpLines.map (· ++ "\n"))

/-- The message for a script that cannot be opened. -/
def cannotOpen (path : String) : String :=
  "Failed to read the input file '" ++ path ++ "'. Perhaps this file does not exist?"

/-- The report on a run that wrote to the output and may have failed. -/
def report (output : Output) (failure : Option String) : Report :=
  match failure with
  | none => ⟨0, output.written, ""⟩
  | some message => ⟨1, output.written, message ++ "\n"⟩

/-- Carries out an invocation in a fresh session. -/
def perform (stdin : Input) (openFile : String → Option Input) : Invocation → Report
  | .interact prompt =>
    match (Repl.run prompt stdin).run {} with
    | .ok () console => report console.output none
    | .error fault console => report console.output fault.message
  | .evaluate source =>
    match (Session.eval source).run ∅ with
    | .ok v _ => ⟨0, (v.render ++ "\n").toUTF8, ""⟩
    | .error e _ => ⟨1, .empty, e.message ++ "\n"⟩
  | .script path quiet =>
    match openFile path with
    | none => report {} (cannotOpen path)
    | some input =>
      match (Script.run quiet input).run {} with
      | .ok _ console => report console.output none
      | .error e console => report console.output e.message

/-- Runs the program on its arguments and its standard input. -/
def run (args : List String) (stdin : Input) (openFile : String → Option Input) : Report :=
  match Invocation.ofArguments args with
  | .ok invocation => perform stdin openFile invocation
  | .error .help => ⟨0, help.toUTF8, ""⟩
  | .error .version => ⟨0, version.toUTF8, ""⟩
  | .error (.usage e) => ⟨2, .empty, "error: " ++ e.message ++ "\n"⟩

end CommandLine

end LineLisp
