import LineLisp.CommandLine
import LineLisp.Directory

/-!
# The program

Connects the command line to the standard streams and to files. The interactive loop takes its turns
one line at a time, so that it can be used at a terminal; everything else is read before it is run.
-/

namespace LineLisp.Main

/-- The fault of a read or write that the system refused. -/
def faultOf : IO.Error → Fault
  | .inappropriateType _ _ _ => Directory.fault
  | e => ⟨e.toString⟩

/-- An action that ends in a fault where the system refuses it. -/
def attempt {α : Type} (action : IO α) : IO (Except Fault α) := do
  try return .ok (← action)
  catch e => return .error (faultOf e)

/-- The bytes of the next line without its newline, or none at the end of the input. The line
begins with the bytes given. -/
partial def readLine (stdin : IO.FS.Stream) (line : ByteArray) : IO (Option (List UInt8)) := do
  match (← stdin.read 1).data.toList with
  | [] => return if line.isEmpty then none else some line.data.toList
  | b :: _ => if b = newline then return some line.data.toList else readLine stdin (line.push b)

/-- Runs a part of the loop, and puts on the output what it writes before anything else is read. -/
def emit {α : Type} (stdout : IO.FS.Stream) (part : EStateM Fault Console α) (session : Session) :
    ExceptT Fault IO (α × Session) := do
  let put (console : Console) : ExceptT Fault IO Unit := .mk <| attempt do
    stdout.write console.output.written
    stdout.flush
  match part.run { session } with
  | .ok a console => put console; return (a, console.session)
  | .error fault console => put console; throw fault

/-- The loop, one line read at a time. Bytes that a failing read leaves without a newline are
lost. -/
partial def interact (stdin stdout : IO.FS.Stream) (prompt : String) (session : Session) :
    ExceptT Fault IO Unit := do
  let (_, session) ← emit stdout (Console.write prompt) session
  match ← ExceptT.lift (attempt (readLine stdin .empty)) with
  | .ok (some line) =>
    let text := Text.trim (Text.decodeLossy line)
    let (goesOn, session) ← emit stdout (Repl.turn text) session
    if goesOn then interact stdin stdout prompt session
  | .ok none => discard <| emit stdout (Repl.close none) session
  | .error fault => discard <| emit stdout (Repl.close fault) session

/-- What reading a file gives, with the fault that ended it. -/
partial def readAll (handle : IO.FS.Handle) (bytes : ByteArray) : IO Input := do
  try
    let chunk ← handle.read 65536
    if chunk.isEmpty then return { bytes } else readAll handle (bytes ++ chunk)
  catch e => return { bytes, fault := some (faultOf e) }

def openFile (path : String) : IO (Option Input) := do
  try
    let handle ← IO.FS.Handle.mk path .read
    return some (← readAll handle .empty)
  catch _ => return none

/-- Writes a report to the standard streams and returns its exit code. -/
def publish (report : Report) : IO UInt32 := do
  (← IO.getStdout).write report.stdout
  (← IO.getStderr).putStr report.stderr
  return report.exitCode.toUInt32

def run (args : List String) : IO UInt32 := do
  match Invocation.ofArguments args with
  | .ok (.interact prompt) =>
    let stdin ← IO.getStdin
    let stdout ← IO.getStdout
    let dialogue : ExceptT Fault IO Unit := do
      let (_, session) ← emit stdout (Console.write Repl.banner) ∅
      interact stdin stdout prompt session
    match ← dialogue.run with
    | .ok () => publish (CommandLine.report {} none)
    | .error fault => publish (CommandLine.report {} fault.message)
  | .ok (.script path _) =>
    let file ← openFile path
    publish (CommandLine.run args { bytes := .empty } fun _ => file)
  | _ => publish (CommandLine.run args { bytes := .empty } fun _ => none)

end LineLisp.Main

def main (args : List String) : IO UInt32 :=
  LineLisp.Main.run args
