import LineLisp.Stream

/-!
# The interactive loop

The loop prompts for a line, answers it, and goes on until a line asks it to leave or the input
ends. A line that fails is answered by its error. An answer is written after the line has taken
effect, so a fault of the output finds the session changed by the line whose answer it cut.

## Main definitions

- `Command.ofLine`: what a trimmed line asks for.
- `Command.answer`: the text that answers it, and the session afterwards.
- `Repl.run`: the loop over an input.
-/

namespace LineLisp

inductive Command where
  | exit
  | nothing
  | bindings
  | help
  | evaluate (source : String)
deriving DecidableEq

namespace Command

/-- The command that a trimmed line stands for. -/
def ofLine (line : String) : Command :=
  if line.toLower = "exit" then .exit
  else if line = "" then .nothing
  else if line = ":env" then .bindings
  else if line = ":help" then .help
  else .evaluate line

end Command

/-- One line for each binding. -/
def Env.listing (env : Env) : String :=
  if env.isEmpty then "(no bindings)\n"
  else String.join (env.bindings.map fun (name, v) => name ++ " = " ++ v.render ++ "\n")

/-- The operators and constants of the language. -/
def helpText : String :=
  "operators: " ++ " ".intercalate (Operator.all.map Operator.name) ++ "\n" ++
  "constants: true false\n"

/-- The line that answers a source text, and the session after its evaluation. -/
def Session.respond (session : Session) (source : String) : String × Session :=
  match (Session.eval source).run session with
  | .ok v session => (v.render ++ "\n", session)
  | .error e session => ("Error: " ++ e.message ++ "\n", session)

/-- The answer to a command, and the session after it. -/
def Command.answer : Command → Session → String × Session
  | .exit, session => ("Goodbye!\n", session)
  | .nothing, session => ("", session)
  | .bindings, session => (session.listing, session)
  | .help, session => (helpText, session)
  | .evaluate source, session => session.respond source

namespace Repl

def defaultPrompt : String := "lisp> "

def banner : String := "minilisp\nType 'exit' to quit\n"

def farewell : String := "\nInput stream closed. Exiting...\n"

/-- Lets a command take effect, and then writes its answer. -/
def perform (command : Command) : EStateM Fault Console Unit := do
  let text ← modifyGet fun console =>
    let (text, session) := command.answer console.session
    (text, { console with session })
  Console.write text

/-- Answers one line, and says whether the loop goes on behind it. -/
def turn (line : String) : EStateM Fault Console Bool := do
  let command := Command.ofLine line
  perform command
  return command ≠ .exit

/-- Ends the loop when no line is left; `fault` is how the input ended. -/
def close : Option Fault → EStateM Fault Console Unit
  | none => Console.write farewell
  | some fault => throw fault

/-- Answers the remaining lines; `fault` is how the input ends after them. -/
def loop (prompt : String) (fault : Option Fault) : List String → EStateM Fault Console Unit
  | [] => do
    Console.write prompt
    close fault
  | line :: lines => do
    Console.write prompt
    if ← turn line then loop prompt fault lines

/-- Runs the loop over an input, in the session of the console. -/
def run (prompt : String) (input : Input) : EStateM Fault Console Unit := do
  Console.write banner
  loop prompt input.fault input.lines

end Repl

end LineLisp
