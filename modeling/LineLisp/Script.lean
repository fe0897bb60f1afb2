import LineLisp.Stream

/-!
# Scripts

A script is an input with one expression on each line. Blank lines are skipped, but they count. The
first line that fails ends the run. A verbose run writes each value when it is known; a quiet run
writes the last one, and only if no line has failed.
-/

namespace LineLisp

/-- Why a script stopped. -/
inductive ScriptError where
  /-- A line failed; lines are counted from one. -/
  | line (number : Nat) (e : Error)
  | stream (fault : Fault)
deriving DecidableEq

def ScriptError.message : ScriptError → String
  | .line number e => "Error on line " ++ number.repr ++ ": " ++ e.message
  | .stream fault => fault.message

namespace Script

/-- Evaluates a line in the session of the console. -/
def evaluate (number : Nat) (source : String) : EStateM ScriptError Console Value := fun console =>
  match Session.eval source console.session with
  | .ok v session => .ok v { console with session }
  | .error e session => .error (.line number e) { console with session }

def print (v : Value) : EStateM ScriptError Console Unit :=
  (Console.write (v.render ++ "\n")).adaptExcept .stream

/-- Ends a run that met no fault: if it was quiet, its last value is written now. -/
def finish (quiet : Bool) (last : Option Value) : EStateM ScriptError Console (Option Value) := do
  match last with
  | some v => if quiet then print v
  | none => pure ()
  return last

/-- Runs the remaining lines. The first of them has the given number, and `last` is the latest
value so far. -/
def loop (quiet : Bool) (fault : Option Fault) :
    Nat → Option Value → List String → EStateM ScriptError Console (Option Value)
  | _, last, [] =>
    match fault with
    | some fault => throw (.stream fault)
    | none => finish quiet last
  | number, last, line :: lines =>
    if line = "" then loop quiet fault (number + 1) last lines
    else do
      let v ← evaluate number line
      unless quiet do print v
      loop quiet fault (number + 1) (some v) lines

/-- Runs a script in the session of the console, and returns the value of its last expression. -/
def run (quiet : Bool) (input : Input) : EStateM ScriptError Console (Option Value) :=
  loop quiet input.fault 1 none input.lines

end Script

end LineLisp
