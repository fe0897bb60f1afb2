import LineLisp.Session
import LineLisp.Text.Blank
import LineLisp.Text.Utf8

/-!
# Streams

A run reads lines of an input and writes to an output, and either of them may fail. An input holds
bytes and, if it fails after them, the fault. An output may have a limit: it keeps the bytes that
still fit, and the first byte that does not raises the fault.

A line is what stands before a newline byte. Bytes after the last newline are a line too when the
input ends properly, and are lost when it fails. Lines are decoded and trimmed before anyone sees
them.
-/

namespace LineLisp

/-- A failure of a stream. -/
structure Fault where
  message : String
deriving DecidableEq

structure Input where
  bytes : ByteArray
  /-- The fault that follows the bytes, or none if the input ends there. -/
  fault : Option Fault := none

def newline : UInt8 := 0x0A

/-- Puts a byte in front of the lines that a newline ends and the bytes after them. -/
def prependByte (b : UInt8) (p : List (List UInt8) × List UInt8) :
    List (List UInt8) × List UInt8 :=
  if b = newline then ([] :: p.1, p.2)
  else
    match p.1 with
    | [] => ([], b :: p.2)
    | line :: lines => ((b :: line) :: lines, p.2)

/-- The lines that a newline ends, and the bytes after the last newline. -/
def splitLines (bytes : List UInt8) : List (List UInt8) × List UInt8 :=
  bytes.foldr prependByte ([], [])

@[simp] theorem splitLines_nil : splitLines [] = ([], []) := rfl

@[simp] theorem splitLines_cons (b : UInt8) (bytes : List UInt8) :
    splitLines (b :: bytes) = prependByte b (splitLines bytes) := rfl

/-- Splitting loses nothing. -/
theorem join_splitLines (bytes : List UInt8) :
    (splitLines bytes).1.flatMap (· ++ [newline]) ++ (splitLines bytes).2 = bytes := by
  induction bytes with
  | nil => rfl
  | cons b bytes ih =>
    rw [splitLines_cons, prependByte]
    split
    · simp_all
    · cases h : (splitLines bytes).1 <;> simp_all

theorem newline_notMem_splitLines (bytes : List UInt8) :
    (∀ line ∈ (splitLines bytes).1, newline ∉ line) ∧ newline ∉ (splitLines bytes).2 := by
  induction bytes with
  | nil => simp
  | cons b bytes ih =>
    rw [splitLines_cons, prependByte]
    split
    · simp_all
    · cases h : (splitLines bytes).1 <;> simp_all [eq_comm]

namespace Input

def ofText (text : String) : Input := { bytes := text.toUTF8 }

/-- The lines that the input delivers, as bytes. -/
def rawLines (input : Input) : List (List UInt8) :=
  let (lines, rest) := splitLines input.bytes.data.toList
  if input.fault.isSome || rest.isEmpty then lines else lines ++ [rest]

/-- The lines that the input delivers, decoded and trimmed. -/
def lines (input : Input) : List String :=
  input.rawLines.map fun line => Text.trim (Text.decodeLossy line)

end Input

/-- How many bytes an output accepts, and how it fails at the next one. -/
structure Limit where
  capacity : Nat
  fault : Fault

structure Output where
  written : ByteArray := .empty
  limit : Option Limit := none

/-- Writes a text. Of one that does not fit, the bytes that do are kept. -/
def Output.write (text : String) : EStateM Fault Output Unit := fun out =>
  let bytes := text.toUTF8
  match out.limit with
  | none => .ok () { out with written := out.written ++ bytes }
  | some limit =>
    let room := limit.capacity - out.written.size
    if bytes.size ≤ room then .ok () { out with written := out.written ++ bytes }
    else .error limit.fault { out with written := out.written ++ bytes.extract 0 room }

structure Console where
  session : Session := ∅
  output : Output := {}

namespace Console

def write (text : String) : EStateM Fault Console Unit := fun console =>
  match Output.write text console.output with
  | .ok () out => .ok () { console with output := out }
  | .error fault out => .error fault { console with output := out }

end Console

end LineLisp
