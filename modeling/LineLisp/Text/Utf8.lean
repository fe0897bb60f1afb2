/-!
# Lossy UTF-8 decoding

Bytes become text by an automaton that reads one byte at a time. Between characters it is idle;
inside a character it knows the bits read so far, how many bytes are missing, and the range in which
the next byte has to lie. The range excludes overlong forms, surrogates and code points above
U+10FFFF, so that a sequence is given up at its first byte that no well-formed sequence has there.
What was given up becomes one U+FFFD, and the byte that broke it is read again from the idle state.
-/

namespace LineLisp.Text

/-- The character that stands for an ill-formed sequence. -/
def replacement : Char := '\uFFFD'

/-- A character of which a proper, well-formed beginning has been read. -/
structure Unfinished where
  /-- The payload bits read so far. -/
  code : Nat
  /-- How many bytes follow the next one. -/
  after : Nat
  /-- The least next byte. -/
  low : UInt8
  /-- The greatest next byte. -/
  high : UInt8
  /-- No byte below `0x80` goes on with a character, so a newline always stands for itself. -/
  ascii_lt_low : 0x80 ≤ low := by decide
deriving DecidableEq

/-- The state between two bytes: idle, or inside a character. -/
abbrev Decoder := Option Unfinished

namespace Decoder

/-- Reads the first byte of a character: what it writes, and the state after it. -/
def lead (b : UInt8) : List Char × Decoder :=
  if b < 0x80 then ([Char.ofNat b.toNat], none)
  else if b < 0xC2 then ([replacement], none)
  else if b < 0xE0 then ([], some (.mk (b.toNat - 0xC0) 0 0x80 0xBF))
  else if b = 0xE0 then ([], some (.mk 0x0 1 0xA0 0xBF))
  else if b = 0xED then ([], some (.mk 0xD 1 0x80 0x9F))
  else if b < 0xF0 then ([], some (.mk (b.toNat - 0xE0) 1 0x80 0xBF))
  else if b = 0xF0 then ([], some (.mk 0x0 2 0x90 0xBF))
  else if b < 0xF4 then ([], some (.mk (b.toNat - 0xF0) 2 0x80 0xBF))
  else if b = 0xF4 then ([], some (.mk 0x4 2 0x80 0x8F))
  else ([replacement], none)

/-- Reads one byte: what it writes, and the state after it. -/
def step : Decoder → UInt8 → List Char × Decoder
  | none, b => lead b
  | some p, b =>
    if p.low ≤ b ∧ b ≤ p.high then
      let code := p.code * 64 + (b.toNat - 0x80)
      match p.after with
      | 0 => ([Char.ofNat code], none)
      | n + 1 => ([], some (.mk code n 0x80 0xBF))
    else
      let (cs, d) := lead b
      (replacement :: cs, d)

/-- What is written when the bytes end here. -/
def finish : Decoder → List Char
  | none => []
  | some _ => [replacement]

/-- An ASCII byte ends what is unfinished and stands for itself. -/
theorem step_of_lt (d : Decoder) {b : UInt8} (h : b < 0x80) :
    d.step b = (d.finish ++ [Char.ofNat b.toNat], none) := by
  cases d with
  | none => simp [step, lead, finish, h]
  | some p =>
    have hb : ¬ p.low ≤ b := fun hle =>
      UInt8.not_lt.2 (UInt8.le_trans p.ascii_lt_low hle) h
    simp [step, lead, finish, h, hb]

/-- What is written for the remaining bytes. -/
def run : Decoder → List UInt8 → List Char
  | d, [] => d.finish
  | d, b :: bs => (d.step b).1 ++ run (d.step b).2 bs

end Decoder

/-- The text of a byte sequence, with one U+FFFD for each ill-formed part. -/
def decodeLossy (bytes : List UInt8) : String :=
  String.ofList (Decoder.run none bytes)

end LineLisp.Text
