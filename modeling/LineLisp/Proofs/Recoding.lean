import LineLisp.Proofs.Replacement
import LineLisp.Repl
import LineLisp.Script

/-!
# Inputs that are not well-formed

Lines are decoded one by one, and a character may be cut off by a newline or by the end of the
input. This makes no difference: no ill-formed part reaches beyond a newline. So an input can be
replaced by the UTF-8 form of its text, and nobody who reads its lines will notice.
-/

namespace LineLisp

open Text

namespace Text

/-- The UTF-8 form of the text of the bytes. -/
def recode (bytes : List UInt8) : List UInt8 := (decodeLossy bytes).toUTF8.data.toList

variable {bytes line : List UInt8}

theorem decodeLossy_recode (bytes : List UInt8) : decodeLossy (recode bytes) = decodeLossy bytes :=
  decodeLossy_toUTF8 _

/-- Only a newline is decoded to a newline. -/
theorem Decodes.newline_notMem {cs : List Char} (h : Decodes bytes cs) (hbytes : newline ∉ bytes) :
    '\n' ∉ cs := by
  induction h with
  | nil => simp
  | char c _ ih =>
    rw [List.mem_append, not_or] at hbytes
    have hc : c ≠ '\n' := by
      rintro rfl
      exact hbytes.1 (by decide)
    simpa [hc.symm] using ih hbytes.2
  | illFormed _ _ ih =>
    rw [List.mem_append, not_or] at hbytes
    have hreplacement : '\n' ≠ replacement := by decide
    simpa [hreplacement] using ih hbytes.2

theorem newline_notMem_decodeLossy (h : newline ∉ line) : '\n' ∉ (decodeLossy line).toList :=
  (decodes_iff.2 rfl).newline_notMem h

theorem newline_notMem_recode (h : newline ∉ line) : newline ∉ recode line :=
  newline_notMem_toUTF8 (newline_notMem_decodeLossy h)

theorem toList_decodeLossy_append_newline (line bytes : List UInt8) :
    (decodeLossy (line ++ newline :: bytes)).toList =
      (decodeLossy line).toList ++ '\n' :: (decodeLossy bytes).toList := by
  simp [decodeLossy, Decoder.run_append_newline]

theorem recode_append_newline (line bytes : List UInt8) :
    recode (line ++ newline :: bytes) = recode line ++ newline :: recode bytes := by
  simp only [recode, toList_toUTF8, toList_decodeLossy_append_newline, List.flatMap_append,
    List.flatMap_cons]
  rfl

theorem recode_eq_nil_iff : recode bytes = [] ↔ bytes = [] := by
  constructor
  · intro h
    have hempty : decodeLossy bytes = "" := by
      rw [← decodeLossy_recode, h]
      rfl
    cases decodes_iff.2 hempty
    rfl
  · rintro rfl
    rfl

end Text

/-! ## The lines of the text -/

theorem splitLines_recode (bytes : List UInt8) :
    splitLines (recode bytes) =
      ((splitLines bytes).1.map recode, recode (splitLines bytes).2) := by
  induction bytes using line_induction with
  | nil => rfl
  | last line hne hline =>
    simp [splitLines_of_notMem hline, splitLines_of_notMem (newline_notMem_recode hline)]
  | line line bytes hline ih =>
    simp [recode_append_newline, splitLines_append_newline hline,
      splitLines_append_newline (newline_notMem_recode hline), ih]

theorem inclusiveLines_recode (bytes : List UInt8) :
    inclusiveLines (recode bytes) = (inclusiveLines bytes).map recode := by
  induction bytes using line_induction with
  | nil => rfl
  | last line hne hline =>
    simp [inclusiveLines_of_notMem hline hne,
      inclusiveLines_of_notMem (newline_notMem_recode hline) (recode_eq_nil_iff.not.2 hne)]
  | line line bytes hline ih =>
    have hcut : recode (line ++ [newline]) = recode line ++ [newline] :=
      recode_append_newline line []
    simp [recode_append_newline line bytes, hcut, inclusiveLines_append_newline hline,
      inclusiveLines_append_newline (newline_notMem_recode hline), ih]

/-- Cut at its newlines, the text is the texts of the lines. -/
theorem splitOn_decodeLossy (bytes : List UInt8) :
    (decodeLossy bytes).toList.splitOn '\n' =
      ((splitLines bytes).1 ++ [(splitLines bytes).2]).map fun line =>
        (decodeLossy line).toList := by
  induction bytes using line_induction with
  | nil => rfl
  | last line hne hline =>
    simp [splitLines_of_notMem hline,
      List.splitOn_eq_singleton (newline_notMem_decodeLossy hline)]
  | line line bytes hline ih =>
    have hcut := List.splitOn_append_cons_self_of_not_mem (newline_notMem_decodeLossy hline)
      (decodeLossy bytes).toList
    simp [toList_decodeLossy_append_newline, hcut, ih, splitLines_append_newline hline]

namespace Input

/-- The input with the UTF-8 form of its text. -/
def recoded (input : Input) : Input :=
  { input with bytes := (decodeLossy input.bytes.data.toList).toUTF8 }

theorem rawLines_recoded (input : Input) : input.recoded.rawLines = input.rawLines.map recode := by
  have hsplit := splitLines_recode input.bytes.data.toList
  rw [recode] at hsplit
  simp only [rawLines, recoded, hsplit]
  grind [recode_eq_nil_iff]

theorem lines_recoded (input : Input) : input.recoded.lines = input.lines := by
  simp [lines, rawLines_recoded, decodeLossy_recode]

/-- The interactive loop and scripts do the same with an input as with the UTF-8 form of its text,
in which ill-formed parts are replaced. The lines of this text are the lines of the input, decoded
one by one, whether they are read with their newlines or cut at them. -/
theorem run_recoded (input : Input) :
    let bytes := input.bytes.data.toList
    (∀ text : String, Decodes bytes text.toList ↔ decodeLossy bytes = text) ∧
    (∀ prompt : String, Repl.run prompt input.recoded = Repl.run prompt input) ∧
    (∀ quiet : Bool, Script.run quiet input.recoded = Script.run quiet input) ∧
    inclusiveLines (recode bytes) = (inclusiveLines bytes).map recode ∧
    splitLines (recode bytes) =
      ((splitLines bytes).1.map recode, recode (splitLines bytes).2) ∧
    (decodeLossy bytes).toList.splitOn '\n' =
      ((splitLines bytes).1 ++ [(splitLines bytes).2]).map
        fun line => (decodeLossy line).toList := by
  intro bytes
  refine ⟨fun text => decodes_iff, fun prompt => ?_, fun quiet => ?_, inclusiveLines_recode bytes,
    splitLines_recode bytes, splitOn_decodeLossy bytes⟩
  · rw [Repl.run, Repl.run, lines_recoded]
    rfl
  · rw [Script.run, Script.run, lines_recoded]
    rfl

end Input

end LineLisp
