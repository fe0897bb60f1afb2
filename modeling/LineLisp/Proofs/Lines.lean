import LineLisp.Proofs.Decoding

/-!
# Lines of bytes

Bytes are lines, each with a newline behind it, and perhaps a last one without. What a line says
does not depend on its newline: it is decoded to a newline, whatever stands before it, and trimmed.
So it makes no difference whether lines are read with their newlines or cut at them.
-/

namespace LineLisp

open Text

/-- The lines of the bytes, each with the newline that ends it. Only the last one may lack it. -/
def inclusiveLines : List UInt8 → List (List UInt8)
  | [] => []
  | b :: bytes =>
    if b = newline then [b] :: inclusiveLines bytes
    else
      match inclusiveLines bytes with
      | [] => [[b]]
      | line :: lines => (b :: line) :: lines

/-- The bytes of the first `k` lines, with their newlines. -/
def firstLines (k : Nat) (bytes : List UInt8) : List UInt8 :=
  ((inclusiveLines bytes).take k).flatten

/-- What a line says: it is decoded and trimmed. -/
def lineText (line : List UInt8) : String := trim (decodeLossy line)

/-- There are no bytes, or the last one is a newline. -/
def WholeLines (bytes : List UInt8) : Prop := bytes = [] ∨ bytes.getLast? = some newline

/-- Induction on lines: bytes are empty, a last line without a newline, or a line before others. -/
theorem line_induction {motive : List UInt8 → Prop} (nil : motive [])
    (last : ∀ line, line ≠ [] → newline ∉ line → motive line)
    (line : ∀ line bytes, newline ∉ line → motive bytes → motive (line ++ newline :: bytes))
    (bytes : List UInt8) : motive bytes := by
  have hjoin (lines : List (List UInt8)) (rest : List UInt8) (hlines : ∀ l ∈ lines, newline ∉ l)
      (hrest : newline ∉ rest) : motive (lines.flatMap (· ++ [newline]) ++ rest) := by
    induction lines with
    | nil =>
      by_cases h : rest = []
      · exact h ▸ nil
      · exact last rest h hrest
    | cons l lines ih =>
      rw [List.forall_mem_cons] at hlines
      simpa using line l _ hlines.1 (ih hlines.2)
  obtain ⟨hlines, hrest⟩ := newline_notMem_splitLines bytes
  rw [← join_splitLines bytes]
  exact hjoin _ _ hlines hrest

/-! ## Lines with their newlines -/

section

variable {line : List UInt8} (h : newline ∉ line)
include h

theorem inclusiveLines_append_newline (bytes : List UInt8) :
    inclusiveLines (line ++ newline :: bytes) = (line ++ [newline]) :: inclusiveLines bytes := by
  induction line with
  | nil => simp [inclusiveLines]
  | cons b line ih =>
    rw [List.mem_cons, not_or] at h
    simp [inclusiveLines, ih h.2, Ne.symm h.1]

theorem inclusiveLines_of_notMem (hne : line ≠ []) : inclusiveLines line = [line] := by
  induction line with
  | nil => exact absurd rfl hne
  | cons b line ih =>
    rw [List.mem_cons, not_or] at h
    by_cases hline : line = []
    · simp [inclusiveLines, hline, Ne.symm h.1]
    · simp [inclusiveLines, ih h.2 hline, Ne.symm h.1]

theorem not_wholeLines (hne : line ≠ []) : ¬ WholeLines line := by
  rintro (rfl | hlast)
  · exact hne rfl
  · exact h (List.mem_of_getLast? hlast)

end

/-- The lines lose nothing. -/
theorem flatten_inclusiveLines (bytes : List UInt8) : (inclusiveLines bytes).flatten = bytes := by
  induction bytes using line_induction with
  | nil => rfl
  | last line hne hline => simp [inclusiveLines_of_notMem hline hne]
  | line line bytes hline ih => simp [inclusiveLines_append_newline hline, ih]

theorem wholeLines_append_newline_iff {line bytes : List UInt8} :
    WholeLines (line ++ newline :: bytes) ↔ WholeLines bytes := by
  cases bytes with
  | nil => simp [WholeLines]
  | cons b bytes => simp [WholeLines, List.getLast?_cons]

theorem inclusiveLines_firstLines (k : Nat) (bytes : List UInt8) :
    inclusiveLines (firstLines k bytes) = (inclusiveLines bytes).take k := by
  induction bytes using line_induction generalizing k with
  | nil => simp [firstLines, inclusiveLines]
  | last line hne hline =>
    cases k <;> simp [firstLines, inclusiveLines_of_notMem hline hne, inclusiveLines]
  | line line bytes hline ih =>
    cases k with
    | zero => simp [firstLines, inclusiveLines]
    | succ k =>
      have hbytes : firstLines (k + 1) (line ++ newline :: bytes) =
          line ++ newline :: firstLines k bytes := by
        simp [firstLines, inclusiveLines_append_newline hline]
      rw [hbytes, inclusiveLines_append_newline hline, inclusiveLines_append_newline hline, ih,
        List.take_succ_cons]

theorem inclusiveLines_append {bytes : List UInt8} (h : WholeLines bytes) (bytes' : List UInt8) :
    inclusiveLines (bytes ++ bytes') = inclusiveLines bytes ++ inclusiveLines bytes' := by
  induction bytes using line_induction with
  | nil => rfl
  | last line hne hline => exact absurd h (not_wholeLines hline hne)
  | line line bytes hline ih =>
    rw [wholeLines_append_newline_iff] at h
    rw [List.append_assoc, List.cons_append, inclusiveLines_append_newline hline,
      inclusiveLines_append_newline hline, ih h, List.cons_append]

/-- Whole lines are as many as their newlines. -/
theorem length_inclusiveLines {bytes : List UInt8} (h : WholeLines bytes) :
    (inclusiveLines bytes).length = bytes.count newline := by
  induction bytes using line_induction with
  | nil => rfl
  | last line hne hline => exact absurd h (not_wholeLines hline hne)
  | line line bytes hline ih =>
    rw [wholeLines_append_newline_iff] at h
    simp [inclusiveLines_append_newline hline, ih h, List.count_eq_zero_of_not_mem hline]

/-! ## What lines say -/

namespace Text

/-- A newline ends what is unfinished before it, and the bytes behind it are read afresh. -/
theorem Decoder.run_append_newline (d : Decoder) (bytes rest : List UInt8) :
    d.run (bytes ++ newline :: rest) = d.run bytes ++ '\n' :: run none rest := by
  induction bytes generalizing d with
  | nil =>
    have hstep : d.step newline = (d.finish ++ ['\n'], none) := step_of_lt d (by decide)
    simp [run, hstep]
  | cons b bytes ih => simp [run, ih]

theorem decodeLossy_append_newline (bytes : List UInt8) :
    decodeLossy (bytes ++ [newline]) = decodeLossy bytes ++ "\n" := by
  rw [decodeLossy, Decoder.run_append_newline, String.ofList_append]
  rfl

theorem trimRight_concat {c : Char} (h : isBlank c) (cs : List Char) :
    trimRight (cs ++ [c]) = trimRight cs := by
  simp [trimRight, h]

theorem trim_append_newline (s : String) : trim (s ++ "\n") = trim s := by
  have hblank : isBlank '\n' := by decide
  have hchars : (s ++ "\n").toList = s.toList ++ ['\n'] := by simp
  rw [trim, trim, hchars, List.dropWhile_append]
  split
  · next hempty => simp [hblank, List.isEmpty_iff.1 hempty]
  · rw [trimRight_concat hblank]

end Text

theorem lineText_append_newline (line : List UInt8) :
    lineText (line ++ [newline]) = lineText line := by
  rw [lineText, decodeLossy_append_newline, trim_append_newline]
  rfl

theorem map_lineText_append {bytes : List UInt8} (h : WholeLines bytes) (bytes' : List UInt8) :
    (inclusiveLines (bytes ++ bytes')).map lineText =
      (inclusiveLines bytes).map lineText ++ (inclusiveLines bytes').map lineText := by
  rw [inclusiveLines_append h, List.map_append]

theorem map_lineText_firstLines (k : Nat) (bytes : List UInt8) :
    (inclusiveLines (firstLines k bytes)).map lineText =
      ((inclusiveLines bytes).map lineText).take k := by
  rw [inclusiveLines_firstLines, List.map_take]

/-! ## The lines of an input -/

theorem splitLines_of_notMem {line : List UInt8} (h : newline ∉ line) :
    splitLines line = ([], line) := by
  induction line with
  | nil => rfl
  | cons b line ih =>
    rw [List.mem_cons, not_or] at h
    rw [splitLines_cons, ih h.2, prependByte, if_neg (Ne.symm h.1)]

namespace Input

/-- An input that ends after the bytes. -/
def ofBytes (bytes : List UInt8) : Input := { bytes := ⟨bytes.toArray⟩ }

theorem lines_ofBytes_append_newline {line : List UInt8} (h : newline ∉ line)
    (bytes : List UInt8) :
    (ofBytes (line ++ newline :: bytes)).lines = lineText line :: (ofBytes bytes).lines := by
  cases hrest : (splitLines bytes).2 <;>
    simp [lines, rawLines, ofBytes, splitLines_append_newline h, hrest, lineText]

theorem lines_ofBytes_of_notMem {line : List UInt8} (h : newline ∉ line) (hne : line ≠ []) :
    (ofBytes line).lines = [lineText line] := by
  simp [lines, rawLines, ofBytes, splitLines_of_notMem h, hne, lineText]

/-- The lines of an input can be read with their newlines. -/
theorem lines_ofBytes (bytes : List UInt8) :
    (ofBytes bytes).lines = (inclusiveLines bytes).map lineText := by
  induction bytes using line_induction with
  | nil => rfl
  | last line hne hline =>
    simp [lines_ofBytes_of_notMem hline hne, inclusiveLines_of_notMem hline hne]
  | line line bytes hline ih =>
    simp [lines_ofBytes_append_newline hline, inclusiveLines_append_newline hline, ih,
      lineText_append_newline]

end Input

/-! ## One line among others -/

/-- A line with the bytes before it and, if a newline ends it, those behind its newline. -/
structure LineCut where
  before : List UInt8
  line : List UInt8
  after : Option (List UInt8)
  wholeLines_before : WholeLines before
  newline_notMem_line : newline ∉ line

namespace LineCut

def bytes (cut : LineCut) : List UInt8 :=
  match cut.after with
  | none => cut.before ++ cut.line
  | some after => cut.before ++ (cut.line ++ newline :: after)

theorem map_lineText_bytes (cut : LineCut) (h : cut.line ≠ []) :
    (inclusiveLines cut.bytes).map lineText = (inclusiveLines cut.before).map lineText ++
      lineText cut.line :: (inclusiveLines (cut.after.getD [])).map lineText := by
  obtain ⟨before, line, after, hbefore, hline⟩ := cut
  cases after with
  | none =>
    simp only [bytes, map_lineText_append hbefore, inclusiveLines_of_notMem hline h]
    rfl
  | some after =>
    simp only [bytes, map_lineText_append hbefore, inclusiveLines_append_newline hline,
      List.map_cons, lineText_append_newline]
    rfl

end LineCut

/-- What some line says is said at a place in the bytes. -/
theorem exists_lineCut {bytes : List UInt8} {texts rest : List String} {text : String}
    (h : (inclusiveLines bytes).map lineText = texts ++ text :: rest) :
    ∃ cut : LineCut, cut.bytes = bytes ∧ (inclusiveLines cut.before).map lineText = texts ∧
      lineText cut.line = text := by
  induction bytes using line_induction generalizing texts with
  | nil => simp [inclusiveLines] at h
  | last line hne hline =>
    rw [inclusiveLines_of_notMem hline hne] at h
    obtain ⟨rfl, rfl, rfl⟩ : texts = [] ∧ text = lineText line ∧ rest = [] := by
      cases texts <;> simp_all
    exact ⟨⟨[], line, none, .inl rfl, hline⟩, rfl, rfl, rfl⟩
  | line line bytes hline ih =>
    rw [inclusiveLines_append_newline hline, List.map_cons, lineText_append_newline] at h
    cases texts with
    | nil =>
      obtain ⟨rfl, -⟩ := List.cons.inj h
      exact ⟨⟨[], line, some bytes, .inl rfl, hline⟩, rfl, rfl, rfl⟩
    | cons first texts =>
      obtain ⟨rfl, htail⟩ := List.cons.inj h
      obtain ⟨cut, rfl, rfl, htext⟩ := ih htail
      refine ⟨⟨line ++ newline :: cut.before, cut.line, cut.after, ?_, cut.newline_notMem_line⟩,
        ?_, ?_, htext⟩
      · exact wholeLines_append_newline_iff.2 cut.wholeLines_before
      · simp only [LineCut.bytes]
        cases cut.after <;> simp
      · rw [inclusiveLines_append_newline hline, List.map_cons, lineText_append_newline]

end LineLisp
