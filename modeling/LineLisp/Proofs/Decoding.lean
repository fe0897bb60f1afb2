import LineLisp.Stream
import Mathlib.Tactic.IntervalCases

/-!
# Decoding what was encoded

Text that is written as UTF-8 is decoded to itself, and an input that holds lines of text, each with
a newline behind it, delivers these lines.
-/

namespace LineLisp

namespace Text

namespace Decoder

/-! ## First bytes

The first byte of a longer sequence has the highest bits of the code point. The ranges for the
second byte are narrower where the sequence would be overlong, a surrogate, or too large. -/

theorem lead_two {n : Nat} (hmin : 2 ≤ n) (hmax : n < 32) :
    ∃ p, lead (UInt8.ofNat (n + 192)) = ([], some p) ∧ p.code = n ∧ p.after = 0 ∧
      p.low.toNat = 0x80 ∧ p.high.toNat = 0xBF := by
  interval_cases n <;> exact ⟨_, rfl, rfl, rfl, rfl, rfl⟩

theorem lead_three {n : Nat} (hmax : n < 16) :
    ∃ p, lead (UInt8.ofNat (n + 224)) = ([], some p) ∧ p.code = n ∧ p.after = 1 ∧
      p.low.toNat = (if n = 0 then 0xA0 else 0x80) ∧
      p.high.toNat = if n = 13 then 0x9F else 0xBF := by
  interval_cases n <;> exact ⟨_, rfl, rfl, rfl, rfl, rfl⟩

theorem lead_four {n : Nat} (hmax : n < 5) :
    ∃ p, lead (UInt8.ofNat (n + 240)) = ([], some p) ∧ p.code = n ∧ p.after = 2 ∧
      p.low.toNat = (if n = 0 then 0x90 else 0x80) ∧
      p.high.toNat = if n = 4 then 0x8F else 0xBF := by
  interval_cases n <;> exact ⟨_, rfl, rfl, rfl, rfl, rfl⟩

theorem run_lead {b : UInt8} {p : Unfinished} (h : lead b = ([], some p)) (bytes : List UInt8) :
    run none (b :: bytes) = run (some p) bytes := by
  rw [run, step, h]
  rfl

/-! ## The bytes that follow -/

section Following

variable {p : Unfinished} {n : Nat} (hn : n < 64) (hlow : p.low.toNat ≤ n + 128)
  (hhigh : n + 128 ≤ p.high.toNat)
include hn hlow hhigh

theorem mem_range_following :
    (p.low ≤ UInt8.ofNat (n + 128) ∧ UInt8.ofNat (n + 128) ≤ p.high) ∧
      (UInt8.ofNat (n + 128)).toNat - 128 = n := by
  have hbyte : (UInt8.ofNat (n + 128)).toNat = n + 128 := by
    rw [UInt8.toNat_ofNat']
    omega
  rw [UInt8.le_iff_toNat_le, UInt8.le_iff_toNat_le, hbyte]
  omega

theorem run_following_last (hafter : p.after = 0) (bytes : List UInt8) :
    run (some p) (UInt8.ofNat (n + 128) :: bytes) =
      Char.ofNat (p.code * 64 + n) :: run none bytes := by
  obtain ⟨hrange, hbits⟩ := mem_range_following hn hlow hhigh
  rw [run, step, if_pos hrange]
  simp only [hafter, hbits, List.singleton_append]

theorem run_following {k : Nat} (hafter : p.after = k + 1) (bytes : List UInt8) :
    run (some p) (UInt8.ofNat (n + 128) :: bytes) =
      run (some (.mk (p.code * 64 + n) k 0x80 0xBF)) bytes := by
  obtain ⟨hrange, hbits⟩ := mem_range_following hn hlow hhigh
  rw [run, step, if_pos hrange]
  simp only [hafter, hbits, List.nil_append]

end Following

/-! ## Characters

One lemma for each number of bytes. The code point comes back from its bits. -/

theorem run_one {v : Nat} (hmax : v < 128) (bytes : List UInt8) :
    run none (UInt8.ofNat v :: bytes) = Char.ofNat v :: run none bytes := by
  have hbyte : (UInt8.ofNat v).toNat = v := by
    rw [UInt8.toNat_ofNat']
    omega
  have hascii : UInt8.ofNat v < 0x80 := by
    rw [UInt8.lt_iff_toNat_lt, hbyte]
    exact hmax
  rw [run, step_of_lt none hascii, hbyte]
  rfl

theorem run_two {v : Nat} (hmin : 128 ≤ v) (hmax : v < 2048) (bytes : List UInt8) :
    run none (UInt8.ofNat (v / 64 % 32 + 192) :: UInt8.ofNat (v % 64 + 128) :: bytes) =
      Char.ofNat v :: run none bytes := by
  obtain ⟨p, hlead, hcode, hafter, hlow, hhigh⟩ :=
    lead_two (n := v / 64 % 32) (by omega) (by omega)
  have hv : p.code * 64 + v % 64 = v := by omega
  rw [run_lead hlead, run_following_last (by omega) (by omega) (by omega) hafter, hv]

theorem run_three {v : Nat} (hmin : 2048 ≤ v) (hmax : v < 65536)
    (hvalid : v < 0xD800 ∨ 0xDFFF < v) (bytes : List UInt8) :
    run none (UInt8.ofNat (v / 4096 % 16 + 224) :: UInt8.ofNat (v / 64 % 64 + 128) ::
      UInt8.ofNat (v % 64 + 128) :: bytes) = Char.ofNat v :: run none bytes := by
  obtain ⟨p, hlead, hcode, hafter, hlow, hhigh⟩ := lead_three (n := v / 4096 % 16) (by omega)
  have hlow' : p.low.toNat ≤ v / 64 % 64 + 128 := by
    rw [hlow]
    split <;> omega
  have hhigh' : v / 64 % 64 + 128 ≤ p.high.toNat := by
    rw [hhigh]
    split <;> omega
  have hv : (p.code * 64 + v / 64 % 64) * 64 + v % 64 = v := by omega
  rw [run_lead hlead, run_following (by omega) hlow' hhigh' hafter,
    run_following_last (by omega) (by simp) (by simp; omega) rfl, hv]

theorem run_four {v : Nat} (hmin : 65536 ≤ v) (hmax : v < 0x110000) (bytes : List UInt8) :
    run none (UInt8.ofNat (v / 262144 % 8 + 240) :: UInt8.ofNat (v / 4096 % 64 + 128) ::
      UInt8.ofNat (v / 64 % 64 + 128) :: UInt8.ofNat (v % 64 + 128) :: bytes) =
      Char.ofNat v :: run none bytes := by
  obtain ⟨p, hlead, hcode, hafter, hlow, hhigh⟩ := lead_four (n := v / 262144 % 8) (by omega)
  have hlow' : p.low.toNat ≤ v / 4096 % 64 + 128 := by
    rw [hlow]
    split <;> omega
  have hhigh' : v / 4096 % 64 + 128 ≤ p.high.toNat := by
    rw [hhigh]
    split <;> omega
  have hv : ((p.code * 64 + v / 4096 % 64) * 64 + v / 64 % 64) * 64 + v % 64 = v := by omega
  rw [run_lead hlead, run_following (by omega) hlow' hhigh' hafter,
    run_following (by omega) (by simp) (by simp; omega) rfl,
    run_following_last (by omega) (by simp) (by simp; omega) rfl, hv]

/-- The bytes of a character are decoded to that character, whatever follows them. -/
theorem run_utf8EncodeChar (c : Char) (bytes : List UInt8) :
    run none (String.utf8EncodeChar c ++ bytes) = c :: run none bytes := by
  have hvalid : c.toNat < 0xD800 ∨ 0xDFFF < c.toNat ∧ c.toNat < 0x110000 := c.valid
  conv_rhs => rw [← Char.ofNat_toNat c]
  unfold String.utf8EncodeChar
  simp only [Char.toNat_val]
  split
  · exact run_one (by omega) bytes
  split
  · exact run_two (by omega) (by omega) bytes
  split
  · exact run_three (by omega) (by omega) (by omega) bytes
  · exact run_four (by omega) (by omega) bytes

end Decoder

theorem decodeLossy_flatMap_utf8EncodeChar (cs : List Char) :
    decodeLossy (cs.flatMap String.utf8EncodeChar) = String.ofList cs := by
  suffices h : Decoder.run none (cs.flatMap String.utf8EncodeChar) = cs by
    rw [decodeLossy, h]
  induction cs with
  | nil => rfl
  | cons c cs ih => rw [List.flatMap_cons, Decoder.run_utf8EncodeChar, ih]

theorem toList_toUTF8 (s : String) :
    s.toUTF8.data.toList = s.toList.flatMap String.utf8EncodeChar := by
  conv_lhs => rw [← String.ofList_toList (s := s)]
  rw [String.toUTF8_eq_toByteArray, String.toByteArray_ofList, List.utf8Encode,
    List.toList_data_toByteArray]

/-- Decoding undoes encoding. -/
theorem decodeLossy_toUTF8 (s : String) : decodeLossy s.toUTF8.data.toList = s := by
  rw [toList_toUTF8, decodeLossy_flatMap_utf8EncodeChar, String.ofList_toList]

/-- Only a newline has the newline byte among its bytes. -/
theorem newline_notMem_utf8EncodeChar {c : Char} (h : c ≠ '\n') :
    newline ∉ String.utf8EncodeChar c := by
  have hbyte : ∀ n, newline = UInt8.ofNat n → n < 256 → n = 10 := by
    intro n hn hlt
    have := congrArg UInt8.toNat hn
    rw [UInt8.toNat_ofNat', Nat.mod_eq_of_lt hlt] at this
    exact this.symm
  have hc : c.toNat ≠ 10 := fun hc => h (Char.toNat_inj.1 hc)
  unfold String.utf8EncodeChar
  simp only [Char.toNat_val]
  intro hmem
  repeat' split at hmem
  all_goals
    simp only [List.mem_cons, List.not_mem_nil, or_false] at hmem
    grind

end Text

/-! ## Lines -/

theorem splitLines_append_newline {line : List UInt8} (h : newline ∉ line) (bytes : List UInt8) :
    splitLines (line ++ newline :: bytes) =
      (line :: (splitLines bytes).1, (splitLines bytes).2) := by
  induction line with
  | nil => simp [prependByte]
  | cons b line ih =>
    rw [List.mem_cons, not_or] at h
    rw [List.cons_append, splitLines_cons, ih h.2, prependByte, if_neg (Ne.symm h.1)]

theorem toList_join_cons (line : String) (lines : List String) :
    (String.join ((line :: lines).map (· ++ "\n"))).toList =
      line.toList ++ '\n' :: (String.join (lines.map (· ++ "\n"))).toList := by
  simp [String.toList_join]

/-- A text without newlines, as bytes. -/
theorem newline_notMem_toUTF8 {s : String} (h : '\n' ∉ s.toList) :
    newline ∉ s.toUTF8.data.toList := by
  rw [Text.toList_toUTF8, List.mem_flatMap]
  rintro ⟨c, hc, hmem⟩
  exact Text.newline_notMem_utf8EncodeChar (fun heq => h (heq ▸ hc)) hmem

theorem splitLines_toUTF8_join {lines : List String} (h : ∀ line ∈ lines, '\n' ∉ line.toList) :
    splitLines (String.join (lines.map (· ++ "\n"))).toUTF8.data.toList =
      (lines.map fun line => line.toUTF8.data.toList, []) := by
  induction lines with
  | nil => rfl
  | cons line lines ih =>
    rw [List.forall_mem_cons] at h
    have hbytes : (String.join ((line :: lines).map (· ++ "\n"))).toUTF8.data.toList =
        line.toUTF8.data.toList ++
          newline :: (String.join (lines.map (· ++ "\n"))).toUTF8.data.toList := by
      rw [Text.toList_toUTF8, toList_join_cons, List.flatMap_append, List.flatMap_cons,
        ← Text.toList_toUTF8, ← Text.toList_toUTF8]
      rfl
    rw [hbytes, splitLines_append_newline (newline_notMem_toUTF8 h.1), ih h.2]
    rfl

namespace Input

/-- A text of lines delivers these lines, trimmed. -/
theorem lines_ofText_join {lines : List String} (h : ∀ line ∈ lines, '\n' ∉ line.toList) :
    (ofText (String.join (lines.map (· ++ "\n")))).lines = lines.map Text.trim := by
  unfold Input.lines rawLines ofText
  simp only [splitLines_toUTF8_join h, List.isEmpty_nil, Bool.or_true, if_true, List.map_map]
  exact List.map_congr_left fun line _ => congrArg Text.trim (Text.decodeLossy_toUTF8 line)

end Input

end LineLisp
