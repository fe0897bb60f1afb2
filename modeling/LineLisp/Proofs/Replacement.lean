import LineLisp.Proofs.Lines
import Mathlib.Data.List.Basic

/-!
# What is replaced

`Text.Decodes` describes lossy decoding without the decoder. Bytes are read from the left. Where the
bytes of a character stand, they are that character. Elsewhere one U+FFFD replaces the longest part
that begins like a character, or a single byte if no character begins with it. A byte sequence can
be read in this way in exactly one manner, and the decoder reads it so.
-/

namespace LineLisp.Text

open String (utf8EncodeChar)

/-- Some character begins with the bytes. -/
def BeginsChar (bytes : List UInt8) : Prop := ∃ c, bytes <+: utf8EncodeChar c

/-- No character stands at the beginning of the bytes, and `part` is as much of them as begins like
one, or a single byte. -/
structure IllFormed (part rest : List UInt8) : Prop where
  noChar : ∀ c, ¬ utf8EncodeChar c <+: part ++ rest
  begins : part ≠ [] ∧ BeginsChar part ∨ part.length = 1
  longest : ∀ b ∈ rest.head?, ¬ BeginsChar (part ++ [b])

/-- The bytes are read as these characters. -/
inductive Decodes : List UInt8 → List Char → Prop
  | nil : Decodes [] []
  | char (c : Char) {bytes : List UInt8} {cs : List Char} (h : Decodes bytes cs) :
    Decodes (utf8EncodeChar c ++ bytes) (c :: cs)
  | illFormed {part bytes : List UInt8} {cs : List Char} (hpart : IllFormed part bytes)
    (h : Decodes bytes cs) : Decodes (part ++ bytes) (replacement :: cs)

/-! ## Bytes that make a character

One lemma for each number of bytes, with the ranges that a well-formed sequence has. -/

theorem exists_char {v : Nat} (h : v.isValidChar) : ∃ c : Char, c.toNat = v :=
  ⟨Char.ofNatAux v h, rfl⟩

section

variable {b b₁ b₂ b₃ : UInt8}

theorem exists_one (hb : b.toNat < 0x80) : ∃ c, utf8EncodeChar c = [b] := by
  obtain ⟨c, hc⟩ := exists_char (v := b.toNat) (.inl (by omega))
  refine ⟨c, ?_⟩
  simp only [utf8EncodeChar, Char.toNat_val, hc, UInt8.ofNat_toNat]
  grind

variable (hb₁ : 0x80 ≤ b₁.toNat ∧ b₁.toNat ≤ 0xBF)
include hb₁

theorem exists_two (hb : 0xC2 ≤ b.toNat ∧ b.toNat < 0xE0) : ∃ c, utf8EncodeChar c = [b, b₁] := by
  let v := (b.toNat - 0xC0) * 64 + (b₁.toNat - 0x80)
  obtain ⟨c, hc⟩ := exists_char (v := v) (.inl (by omega))
  refine ⟨c, ?_⟩
  have h₀ : v / 64 % 32 + 192 = b.toNat := by omega
  have h₁ : v % 64 + 128 = b₁.toNat := by omega
  simp only [utf8EncodeChar, Char.toNat_val, hc, h₀, h₁, UInt8.ofNat_toNat]
  grind

variable (hb₂ : 0x80 ≤ b₂.toNat ∧ b₂.toNat ≤ 0xBF)
include hb₂

theorem exists_three (hb : 0xE0 ≤ b.toNat ∧ b.toNat < 0xF0)
    (hoverlong : b.toNat = 0xE0 → 0xA0 ≤ b₁.toNat) (hsurrogate : b.toNat = 0xED → b₁.toNat ≤ 0x9F) :
    ∃ c, utf8EncodeChar c = [b, b₁, b₂] := by
  let v := (b.toNat - 0xE0) * 4096 + (b₁.toNat - 0x80) * 64 + (b₂.toNat - 0x80)
  have hv : v.isValidChar := by unfold Nat.isValidChar; omega
  obtain ⟨c, hc⟩ := exists_char hv
  refine ⟨c, ?_⟩
  have h₀ : v / 4096 % 16 + 224 = b.toNat := by omega
  have h₁ : v / 64 % 64 + 128 = b₁.toNat := by omega
  have h₂ : v % 64 + 128 = b₂.toNat := by omega
  simp only [utf8EncodeChar, Char.toNat_val, hc, h₀, h₁, h₂, UInt8.ofNat_toNat]
  grind

theorem exists_four (hb₃ : 0x80 ≤ b₃.toNat ∧ b₃.toNat ≤ 0xBF)
    (hb : 0xF0 ≤ b.toNat ∧ b.toNat ≤ 0xF4) (hoverlong : b.toNat = 0xF0 → 0x90 ≤ b₁.toNat)
    (hlarge : b.toNat = 0xF4 → b₁.toNat ≤ 0x8F) : ∃ c, utf8EncodeChar c = [b, b₁, b₂, b₃] := by
  let v := (b.toNat - 0xF0) * 262144 + (b₁.toNat - 0x80) * 4096 + (b₂.toNat - 0x80) * 64 +
    (b₃.toNat - 0x80)
  have hv : v.isValidChar := by unfold Nat.isValidChar; omega
  obtain ⟨c, hc⟩ := exists_char hv
  refine ⟨c, ?_⟩
  have h₀ : v / 262144 % 8 + 240 = b.toNat := by omega
  have h₁ : v / 4096 % 64 + 128 = b₁.toNat := by omega
  have h₂ : v / 64 % 64 + 128 = b₂.toNat := by omega
  have h₃ : v % 64 + 128 = b₃.toNat := by omega
  simp only [utf8EncodeChar, Char.toNat_val, hc, h₀, h₁, h₂, h₃, UInt8.ofNat_toNat]
  grind

end

/-! ## What an unfinished character waits for -/

/-- The bytes complete the character: the next one is in the range of the state, and as many as are
missing follow it. -/
def Unfinished.Takes (p : Unfinished) : List UInt8 → Prop
  | [] => False
  | b :: rest =>
    (p.low ≤ b ∧ b ≤ p.high) ∧ rest.length = p.after ∧ ∀ b' ∈ rest, 0x80 ≤ b' ∧ b' ≤ 0xBF

namespace Decoder

/-- The state behind the first byte of a character of two, three or four bytes. Overlong forms,
surrogates and what is too large are excluded by the range of the second byte. -/
inductive LeadsTo (b : UInt8) (p : Unfinished) : Prop
  | two (hafter : p.after = 0) (hb : 0xC2 ≤ b.toNat ∧ b.toNat < 0xE0) (hlow : p.low.toNat = 0x80)
    (hhigh : p.high.toNat = 0xBF)
  | three (hafter : p.after = 1) (hb : 0xE0 ≤ b.toNat ∧ b.toNat < 0xF0)
    (hlow : p.low.toNat = if b.toNat = 0xE0 then 0xA0 else 0x80)
    (hhigh : p.high.toNat = if b.toNat = 0xED then 0x9F else 0xBF)
  | four (hafter : p.after = 2) (hb : 0xF0 ≤ b.toNat ∧ b.toNat ≤ 0xF4)
    (hlow : p.low.toNat = if b.toNat = 0xF0 then 0x90 else 0x80)
    (hhigh : p.high.toNat = if b.toNat = 0xF4 then 0x8F else 0xBF)

variable {b : UInt8} {p : Unfinished} {bytes : List UInt8}

theorem exists_leadsTo (hmin : 0xC2 ≤ b.toNat) (hmax : b.toNat ≤ 0xF4) :
    ∃ p, lead b = ([], some p) ∧ LeadsTo b p := by
  have hbyte {n k : Nat} (h : b.toNat = n + k) : UInt8.ofNat (n + k) = b := by
    rw [← h, UInt8.ofNat_toNat]
  by_cases htwo : b.toNat < 0xE0
  · obtain ⟨p, hlead, -, hafter, hlow, hhigh⟩ :=
      lead_two (n := b.toNat - 192) (by omega) (by omega)
    rw [hbyte (by omega)] at hlead
    exact ⟨p, hlead, .two hafter ⟨hmin, htwo⟩ hlow hhigh⟩
  by_cases hthree : b.toNat < 0xF0
  · obtain ⟨p, hlead, -, hafter, hlow, hhigh⟩ := lead_three (n := b.toNat - 224) (by omega)
    rw [hbyte (by omega)] at hlead
    exact ⟨p, hlead, .three hafter (by omega) (by grind) (by grind)⟩
  · obtain ⟨p, hlead, -, hafter, hlow, hhigh⟩ := lead_four (n := b.toNat - 240) (by omega)
    rw [hbyte (by omega)] at hlead
    exact ⟨p, hlead, .four hafter (by omega) (by grind) (by grind)⟩

theorem LeadsTo.low_le_high (h : LeadsTo b p) : p.low ≤ p.high := by
  rw [UInt8.le_iff_toNat_le]
  cases h <;> grind

/-- What the state behind a first byte takes makes a character with this byte. -/
theorem LeadsTo.exists_char (h : LeadsTo b p) (hbytes : p.Takes bytes) :
    ∃ c, utf8EncodeChar c = b :: bytes := by
  obtain _ | ⟨b₁, rest⟩ := bytes
  · exact hbytes.elim
  obtain ⟨hb₁, hlength, hrest⟩ := hbytes
  simp only [UInt8.le_iff_toNat_le] at hb₁ hrest
  cases h with
  | two hafter hb hlow hhigh =>
    obtain rfl := List.length_eq_zero_iff.1 (hlength.trans hafter)
    exact exists_two (by omega) hb
  | three hafter hb hlow hhigh =>
    obtain ⟨b₂, rfl⟩ := List.length_eq_one_iff.1 (hlength.trans hafter)
    have hb₂ := hrest b₂ (by simp)
    exact exists_three (by grind) hb₂ hb (by grind) (by grind)
  | four hafter hb hlow hhigh =>
    obtain ⟨b₂, b₃, rfl⟩ := List.length_eq_two.1 (hlength.trans hafter)
    have hb₂ := hrest b₂ (by simp)
    have hb₃ := hrest b₃ (by simp)
    exact exists_four (by grind) hb₂ hb₃ hb (by grind) (by grind)

/-- Behind its first byte, a character consists of bytes that the state takes. -/
theorem exists_takes {c : Char} (h : utf8EncodeChar c = b :: bytes) (hne : bytes ≠ []) :
    ∃ p, lead b = ([], some p) ∧ LeadsTo b p ∧ p.Takes bytes := by
  have hvalid : c.toNat < 0xD800 ∨ 0xDFFF < c.toNat ∧ c.toNat < 0x110000 := c.valid
  have hbyte {b : UInt8} {n : Nat} (h : UInt8.ofNat n = b) (hn : n < 256) : b.toNat = n := by
    rw [← h, UInt8.toNat_ofNat', Nat.mod_eq_of_lt hn]
  simp only [utf8EncodeChar, Char.toNat_val] at h
  split at h
  · exact absurd (List.cons.inj h).2.symm hne
  split at h
  · obtain ⟨h₀, rfl⟩ := List.cons.inj h
    have hb := hbyte h₀ (by omega)
    have hb₁ := hbyte (n := c.toNat % 64 + 128) rfl (by omega)
    obtain ⟨p, hlead, hp⟩ := exists_leadsTo (b := b) (by omega) (by omega)
    refine ⟨p, hlead, hp, ?_⟩
    simp only [Unfinished.Takes, UInt8.le_iff_toNat_le]
    cases hp <;> grind
  split at h
  · obtain ⟨h₀, rfl⟩ := List.cons.inj h
    have hb := hbyte h₀ (by omega)
    have hb₁ := hbyte (n := c.toNat / 64 % 64 + 128) rfl (by omega)
    have hb₂ := hbyte (n := c.toNat % 64 + 128) rfl (by omega)
    obtain ⟨p, hlead, hp⟩ := exists_leadsTo (b := b) (by omega) (by omega)
    refine ⟨p, hlead, hp, ?_⟩
    simp only [Unfinished.Takes, UInt8.le_iff_toNat_le]
    cases hp <;> grind
  · obtain ⟨h₀, rfl⟩ := List.cons.inj h
    have hb := hbyte h₀ (by omega)
    have hb₁ := hbyte (n := c.toNat / 4096 % 64 + 128) rfl (by omega)
    have hb₂ := hbyte (n := c.toNat / 64 % 64 + 128) rfl (by omega)
    have hb₃ := hbyte (n := c.toNat % 64 + 128) rfl (by omega)
    obtain ⟨p, hlead, hp⟩ := exists_leadsTo (b := b) (by omega) (by omega)
    refine ⟨p, hlead, hp, ?_⟩
    simp only [Unfinished.Takes, UInt8.le_iff_toNat_le]
    cases hp <;> grind

/-- While bytes of a character are missing, the decoder waits for any byte that can follow. -/
theorem exists_waiting {part rest : List UInt8} (h : p.Takes (part ++ b :: rest))
    (hne : part ≠ []) :
    ∃ q : Unfinished, q.low = 0x80 ∧ q.high = 0xBF ∧
      ∀ bytes, run (some p) (part ++ bytes) = run (some q) bytes := by
  induction part generalizing p with
  | nil => exact absurd rfl hne
  | cons b₀ part ih =>
    rw [List.cons_append] at h
    obtain ⟨hb₀, hlength, hrest⟩ := h
    have hafter : p.after = part.length + rest.length + 1 := by grind
    let q : Unfinished :=
      .mk (p.code * 64 + (b₀.toNat - 0x80)) (part.length + rest.length) 0x80 0xBF
    have hstep (bytes : List UInt8) : run (some p) (b₀ :: bytes) = run (some q) bytes := by
      rw [run, step, if_pos hb₀, hafter]
      rfl
    cases part with
    | nil => exact ⟨q, rfl, rfl, hstep⟩
    | cons b₁ part =>
      have hq : q.Takes (b₁ :: part ++ b :: rest) :=
        ⟨hrest b₁ (by simp), by simp [q]; omega,
          fun b' hb' => hrest b' (List.mem_cons_of_mem _ hb')⟩
      obtain ⟨q', hlow, hhigh, hrun⟩ := ih hq (by simp)
      exact ⟨q', hlow, hhigh, fun bytes => (hstep _).trans (hrun bytes)⟩

/-- Inside a character, the decoder waits for the bytes with which some character goes on. -/
theorem exists_unfinished {c : Char} {part rest : List UInt8} (hne : part ≠ [])
    (h : utf8EncodeChar c = part ++ b :: rest) :
    ∃ q : Unfinished, (∀ bytes, run none (part ++ bytes) = run (some q) bytes) ∧
      ∀ b', q.low ≤ b' ∧ b' ≤ q.high → BeginsChar (part ++ [b']) := by
  obtain ⟨b₀, part, rfl⟩ := List.exists_cons_of_ne_nil hne
  rw [List.cons_append] at h
  obtain ⟨p, hlead, hp, htakes⟩ := exists_takes h (by simp)
  -- Whatever byte the decoder takes next, the other bytes of the character can stay.
  have hbegins {b' : UInt8} (hb' : p.Takes (part ++ b' :: rest)) :
      BeginsChar (b₀ :: part ++ [b']) := by
    obtain ⟨c', hc'⟩ := hp.exists_char hb'
    exact ⟨c', rest, by simp [hc']⟩
  cases part with
  | nil =>
    exact ⟨p, run_lead hlead, fun b' hb' => hbegins ⟨hb', htakes.2⟩⟩
  | cons b₁ part =>
    obtain ⟨q, hlow, hhigh, hrun⟩ := exists_waiting htakes (by simp)
    refine ⟨q, fun bytes => (run_lead hlead _).trans (hrun bytes), fun b' hb' => hbegins ?_⟩
    rw [List.cons_append] at htakes ⊢
    obtain ⟨hb₁, hlength, hfollowing⟩ := htakes
    exact ⟨hb₁, by grind, by grind⟩

/-- No character begins with a byte that is replaced at once. -/
theorem lead_of_not_beginsChar (h : ¬ BeginsChar [b]) : lead b = ([replacement], none) := by
  have hone : ¬ b.toNat < 0x80 := by
    intro hb
    obtain ⟨c, hc⟩ := exists_one hb
    exact h ⟨c, [], by simp [hc]⟩
  have hlonger : ¬ (0xC2 ≤ b.toNat ∧ b.toNat ≤ 0xF4) := by
    rintro ⟨hmin, hmax⟩
    obtain ⟨p, -, hp⟩ := exists_leadsTo hmin hmax
    have htakes : p.Takes (p.low :: List.replicate p.after 0x80) :=
      ⟨⟨UInt8.le_refl _, hp.low_le_high⟩, by simp, by simp⟩
    obtain ⟨c, hc⟩ := hp.exists_char htakes
    exact h ⟨c, _, hc.symm⟩
  simp only [lead, UInt8.lt_iff_toNat_lt, ← UInt8.toNat_inj]
  grind

/-- The decoder replaces an ill-formed part and reads on behind it. -/
theorem run_illFormed {part rest : List UInt8} (h : IllFormed part rest) :
    run none (part ++ rest) = replacement :: run none rest := by
  by_cases hbegins : BeginsChar part
  · have hne : part ≠ [] := by
      rintro rfl
      simpa using h.begins
    obtain ⟨c, missing, hc⟩ := hbegins
    cases missing with
    | nil => exact absurd ⟨rest, by simp [← hc]⟩ (h.noChar c)
    | cons b missing =>
      obtain ⟨q, hrun, hgoesOn⟩ := exists_unfinished hne hc.symm
      rw [hrun]
      cases rest with
      | nil => rfl
      | cons b' rest =>
        have hrange : ¬ (q.low ≤ b' ∧ b' ≤ q.high) := fun hb' => h.longest b' rfl (hgoesOn b' hb')
        rw [run, step, if_neg hrange]
        rfl
  · have hlength : part.length = 1 := h.begins.resolve_left fun h => hbegins h.2
    obtain ⟨b, rfl⟩ := List.length_eq_one_iff.1 hlength
    rw [List.singleton_append, run, step, lead_of_not_beginsChar hbegins]
    rfl

end Decoder

/-! ## Reading bytes in one manner -/

/-- What begins like a character can be extended until it does no more. -/
theorem exists_longest {part : List UInt8} (rest : List UInt8) (h : BeginsChar part) :
    ∃ more rest', rest = more ++ rest' ∧ BeginsChar (part ++ more) ∧
      ∀ b ∈ rest'.head?, ¬ BeginsChar (part ++ more ++ [b]) := by
  induction rest generalizing part with
  | nil => exact ⟨[], [], rfl, by simpa using h, by simp⟩
  | cons b rest ih =>
    by_cases hb : BeginsChar (part ++ [b])
    · obtain ⟨more, rest', rfl, hmore, hlongest⟩ := ih hb
      exact ⟨b :: more, rest', rfl, by simpa using hmore, by simpa using hlongest⟩
    · exact ⟨[], b :: rest, rfl, by simpa using h, by simpa using hb⟩

theorem exists_illFormed {bytes : List UInt8} (hne : bytes ≠ [])
    (h : ∀ c, ¬ utf8EncodeChar c <+: bytes) :
    ∃ part rest, bytes = part ++ rest ∧ IllFormed part rest := by
  obtain ⟨b, bytes, rfl⟩ := List.exists_cons_of_ne_nil hne
  by_cases hb : BeginsChar [b]
  · obtain ⟨more, rest, rfl, hmore, hlongest⟩ := exists_longest bytes hb
    exact ⟨[b] ++ more, rest, by simp, by simpa using h, .inl ⟨by simp, hmore⟩, hlongest⟩
  · refine ⟨[b], bytes, rfl, h, .inr rfl, ?_⟩
    rintro b' - ⟨c, hc⟩
    exact hb ⟨c, (List.prefix_append [b] [b']).trans hc⟩

theorem IllFormed.length_pos {part rest : List UInt8} (h : IllFormed part rest) :
    0 < part.length := by
  obtain ⟨hne, -⟩ | hlength := h.begins
  · exact List.length_pos_of_ne_nil hne
  · omega

theorem exists_decodes (bytes : List UInt8) : ∃ cs, Decodes bytes cs := by
  induction h : bytes.length using Nat.strong_induction_on generalizing bytes with
  | _ n ih =>
    subst h
    by_cases hne : bytes = []
    · exact ⟨[], hne ▸ .nil⟩
    by_cases hchar : ∃ c, utf8EncodeChar c <+: bytes
    · obtain ⟨c, rest, rfl⟩ := hchar
      have hpos := c.utf8Size_pos
      obtain ⟨cs, hcs⟩ := ih rest.length (by simp; omega) rest rfl
      exact ⟨c :: cs, .char c hcs⟩
    · obtain ⟨part, rest, rfl, hpart⟩ := exists_illFormed hne (by simpa using hchar)
      have hpos := hpart.length_pos
      obtain ⟨cs, hcs⟩ := ih rest.length (by simp; omega) rest rfl
      exact ⟨replacement :: cs, .illFormed hpart hcs⟩

theorem Decodes.run_eq {bytes : List UInt8} {cs : List Char} (h : Decodes bytes cs) :
    Decoder.run none bytes = cs := by
  induction h with
  | nil => rfl
  | char c _ ih => rw [Decoder.run_utf8EncodeChar, ih]
  | illFormed hpart _ ih => rw [Decoder.run_illFormed hpart, ih]

/-- The decoder reads bytes in the one manner that there is. -/
theorem decodes_iff {bytes : List UInt8} {text : String} :
    Decodes bytes text.toList ↔ decodeLossy bytes = text := by
  constructor
  · intro h
    rw [decodeLossy, h.run_eq, String.ofList_toList]
  · rintro rfl
    obtain ⟨cs, hcs⟩ := exists_decodes bytes
    rwa [decodeLossy, String.toList_ofList, hcs.run_eq]

end LineLisp.Text
