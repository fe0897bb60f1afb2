import LineLisp.Proofs.Decoding

/-!
# The order of bytes

Texts compare by their UTF-8 bytes as they compare by their code points. The first byte of a
character grows with its code point and tells how many bytes follow, and those are the digits of the
code point to the base 64. So the bytes of two characters part before either of them ends, and what
stands behind has no say.
-/

namespace LineLisp.Text

open String (utf8EncodeChar)

theorem lt_iff_toNat_lt {c d : Char} : c < d ↔ c.toNat < d.toNat :=
  UInt32.lt_iff_toNat_lt

theorem toNat_lt_limit (c : Char) : c.toNat < 0x110000 := by
  have hvalid : c.toNat < 0xD800 ∨ 0xDFFF < c.toNat ∧ c.toNat < 0x110000 := c.valid
  omega

/-! ## The bytes of a code point -/

/-- The first byte of a code point. -/
def firstByte (v : Nat) : Nat :=
  if v < 0x80 then v
  else if v < 0x800 then v / 64 + 0xC0
  else if v < 0x10000 then v / 4096 + 0xE0
  else v / 262144 + 0xF0

/-- How many bytes follow the first one. -/
def followers (v : Nat) : Nat :=
  if v < 0x80 then 0 else if v < 0x800 then 1 else if v < 0x10000 then 2 else 3

/-- The bytes of the last digits of a code point to the base 64, as many as are asked for. -/
def following : Nat → Nat → List UInt8
  | 0, _ => []
  | k + 1, v => UInt8.ofNat (v / 64 ^ k % 64 + 0x80) :: following k v

theorem utf8EncodeChar_eq_cons (c : Char) :
    utf8EncodeChar c =
      UInt8.ofNat (firstByte c.toNat) :: following (followers c.toNat) c.toNat := by
  have hmax := toNat_lt_limit c
  unfold utf8EncodeChar firstByte followers
  simp only [Char.toNat_val, Nat.le_iff_lt_add_one, Nat.reduceAdd]
  -- the encoding reduces the digits in the first byte too, though none stand before them
  split
  · rfl
  split
  · rw [Nat.mod_eq_of_lt (a := c.toNat / 64) (by omega)]
    simp [following]
  split
  · rw [Nat.mod_eq_of_lt (a := c.toNat / 4096) (by omega)]
    simp [following]
  · rw [Nat.mod_eq_of_lt (a := c.toNat / 262144) (by omega)]
    simp [following]

theorem firstByte_mono {v w : Nat} (h : v ≤ w) : firstByte v ≤ firstByte w := by
  grind [firstByte]

theorem firstByte_lt {v : Nat} (h : v < 0x110000) : firstByte v < 256 := by
  grind [firstByte]

/-- The first byte tells how many bytes follow, since it lies in another range for each number, and
it holds the digits before theirs. -/
theorem eq_of_firstByte_eq {v w : Nat} (h : firstByte v = firstByte w) :
    followers v = followers w ∧ v / 64 ^ followers v = w / 64 ^ followers v := by
  grind [firstByte, followers]

/-! ## Lists that part -/

/-- The lists differ at some place, and at the first such place the first list has the lesser
byte. -/
inductive Parts : List UInt8 → List UInt8 → Prop
  | here {b b' : UInt8} (h : b < b') (bs bs' : List UInt8) : Parts (b :: bs) (b' :: bs')
  | later (b : UInt8) {bs bs' : List UInt8} (h : Parts bs bs') : Parts (b :: bs) (b :: bs')

namespace Parts

variable {bs bs' : List UInt8}

theorem append (h : Parts bs bs') (rest rest' : List UInt8) :
    Parts (bs ++ rest) (bs' ++ rest') := by
  induction h with
  | here h => exact .here h _ _
  | later b _ ih => exact .later b ih

theorem lt (h : Parts bs bs') : bs < bs' := by
  induction h with
  | here h => exact .rel h
  | later b _ ih => exact .cons ih

theorem ofNat {m n : Nat} (h : m < n) (hn : n < 256) (bs bs' : List UInt8) :
    Parts (UInt8.ofNat m :: bs) (UInt8.ofNat n :: bs') := by
  refine .here ?_ bs bs'
  rw [UInt8.lt_iff_toNat_lt, UInt8.toNat_ofNat', UInt8.toNat_ofNat']
  omega

end Parts

/-- Digits of numbers that agree in all digits before them. -/
theorem parts_following {k v w : Nat} (hlt : v < w) (heq : v / 64 ^ k = w / 64 ^ k) :
    Parts (following k v) (following k w) := by
  induction k with
  | zero =>
    simp only [Nat.pow_zero, Nat.div_one] at heq
    omega
  | succ k ih =>
    rw [Nat.pow_succ, ← Nat.div_div_eq_div_mul, ← Nat.div_div_eq_div_mul] at heq
    have hle : v / 64 ^ k ≤ w / 64 ^ k := Nat.div_le_div_right (Nat.le_of_lt hlt)
    by_cases hdigits : v / 64 ^ k = w / 64 ^ k
    · rw [following, following, hdigits]
      exact .later _ (ih hdigits)
    · exact .ofNat (by omega) (by omega) _ _

theorem parts_utf8EncodeChar {c d : Char} (h : c < d) :
    Parts (utf8EncodeChar c) (utf8EncodeChar d) := by
  have hlt : c.toNat < d.toNat := lt_iff_toNat_lt.1 h
  rw [utf8EncodeChar_eq_cons, utf8EncodeChar_eq_cons]
  obtain hfirst | hfirst := Nat.lt_or_eq_of_le (firstByte_mono (Nat.le_of_lt hlt))
  · exact .ofNat hfirst (firstByte_lt (toNat_lt_limit d)) _ _
  · obtain ⟨hfollowers, hdigits⟩ := eq_of_firstByte_eq hfirst
    rw [hfirst, ← hfollowers]
    exact .later _ (parts_following hlt hdigits)

/-! ## Texts -/

theorem flatMap_utf8EncodeChar_lt {cs ds : List Char} (h : cs < ds) :
    cs.flatMap utf8EncodeChar < ds.flatMap utf8EncodeChar := by
  induction h with
  | @nil d ds =>
    rw [List.flatMap_nil, List.flatMap_cons, utf8EncodeChar_eq_cons]
    exact .nil
  | rel h => exact ((parts_utf8EncodeChar h).append _ _).lt
  | cons _ ih => exact List.append_left_lt ih

/-- Texts compare by their bytes as they compare by their characters. -/
theorem toUTF8_lt_iff {s t : String} :
    s.toUTF8.data.toList < t.toUTF8.data.toList ↔ s < t := by
  rw [toList_toUTF8, toList_toUTF8, String.lt_iff]
  constructor
  · intro hbytes
    -- the bytes would compare the other way if the characters did
    by_contra hlt
    obtain hgt | heq := List.le_iff_lt_or_eq.1 (List.not_lt.1 hlt)
    · exact List.lt_asymm hbytes (flatMap_utf8EncodeChar_lt hgt)
    · rw [heq] at hbytes
      exact List.lt_irrefl _ hbytes
  · exact flatMap_utf8EncodeChar_lt

theorem lt_iff_codePoints {s t : String} :
    s < t ↔ s.toList.map Char.toNat < t.toList.map Char.toNat := by
  rw [String.lt_iff]
  generalize s.toList = cs, t.toList = ds
  induction cs generalizing ds with
  | nil => cases ds <;> simp
  | cons c cs ih =>
    cases ds with
    | nil => simp
    | cons d ds =>
      rw [List.map_cons, List.map_cons, List.cons_lt_cons_iff, List.cons_lt_cons_iff, ih,
        lt_iff_toNat_lt, Char.toNat_inj]

end LineLisp.Text
