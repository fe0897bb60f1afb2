/-!
# Fixnums

The integers of the language are those of 64 bits. No operation wraps: a result is computed as an
integer and then has to fit, or it is no fixnum at all.
-/

namespace LineLisp

/-- An integer from `-2^63` to `2^63 - 1`, the bounds being written in hexadecimal. -/
@[ext]
structure Fixnum where
  toInt : Int
  min_le : -0x8000000000000000 ≤ toInt
  lt_max : toInt < 0x8000000000000000
deriving DecidableEq

namespace Fixnum

/-- The fixnum of an integer, if it fits. -/
def ofInt? (n : Int) : Option Fixnum :=
  if h : -0x8000000000000000 ≤ n ∧ n < 0x8000000000000000 then some ⟨n, h.1, h.2⟩ else none

theorem ofInt?_eq_some_iff {n : Int} {a : Fixnum} : ofInt? n = some a ↔ a.toInt = n := by
  obtain ⟨m, hmin, hmax⟩ := a
  unfold ofInt?
  split <;> grind

theorem ofInt?_eq_none_iff {n : Int} :
    ofInt? n = none ↔ n < -0x8000000000000000 ∨ 0x8000000000000000 ≤ n := by
  unfold ofInt?
  split <;> grind

@[simp] theorem ofInt?_toInt (a : Fixnum) : ofInt? a.toInt = some a :=
  ofInt?_eq_some_iff.2 rfl

def zero : Fixnum := ⟨0, by decide, by decide⟩
def one : Fixnum := ⟨1, by decide, by decide⟩

@[simp] theorem toInt_zero : zero.toInt = 0 := rfl
@[simp] theorem toInt_one : one.toInt = 1 := rfl

def add? (a b : Fixnum) : Option Fixnum := ofInt? (a.toInt + b.toInt)
def sub? (a b : Fixnum) : Option Fixnum := ofInt? (a.toInt - b.toInt)
def mul? (a b : Fixnum) : Option Fixnum := ofInt? (a.toInt * b.toInt)
def neg? (a : Fixnum) : Option Fixnum := ofInt? (-a.toInt)

/-- The quotient, truncated toward zero; the least fixnum divided by `-1` does not fit. -/
def div? (a b : Fixnum) : Option Fixnum := ofInt? (a.toInt.tdiv b.toInt)

theorem tmod_mem_range (a b : Fixnum) :
    -0x8000000000000000 ≤ a.toInt.tmod b.toInt ∧ a.toInt.tmod b.toInt < 0x8000000000000000 := by
  have hmin := a.min_le
  have hmax := a.lt_max
  have habs : (a.toInt.tmod b.toInt).natAbs ≤ a.toInt.natAbs := by
    rw [Int.natAbs_tmod]
    exact Nat.mod_le _ _
  rcases Int.le_total 0 a.toInt with h | h
  · have := Int.tmod_nonneg b.toInt h
    omega
  · have := Int.tmod_nonneg (a := -a.toInt) b.toInt (by omega)
    rw [Int.neg_tmod] at this
    omega

/-- The remainder of the truncated quotient, which has the sign of the dividend. It always fits. -/
def rem (a b : Fixnum) : Fixnum :=
  ⟨a.toInt.tmod b.toInt, (tmod_mem_range a b).1, (tmod_mem_range a b).2⟩

@[simp] theorem toInt_rem (a b : Fixnum) : (a.rem b).toInt = a.toInt.tmod b.toInt := rfl

end Fixnum

end LineLisp
