import FrodOS.Kernel.Tar
import Mathlib.Data.Nat.Digits.Defs

/-!
# What a size field says

The 12 bytes of an octal field can denote more than 32 bits hold. `octal_to_int`
computes the number they denote modulo `2 ^ 32`.
-/

namespace FrodOS
open Lib

/-- The octal digits up to the first NUL or blank, most significant first; other bytes do
not count. -/
def octalDigits (bytes : List Byte) : List ℕ :=
  ((bytes.takeWhile fun b => b ≠ 0 ∧ b ≠ 32).filter fun b => 48 ≤ b ∧ b ≤ 55).map fun b => b.toNat - 48

def octalValue (bytes : List Byte) : ℕ := Nat.ofDigits 8 (octalDigits bytes).reverse

theorem octalDigits_end {b : Byte} (bytes : List Byte) (h : b = 0 ∨ b = 32) :
    octalDigits (b :: bytes) = [] := by
  have hno : ¬ (b ≠ 0 ∧ b ≠ 32) := fun hc => h.elim hc.1 hc.2
  rw [octalDigits, List.takeWhile_cons_of_neg (by simpa using hno)]
  rfl

theorem octalDigits_other {b : Byte} (bytes : List Byte) (h : ¬ (b = 0 ∨ b = 32)) (ho : b < 48 ∨ 55 < b) :
    octalDigits (b :: bytes) = octalDigits bytes := by
  have hno : ¬ (48 ≤ b ∧ b ≤ 55) := fun hc =>
    ho.elim (fun hl => absurd hc.1 (BitVec.not_le.mpr hl)) fun hg => absurd hc.2 (BitVec.not_le.mpr hg)
  rw [octalDigits, List.takeWhile_cons_of_pos (by simpa using h),
    List.filter_cons_of_neg (by simpa using hno)]
  rfl

theorem octalDigits_digit {b : Byte} (bytes : List Byte) (h : ¬ (b = 0 ∨ b = 32))
    (ho : ¬ (b < 48 ∨ 55 < b)) : octalDigits (b :: bytes) = (b.toNat - 48) :: octalDigits bytes := by
  have hyes : 48 ≤ b ∧ b ≤ 55 :=
    ⟨BitVec.not_lt.mp fun hl => ho (Or.inl hl), BitVec.not_lt.mp fun hg => ho (Or.inr hg)⟩
  rw [octalDigits, List.takeWhile_cons_of_pos (by simpa using h),
    List.filter_cons_of_pos (by simpa using hyes)]
  rfl

/-- What a reading that has come to `r` makes of the bytes ahead. -/
def octalRest (bytes : List Byte) (r : ℕ) : ℕ := 8 ^ (octalDigits bytes).length * r + octalValue bytes

theorem octalRest_nil (r : ℕ) : octalRest [] r = r := by simp [octalRest, octalValue, octalDigits]

theorem octalRest_end {b : Byte} (bytes : List Byte) (h : b = 0 ∨ b = 32) (r : ℕ) :
    octalRest (b :: bytes) r = r := by simp [octalRest, octalValue, octalDigits_end bytes h]

theorem octalRest_other {b : Byte} (bytes : List Byte) (h : ¬ (b = 0 ∨ b = 32)) (ho : b < 48 ∨ 55 < b)
    (r : ℕ) : octalRest (b :: bytes) r = octalRest bytes r := by
  simp only [octalRest, octalValue, octalDigits_other bytes h ho]

theorem octalRest_digit {b : Byte} (bytes : List Byte) (h : ¬ (b = 0 ∨ b = 32)) (ho : ¬ (b < 48 ∨ 55 < b))
    (r : ℕ) : octalRest (b :: bytes) r = octalRest bytes (8 * r + (b.toNat - 48)) := by
  simp only [octalRest, octalValue, octalDigits_digit bytes h ho, List.length_cons, List.reverse_cons,
    Nat.ofDigits_append, Nat.ofDigits_singleton, List.length_reverse]
  ring

theorem le_octalRest (bytes : List Byte) (r : ℕ) : r ≤ octalRest bytes r := by
  have hpos : 0 < 8 ^ (octalDigits bytes).length := Nat.pow_pos (by omega)
  calc r ≤ 8 ^ (octalDigits bytes).length * r := Nat.le_mul_of_pos_left r hpos
    _ ≤ octalRest bytes r := Nat.le_add_right _ _

theorem octalRest_mod (bytes : List Byte) (r n : ℕ) : octalRest bytes (r % n) % n = octalRest bytes r % n :=
  ((Nat.mod_modEq r n).mul_left _).add_right _

theorem octal_digit_toNat {b : Byte} (ho : ¬ (b < 48 ∨ 55 < b)) (r : U32) :
    ((r <<< 3) + (b.setWidth 32 - 48)).toNat = (8 * r.toNat + (b.toNat - 48)) % 2 ^ 32 := by
  have hlow : 48 ≤ b.toNat := BitVec.not_lt.mp fun hl => ho (Or.inl hl)
  have hb := b.isLt
  have hwide : (b.setWidth 32).toNat = b.toNat := by
    rw [BitVec.toNat_setWidth]
    exact Nat.mod_eq_of_lt (by omega)
  have hle : (48 : U32) ≤ b.setWidth 32 := by
    rw [BitVec.le_def, hwide]
    exact hlow
  rw [BitVec.toNat_add, BitVec.toNat_shiftLeft, BitVec.toNat_sub_of_le hle, hwide, Nat.shiftLeft_eq,
    Nat.mod_add_mod, Nat.mul_comm]
  rfl

theorem octalFrom_toNat (s : View) (left i : ℕ) (r : U32) :
    (octalFrom s left i r).toNat = octalRest ((List.range' i left).map s) r.toNat % 2 ^ 32 := by
  induction left generalizing i r with
  | zero =>
    rw [List.range'_zero, List.map_nil, octalRest_nil, Nat.mod_eq_of_lt r.isLt]
    rfl
  | succ left ih =>
    rw [List.range'_succ, List.map_cons, octalFrom]
    by_cases hend : s i = 0 ∨ s i = 32
    · rw [if_pos hend, octalRest_end _ hend, Nat.mod_eq_of_lt r.isLt]
    · by_cases hother : s i < 48 ∨ 55 < s i
      · rw [if_neg hend, if_pos hother, octalRest_other _ hend hother, ih]
      · rw [if_neg hend, if_neg hother, octalRest_digit _ hend hother, ih, octal_digit_toNat hother,
          octalRest_mod]

/-- The number that the size field of the header denotes. -/
def trueSize (m : Ram) (header : U32) : ℕ := octalValue ((List.range' 0 12).map (sizeField m header))

theorem octalRest_zero (bytes : List Byte) : octalRest bytes 0 = octalValue bytes := by
  rw [octalRest, Nat.mul_zero, Nat.zero_add]

theorem fileSize_toNat (m : Ram) (header : U32) :
    (fileSize m header).toNat = trueSize m header % 2 ^ 32 := by
  rw [fileSize, octalToInt, octalFrom_toNat, trueSize, ← octalRest_zero]
  rfl

end FrodOS
