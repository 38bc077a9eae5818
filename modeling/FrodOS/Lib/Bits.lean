import Mathlib.Data.BitVec
import Mathlib.Logic.Function.Basic
import Mathlib.Tactic.Common

/-!
# Packed bit arrays

`n` words of `w` bits hold `n * w` bits; bit `p` is bit `p % w` of word `p / w`.
-/

namespace Lib

variable {n w : ℕ}

abbrev BitArray (n w : ℕ) := Fin n → BitVec w

/-- Masking out the low `k` bits rounds down to a multiple of `2 ^ k`. -/
theorem toNat_and_not_low {mask : BitVec w} {k : ℕ} (hmask : ∀ i < w, mask.getLsbD i = decide (i < k))
    (x : BitVec w) : (x &&& ~~~mask).toNat = x.toNat / 2 ^ k * 2 ^ k := by
  have hshift : x &&& ~~~mask = x >>> k <<< k := by
    apply BitVec.eq_of_getLsbD_eq
    intro i hi
    rw [BitVec.getLsbD_and, BitVec.getLsbD_not, hmask i hi, BitVec.getLsbD_shiftLeft,
      BitVec.getLsbD_ushiftRight]
    by_cases h : i < k
    · simp [h]
    · simp [h, hi, show k + (i - k) = i by omega]
  have hle : x.toNat / 2 ^ k * 2 ^ k ≤ x.toNat := Nat.div_mul_le_self ..
  rw [hshift, BitVec.toNat_shiftLeft, BitVec.toNat_ushiftRight, Nat.shiftLeft_eq,
    Nat.shiftRight_eq_div_pow, Nat.mod_eq_of_lt (hle.trans_lt x.isLt)]

namespace BitArray

def word (p : ℕ) (h : p < n * w) : Fin n := ⟨p / w, Nat.div_lt_of_lt_mul (Nat.mul_comm n w ▸ h)⟩

/-- `b[p / w] & (1 << (p % w))`; past the end there is no bit. -/
def bit (b : BitArray n w) (p : ℕ) : Bool :=
  if h : p < n * w then (b (word p h)).getLsbD (p % w) else false

def set (b : BitArray n w) (p : ℕ) (h : p < n * w) : BitArray n w :=
  Function.update b (word p h) (b (word p h) ||| (1#w <<< (p % w)))

def clear (b : BitArray n w) (p : ℕ) (h : p < n * w) : BitArray n w :=
  Function.update b (word p h) (b (word p h) &&& ~~~(1#w <<< (p % w)))

theorem width_pos {p : ℕ} (h : p < n * w) : 0 < w := by
  by_contra hw
  obtain rfl : w = 0 := by omega
  omega

theorem getLsbD_one_shiftLeft (i j : ℕ) (hj : j < w) :
    (1#w <<< i).getLsbD j = decide (j = i) := by
  by_cases h : j = i
  · subst h
    simp [hj]
  · by_cases hlt : j < i
    · simp [h, hlt]
    · simp [h, hlt, show j - i ≠ 0 by omega]

theorem eq_of_word_eq {p q : ℕ} (hp : p < n * w) (hq : q < n * w) (hw : word p hp = word q hq)
    (hm : p % w = q % w) : p = q := by
  have hd : p / w = q / w := congrArg Fin.val hw
  rw [← Nat.div_add_mod p w, ← Nat.div_add_mod q w, hd, hm]

theorem decide_mod_eq {p q : ℕ} (hp : p < n * w) (hq : q < n * w) (hw : word p hp = word q hq) :
    decide (p % w = q % w) = decide (p = q) :=
  decide_eq_decide.mpr ⟨eq_of_word_eq hp hq hw, fun he => by rw [he]⟩

theorem bit_set (b : BitArray n w) (p q : ℕ) (h : p < n * w) :
    (b.set p h).bit q = (decide (q = p) || b.bit q) := by
  unfold bit
  by_cases hq : q < n * w
  · have hlt := Nat.mod_lt q (width_pos h)
    simp only [hq, dite_true, set]
    by_cases hw : word q hq = word p h
    · rw [hw, Function.update_self, BitVec.getLsbD_or, getLsbD_one_shiftLeft _ _ hlt,
        decide_mod_eq hq h hw, Bool.or_comm]
    · rw [Function.update_of_ne hw, decide_eq_false (fun he => hw (by subst he; rfl)), Bool.false_or]
  · simp only [hq, dite_false, Bool.or_false]
    exact (decide_eq_false (by omega)).symm

theorem bit_clear (b : BitArray n w) (p q : ℕ) (h : p < n * w) :
    (b.clear p h).bit q = (!decide (q = p) && b.bit q) := by
  unfold bit
  by_cases hq : q < n * w
  · have hlt := Nat.mod_lt q (width_pos h)
    simp only [hq, dite_true, clear]
    by_cases hw : word q hq = word p h
    · rw [hw, Function.update_self, BitVec.getLsbD_and, BitVec.getLsbD_not,
        getLsbD_one_shiftLeft _ _ hlt, decide_mod_eq hq h hw, decide_eq_true hlt, Bool.true_and,
        Bool.and_comm]
    · rw [Function.update_of_ne hw, decide_eq_false (fun he => hw (by subst he; rfl))]
      rfl
  · simp only [hq, dite_false, Bool.and_false]

theorem ext_bit {b c : BitArray n w} (h : ∀ p < n * w, b.bit p = c.bit p) : b = c := by
  funext i
  apply BitVec.eq_of_getLsbD_eq
  intro j hj
  have hlt : w * i.val + j < n * w := by
    calc w * i.val + j < w * i.val + w := by omega
      _ = w * (i.val + 1) := by rw [Nat.mul_add, Nat.mul_one]
      _ ≤ w * n := Nat.mul_le_mul_left w i.isLt
      _ = n * w := Nat.mul_comm w n
  have hdiv : (w * i.val + j) / w = i.val := by
    rw [Nat.mul_add_div (by omega), Nat.div_eq_of_lt hj, Nat.add_zero]
  have hmod : (w * i.val + j) % w = j := by rw [Nat.mul_add_mod, Nat.mod_eq_of_lt hj]
  have hword : word (w * i.val + j) hlt = i := Fin.ext hdiv
  simpa only [bit, hlt, dite_true, hword, hmod] using h _ hlt

theorem and_one_shiftLeft_eq_zero_iff (x : BitVec w) (i : ℕ) (hi : i < w) :
    x &&& (1#w <<< i) = 0#w ↔ x.getLsbD i = false := by
  constructor
  · intro h
    have := congrArg (fun y => y.getLsbD i) h
    simpa [getLsbD_one_shiftLeft i i hi] using this
  · intro h
    apply BitVec.eq_of_getLsbD_eq
    intro j hj
    rw [BitVec.getLsbD_and, getLsbD_one_shiftLeft i j hj, BitVec.getLsbD_zero]
    by_cases he : j = i
    · rw [he, h, Bool.false_and]
    · rw [decide_eq_false he, Bool.and_false]

end BitArray

/-- A field of a word, shifted down and masked out. -/
theorem masked_field (x : BitVec 32) (k : ℕ) {n : ℕ} (hn : n ≤ 32) :
    (x >>> k &&& BitVec.ofNat 32 (2 ^ n - 1)).setWidth n = x.extractLsb' k n := by
  apply BitVec.eq_of_getLsbD_eq
  intro i hi
  rw [BitVec.getLsbD_setWidth, BitVec.getLsbD_and, BitVec.getLsbD_ushiftRight, BitVec.getLsbD_ofNat,
    Nat.testBit_two_pow_sub_one, BitVec.getLsbD_extractLsb', decide_eq_true hi,
    decide_eq_true (show i < 32 by omega), Bool.and_true, Bool.and_true]

end Lib
