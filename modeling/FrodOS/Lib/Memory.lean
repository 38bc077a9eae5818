import Mathlib.Logic.Function.Basic
import Mathlib.Data.BitVec
import Mathlib.Tactic.SplitIfs

/-!
# Flat byte memory

A `w`-bit address space of bytes. Pointer arithmetic is modulo `2 ^ w`, so a
run of bytes that starts near the top of the space continues at address zero;
`Fits` is the condition that it does not.
-/

namespace Lib

abbrev Byte := BitVec 8

/-- The bytes seen from a pointer: `f i` is the byte `i` places further on. -/
abbrev View := ℕ → Byte

abbrev Mem (w : ℕ) := BitVec w → Byte

variable {w : ℕ}

/-! ### Addresses -/

def off (p : BitVec w) (i : ℕ) : BitVec w := p + BitVec.ofNat w i

@[simp] theorem off_zero (p : BitVec w) : off p 0 = p := by simp [off]

theorem off_off (p : BitVec w) (i j : ℕ) : off (off p i) j = off p (i + j) := by
  simp only [off, BitVec.ofNat_add, BitVec.add_assoc]

theorem off_toNat_mod (p : BitVec w) (i : ℕ) : (off p i).toNat = (p.toNat + i) % 2 ^ w := by
  simp only [off, BitVec.toNat_add, BitVec.toNat_ofNat, Nat.add_mod_mod]

theorem off_toNat (p : BitVec w) (i : ℕ) (h : p.toNat + i < 2 ^ w) :
    (off p i).toNat = p.toNat + i := by
  rw [off_toNat_mod, Nat.mod_eq_of_lt h]

theorem off_inj (p : BitVec w) (i j : ℕ) (hi : i < 2 ^ w) (hj : j < 2 ^ w)
    (h : off p i = off p j) : i = j := by
  have he : BitVec.ofNat w i = BitVec.ofNat w j := BitVec.add_right_inj p |>.mp h
  have hn := congrArg BitVec.toNat he
  rwa [BitVec.toNat_ofNat, BitVec.toNat_ofNat, Nat.mod_eq_of_lt hi, Nat.mod_eq_of_lt hj] at hn

def span (p : BitVec w) (n : ℕ) : List (BitVec w) := (List.range n).map (off p)

theorem mem_span {p a : BitVec w} {n : ℕ} : a ∈ span p n ↔ ∃ i < n, off p i = a := by
  simp [span]

theorem span_mono (p : BitVec w) {m n : ℕ} (h : m ≤ n) : span p m ⊆ span p n := by
  intro a ha
  obtain ⟨i, hi, he⟩ := mem_span.mp ha
  exact mem_span.mpr ⟨i, by omega, he⟩

/-- The `n` bytes from `p` on do not run past the top of the address space. -/
def Fits (p : BitVec w) (n : ℕ) : Prop := p.toNat + n ≤ 2 ^ w

instance (p : BitVec w) (n : ℕ) : Decidable (Fits p n) := by unfold Fits; infer_instance

theorem Fits.mono {p : BitVec w} {m n : ℕ} (h : m ≤ n) (hf : Fits p n) : Fits p m := by
  unfold Fits at *
  omega

theorem fits_zero (p : BitVec w) : Fits p 0 := by
  have := p.isLt
  unfold Fits
  omega

theorem fits_max {p : BitVec w} {m n : ℕ} : Fits p (max m n) ↔ Fits p m ∧ Fits p n := by
  unfold Fits
  omega

theorem mem_span_iff {p a : BitVec w} {n : ℕ} (h : Fits p n) :
    a ∈ span p n ↔ p.toNat ≤ a.toNat ∧ a.toNat < p.toNat + n := by
  unfold Fits at h
  rw [mem_span]
  constructor
  · intro hc
    obtain ⟨i, hi, rfl⟩ := hc
    rw [off_toNat p i (by omega)]
    omega
  · intro hc
    obtain ⟨hle, hlt⟩ := hc
    refine ⟨a.toNat - p.toNat, by omega, BitVec.eq_of_toNat_eq ?_⟩
    rw [off_toNat p _ (by omega)]
    omega

/-- A run of bytes that starts at or above a nonzero limit stays there exactly
when it does not wrap: the first byte past the top is address zero. -/
theorem span_above_iff (lo p : BitVec w) (n : ℕ) (hlo : 0 < lo.toNat) (hp : lo ≤ p) :
    (∀ a ∈ span p n, lo ≤ a) ↔ Fits p n := by
  have hpn : lo.toNat ≤ p.toNat := hp
  have hw := p.isLt
  constructor
  · intro h
    by_contra hf
    unfold Fits at hf
    have hz := h (off p (2 ^ w - p.toNat)) (mem_span.mpr ⟨_, by omega, rfl⟩)
    have hn : lo.toNat ≤ (off p (2 ^ w - p.toNat)).toNat := hz
    rw [off_toNat_mod, show p.toNat + (2 ^ w - p.toNat) = 2 ^ w by omega, Nat.mod_self] at hn
    omega
  · intro hf a ha
    obtain ⟨i, hi, rfl⟩ := mem_span.mp ha
    unfold Fits at hf
    show lo.toNat ≤ (off p i).toNat
    rw [off_toNat p i (by omega)]
    omega

theorem stride_above_iff (lo p : BitVec w) (n step : ℕ) (hs : 0 < step) (hlo : step ≤ lo.toNat) :
    (∀ j < n, lo ≤ off p (j * step)) ↔
      n = 0 ∨ lo ≤ p ∧ p.toNat + (n - 1) * step < 2 ^ w := by
  have hw := p.isLt
  have hlow := lo.isLt
  constructor
  · intro h
    rcases Nat.eq_zero_or_pos n with hz | hpos
    · exact Or.inl hz
    · have hp : lo ≤ p := by simpa using h 0 hpos
      refine Or.inr ⟨hp, ?_⟩
      by_contra hwrap
      -- the first address past the top is lower than one stride
      let j := (2 ^ w - p.toNat + step - 1) / step
      have hdm := Nat.div_add_mod (2 ^ w - p.toNat + step - 1) step
      have hlt := Nat.mod_lt (2 ^ w - p.toNat + step - 1) hs
      have hj : step * j + (2 ^ w - p.toNat + step - 1) % step = 2 ^ w - p.toNat + step - 1 := hdm
      have hjn : j < n := by
        by_contra hge
        have hle : step * n ≤ step * j := Nat.mul_le_mul_left step (by omega)
        have hsplit : (n - 1) * step + step = step * n := by
          rw [← Nat.succ_mul, Nat.succ_eq_add_one, Nat.sub_add_cancel hpos, Nat.mul_comm]
        omega
      have habove : lo.toNat ≤ (off p (j * step)).toNat := h j hjn
      have hval : p.toNat + j * step = 2 ^ w + (p.toNat + j * step - 2 ^ w) := by
        rw [Nat.mul_comm j step]
        omega
      have hsmall : p.toNat + j * step - 2 ^ w < step := by
        rw [Nat.mul_comm j step]
        omega
      rw [off_toNat_mod, hval, Nat.add_mod_left, Nat.mod_eq_of_lt (by omega)] at habove
      omega
  · rintro (rfl | ⟨hp, hfit⟩) j hj
    · omega
    · have hpn : lo.toNat ≤ p.toNat := hp
      have hle : j * step ≤ (n - 1) * step := Nat.mul_le_mul_right step (by omega)
      show lo.toNat ≤ (off p (j * step)).toNat
      rw [off_toNat p _ (by omega)]
      omega

/-! ### Reading and writing -/

def view (m : Mem w) (p : BitVec w) : View := fun i => m (off p i)

def writeBytes (m : Mem w) (p : BitVec w) (f : View) : ℕ → Mem w
  | 0 => m
  | n + 1 => Function.update (writeBytes m p f n) (off p n) (f n)

theorem writeBytes_outside (m : Mem w) (p : BitVec w) (f : View) (n : ℕ) (a : BitVec w)
    (h : ∀ i < n, a ≠ off p i) : writeBytes m p f n a = m a := by
  induction n with
  | zero => rfl
  | succ n ih =>
    rw [writeBytes, Function.update_of_ne (h n (by omega))]
    exact ih fun i hi => h i (by omega)

theorem writeBytes_inside (m : Mem w) (p : BitVec w) (f : View) (n i : ℕ) (hn : n ≤ 2 ^ w)
    (hi : i < n) : writeBytes m p f n (off p i) = f i := by
  induction n with
  | zero => omega
  | succ n ih =>
    by_cases he : i = n
    · subst he
      rw [writeBytes, Function.update_self]
    · have hne : off p i ≠ off p n := fun h => he (off_inj p i n (by omega) (by omega) h)
      rw [writeBytes, Function.update_of_ne hne]
      exact ih (by omega) (by omega)

theorem writeBytes_congr (m : Mem w) (p : BitVec w) (f g : View) (n : ℕ)
    (h : ∀ i < n, f i = g i) : writeBytes m p f n = writeBytes m p g n := by
  induction n with
  | zero => rfl
  | succ n ih =>
    rw [writeBytes, writeBytes, ih fun i hi => h i (by omega), h n (by omega)]

/-! ### Little-endian words -/

def leWord (f : View) : BitVec 32 := f 3 ++ f 2 ++ f 1 ++ f 0

def wordBytes (v : BitVec 32) : View := fun i => v.extractLsb' (8 * i) 8

theorem leWord_wordBytes (v : BitVec 32) : leWord (wordBytes v) = v := by
  apply BitVec.eq_of_getLsbD_eq
  intro i hi
  simp only [leWord, wordBytes, BitVec.getLsbD_append, BitVec.getLsbD_extractLsb']
  -- the four cases are the four byte lanes
  split_ifs with h0 h1 h2
  · rw [decide_eq_true h0, Bool.true_and]
    exact congrArg _ (by omega)
  · rw [decide_eq_true h1, Bool.true_and]
    exact congrArg _ (by omega)
  · rw [decide_eq_true (by omega), Bool.true_and]
    exact congrArg _ (by omega)
  · rw [decide_eq_true (by omega), Bool.true_and]
    exact congrArg _ (by omega)

theorem leWord_congr (f g : View) (h : ∀ i < 4, f i = g i) : leWord f = leWord g := by
  simp only [leWord, h 0 (by omega), h 1 (by omega), h 2 (by omega), h 3 (by omega)]

/-- The four bytes of a word in the order in which they lie in memory. -/
def le32 (v : BitVec 32) : List Byte := (List.range 4).map (wordBytes v)

@[simp] theorem le32_length (v : BitVec 32) : (le32 v).length = 4 := by simp [le32]

def load32 (m : Mem w) (p : BitVec w) : BitVec 32 := leWord (view m p)

def store32 (m : Mem w) (p : BitVec w) (v : BitVec 32) : Mem w := writeBytes m p (wordBytes v) 4

theorem store32_outside (m : Mem w) (p : BitVec w) (v : BitVec 32) {a : BitVec w}
    (h : a ∉ span p 4) : store32 m p v a = m a :=
  writeBytes_outside m p _ 4 a fun i hi he => h (mem_span.mpr ⟨i, hi, he.symm⟩)

theorem load32_store32 (m : Mem w) (p : BitVec w) (v : BitVec 32) (hw : 4 ≤ 2 ^ w) :
    load32 (store32 m p v) p = v := by
  have hb : ∀ i < 4, view (store32 m p v) p i = wordBytes v i :=
    fun i hi => writeBytes_inside m p _ 4 i hw hi
  rw [load32, leWord_congr _ _ hb, leWord_wordBytes]

end Lib
