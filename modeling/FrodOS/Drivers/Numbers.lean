import FrodOS.Drivers.Video
import FrodOS.Lib.CString
import FrodOS.Lib.Numeral

/-!
# Numbers on the console (video.c, kernel.c)

`kprint_int` writes the digits from the end of a buffer towards its start and prints from
the last one written. `kprint_hex8` and `kprint_hex32` print a fixed number of digits.
-/

namespace FrodOS
open Lib

namespace Console

/-- The loop of `kprint_int`, for at most `fuel` passes: the buffer and the index after it. -/
def digitLoop : (fuel : ℕ) → (buf : ℤ → Byte) → (i : ℤ) → (num : BitVec 32) → (ℤ → Byte) × ℤ
  | 0, buf, i, _ => (buf, i)
  | fuel + 1, buf, i, num =>
    if 0 < num then
      digitLoop fuel (Function.update buf i ((num % 10 + 48).setWidth 8)) (i - 1) (num / 10)
    else (buf, i)

/-- `kprint_int`, with what the stack holds where its buffer is. A number has at most ten
digits. -/
def kprintInt (c : Console) (stack : ℤ → Byte) (n : BitVec 32) : Console :=
  if n = 0 then c.kprint [48]
  else
    let buf := Function.update stack 11 0
    let num := if n.slt 0 then -n else n
    let c := if n.slt 0 then c.putChar 45 else c
    let r := digitLoop 10 buf 10 num
    c.kprint ((List.range 11).map fun j => r.1 (r.2 + 1 + j))

/-- "0123456789ABCDEF" -/
def hexChars : List Byte := [48, 49, 50, 51, 52, 53, 54, 55, 56, 57, 65, 66, 67, 68, 69, 70]

def kprintHex8 (c : Console) (val : Byte) : Console :=
  (c.putChar (hexChars.getD ((val >>> 4) &&& 0x0F).toNat 0)).putChar (hexChars.getD (val &&& 0x0F).toNat 0)

def kprintHex32 (c : Console) (v : BitVec 32) : Console :=
  ((((c.kprint [48, 120]).kprintHex8 ((v >>> 24).setWidth 8)).kprintHex8 ((v >>> 16).setWidth 8)).kprintHex8
    ((v >>> 8).setWidth 8)).kprintHex8 (v.setWidth 8)

/-! ### Printing in pieces -/

theorem kprint_append (c : Console) {s : List Byte} (hs : ∀ b ∈ s, b ≠ 0) (t : List Byte) :
    c.kprint (s ++ t) = (c.kprint s).kprint t := by
  induction s generalizing c with
  | nil => rfl
  | cons b s ih =>
    rw [List.forall_mem_cons] at hs
    rw [List.cons_append, kprint, kprint, if_neg hs.1, if_neg hs.1, ih _ hs.2]

theorem putChar_eq_kprint (c : Console) {b : Byte} (hb : b ≠ 0) : c.putChar b = c.kprint [b] := by
  rw [kprint, if_neg hb, kprint]

/-- `kprint` of a pointer into a buffer that holds a string. -/
theorem kprint_view (c : Console) {f : View} {s : List Byte} (h : IsCStr f s) {n : ℕ} (hn : s.length < n) :
    c.kprint ((List.range n).map f) = c.kprint s := by
  obtain ⟨rest, hsplit⟩ : ∃ rest, (List.range n).map f = s ++ 0 :: rest := by
    refine ⟨((List.range n).map f).drop (s.length + 1), ?_⟩
    rw [← h.nul]
    apply List.ext_getElem
    · rw [List.length_append, List.length_cons, List.length_drop, List.length_map, List.length_range]
      omega
    · intro i hi _
      rw [List.getElem_map, List.getElem_range]
      rcases Nat.lt_trichotomy i s.length with hlt | rfl | hgt
      · rw [List.getElem_append_left hlt, h.bytes i hlt]
      · simp
      · rw [List.getElem_append_right hgt.le, List.getElem_cons, dif_neg (by omega), List.getElem_drop,
          List.getElem_map, List.getElem_range]
        congr 1
        omega
  rw [hsplit, kprint_append _ h.nonzero, kprint, if_pos rfl]

end Console

/-! ### Decimal -/

def decimalChar (d : ℕ) : Byte := BitVec.ofNat 8 (d + 48)

def decimalVal (c : Byte) : ℕ := c.toNat - 48

def decimalText (n : ℕ) : List Byte := if n = 0 then [48] else (Nat.digits 10 n).reverse.map decimalChar

/-- The text of a number with its sign. -/
def intText (n : ℤ) : List Byte := (if n < 0 then [45] else []) ++ decimalText n.natAbs

def readInt (text : List Byte) : ℤ :=
  match text with
  | 45 :: digits => -(positional 10 decimalVal digits)
  | digits => positional 10 decimalVal digits

theorem decimalVal_decimalChar {d : ℕ} (hd : d < 10) : decimalVal (decimalChar d) = d := by
  rw [decimalVal, decimalChar, BitVec.toNat_ofNat, Nat.mod_eq_of_lt (by omega), Nat.add_sub_cancel]

theorem positional_decimalText (n : ℕ) : positional 10 decimalVal (decimalText n) = n := by
  rw [decimalText]
  split_ifs with h0
  · rw [h0]
    rfl
  · exact positional_digits (fun _ hd => decimalVal_decimalChar hd) (by decide) n

theorem decimalChar_range {d : ℕ} (hd : d < 10) : 48 ≤ (decimalChar d).toNat ∧ (decimalChar d).toNat < 58 := by
  rw [decimalChar, BitVec.toNat_ofNat, Nat.mod_eq_of_lt (by omega)]
  omega

theorem decimalText_range (n : ℕ) : ∀ b ∈ decimalText n, 48 ≤ b.toNat ∧ b.toNat < 58 := by
  intro b hb
  rw [decimalText] at hb
  split_ifs at hb with h0
  · rw [List.mem_singleton.mp hb]
    decide
  · obtain ⟨d, hd, rfl⟩ := List.mem_map.mp hb
    exact decimalChar_range (Nat.digits_lt_base (by decide) (List.mem_reverse.mp hd))

theorem readInt_intText (n : ℤ) : readInt (intText n) = n := by
  have hvalue := positional_decimalText n.natAbs
  rw [intText]
  split_ifs with hneg
  · change -(positional 10 decimalVal (decimalText n.natAbs) : ℤ) = n
    omega
  · have hplain : readInt (decimalText n.natAbs) = positional 10 decimalVal (decimalText n.natAbs) := by
      unfold readInt
      split
      next digits he =>
        have hminus := decimalText_range n.natAbs 45 (he ▸ List.mem_cons_self)
        exact absurd hminus.1 (by decide)
      next => rfl
    rw [List.nil_append, hplain]
    omega

namespace Console

theorem digit_char (num : BitVec 32) :
    ((num % 10 + 48).setWidth 8 : Byte) = decimalChar (num.toNat % 10) := by
  have hmod : (num % 10).toNat = num.toNat % 10 := BitVec.toNat_umod
  apply BitVec.eq_of_toNat_eq
  rw [BitVec.toNat_setWidth, BitVec.toNat_add, hmod, decimalChar, BitVec.toNat_ofNat]
  change (num.toNat % 10 + 48) % 2 ^ 32 % 2 ^ 8 = _
  omega

/-- With a pass for every digit the loop leaves the digits in front of `i`, the last one at `i`
itself, and the rest of the buffer as it was. -/
theorem digitLoop_spec (fuel : ℕ) (buf : ℤ → Byte) (i : ℤ) (num : BitVec 32) (h : num.toNat < 10 ^ fuel) :
    let digits := Nat.digits 10 num.toNat
    let r := digitLoop fuel buf i num
    r.2 = i - digits.length ∧ (∀ j (hj : j < digits.length), r.1 (i - j) = decimalChar digits[j]) ∧
      ∀ k, k ≤ i - digits.length ∨ i < k → r.1 k = buf k := by
  induction fuel generalizing buf i num with
  | zero =>
    have hzero : num.toNat = 0 := by omega
    simp only [hzero, digitLoop, Nat.digits_zero]
    exact ⟨(Int.sub_zero i).symm, fun j hj => absurd hj (Nat.not_lt_zero j), fun _ _ => trivial⟩
  | succ fuel ih =>
    by_cases hpos : 0 < num
    · have hnat : 0 < num.toNat := hpos
      have hdiv : (num / 10).toNat = num.toNat / 10 := BitVec.toNat_udiv
      obtain ⟨hend, hchars, hkept⟩ := ih (Function.update buf i (decimalChar (num.toNat % 10))) (i - 1) (num / 10)
        (by rw [hdiv]; rw [pow_succ] at h; omega)
      rw [hdiv] at hend hchars hkept
      simp only [digitLoop, hpos, if_true, digit_char, Nat.digits_def' (by decide : 1 < 10) hnat]
      refine ⟨?_, fun j hj => ?_, fun k hk => ?_⟩
      · rw [hend, List.length_cons]
        omega
      · cases j with
        | zero =>
          rw [hkept _ (Or.inr (by omega)), Int.natCast_zero, Int.sub_zero, Function.update_self]
          rfl
        | succ j =>
          have hj' := hchars j (Nat.lt_of_succ_lt_succ hj)
          rw [show i - 1 - (j : ℤ) = i - (j + 1 : ℕ) by omega] at hj'
          exact hj'
      · rw [List.length_cons] at hk
        rw [hkept k (by omega), Function.update_of_ne (by omega)]
    · have hzero : num.toNat = 0 := Nat.le_zero.mp (Nat.not_lt.mp hpos)
      simp only [digitLoop, hpos, if_false, hzero, Nat.digits_zero]
      exact ⟨(Int.sub_zero i).symm, fun j hj => absurd hj (Nat.not_lt_zero j), fun _ _ => trivial⟩

theorem digits_length_le (num : BitVec 32) : (Nat.digits 10 num.toNat).length ≤ 10 := by
  have hlt := num.isLt
  rw [Nat.digits_length_le_iff (by decide)]
  omega

theorem decimalText_nonzero (n : ℕ) : ∀ b ∈ decimalText n, b ≠ 0 := by
  intro b hb he
  have hrange := decimalText_range n b hb
  rw [he] at hrange
  exact absurd hrange.1 (by decide)

/-- What the loop leaves in the buffer, from the last digit written on. -/
theorem digitLoop_text (stack : ℤ → Byte) {num : BitVec 32} (h : num ≠ 0) :
    let r := digitLoop 10 (Function.update stack 11 0) 10 num
    (0 ≤ r.2 ∧ r.2 < 10) ∧ IsCStr (fun j => r.1 (r.2 + 1 + j)) (decimalText num.toNat) := by
  have hnat : num.toNat ≠ 0 := fun h0 => h (BitVec.eq_of_toNat_eq h0)
  have hlen := digits_length_le num
  have hsome : 0 < (Nat.digits 10 num.toNat).length :=
    List.length_pos_of_ne_nil (Nat.digits_ne_nil_iff_ne_zero.mpr hnat)
  obtain ⟨hend, hchars, hkept⟩ := digitLoop_spec 10 (Function.update stack 11 0) 10 num (by
    have := num.isLt
    omega)
  intro r
  have hstart : r.2 = 10 - ((Nat.digits 10 num.toNat).length : ℤ) := hend
  have htext : decimalText num.toNat = (Nat.digits 10 num.toNat).reverse.map decimalChar := if_neg hnat
  refine ⟨by omega, decimalText_nonzero _, fun j hj => ?_, ?_⟩
  · have hj' : j < (Nat.digits 10 num.toNat).length := by
      rwa [htext, List.length_map, List.length_reverse] at hj
    have hchar := hchars ((Nat.digits 10 num.toNat).length - 1 - j) (by omega)
    simp only [htext, List.getElem_map, List.getElem_reverse]
    rw [← hchar]
    exact congrArg r.1 (by omega)
  · have hnul : r.2 + 1 + ((decimalText num.toNat).length : ℤ) = 11 := by
      rw [htext, List.length_map, List.length_reverse]
      omega
    simp only [hnul]
    exact (hkept 11 (Or.inr (by decide))).trans (Function.update_self ..)

theorem kprintInt_digits (c : Console) (stack : ℤ → Byte) {num : BitVec 32} (h : num ≠ 0) :
    let r := digitLoop 10 (Function.update stack 11 0) 10 num
    c.kprint ((List.range 11).map fun j => r.1 (r.2 + 1 + j)) = c.kprint (decimalText num.toNat) := by
  intro r
  obtain ⟨-, htext⟩ := digitLoop_text stack h
  have hlen := digits_length_le num
  have hnat : num.toNat ≠ 0 := fun h0 => h (BitVec.eq_of_toNat_eq h0)
  have htextlen : (decimalText num.toNat).length < 11 := by
    rw [decimalText, if_neg hnat, List.length_map, List.length_reverse]
    omega
  exact kprint_view c htext htextlen

/-- `kprint_int` prints the number with its sign, whatever its buffer held before, and what it
prints is read back as the number. -/
theorem kprintInt_eq (c : Console) (stack : ℤ → Byte) (n : BitVec 32) :
    c.kprintInt stack n = c.kprint (intText n.toInt) ∧ readInt (intText n.toInt) = n.toInt := by
  refine ⟨?_, readInt_intText _⟩
  rw [kprintInt]
  by_cases h0 : n = 0
  · subst h0
    rfl
  rw [if_neg h0, intText]
  by_cases hneg : n.slt 0 = true
  · have hint : n.toInt < 0 := by simpa [BitVec.slt] using hneg
    have habs : (-n).toNat = n.toInt.natAbs := by
      have hlt := n.isLt
      rw [BitVec.toInt_eq_toNat_cond] at hint ⊢
      rw [BitVec.toNat_neg]
      split_ifs at hint ⊢
      · omega
      · omega
    have hne : -n ≠ 0 := fun he => h0 (neg_eq_zero.mp he)
    simp only [hneg, if_true, if_pos hint]
    rw [kprintInt_digits _ stack hne, habs, putChar_eq_kprint c (by decide),
      ← kprint_append c (by decide : ∀ b ∈ ([45] : List Byte), b ≠ 0)]
  · have hint : ¬ n.toInt < 0 := by simpa [BitVec.slt] using hneg
    have habs : n.toNat = n.toInt.natAbs := by
      rw [BitVec.toInt_eq_toNat_cond] at hint ⊢
      split_ifs at hint ⊢
      · omega
      · omega
    simp only [hneg, if_neg hint]
    exact (kprintInt_digits c stack h0).trans (by rw [habs]; rfl)

end Console

end FrodOS
