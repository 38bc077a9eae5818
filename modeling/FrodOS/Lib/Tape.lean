import Mathlib.Logic.Function.Basic
import Mathlib.Data.Int.Init
import Mathlib.Tactic.Common

/-!
# Endless tapes and windows on them

A tape has a cell at every position, and a position where the next character goes.
`Window w n blank s t screen cursor` says that a screen of `n` cells shows the tape `t`
from line `s` on, in lines of `w` cells, with nothing but blanks from the cursor on.
-/

namespace Lib

structure Tape (α : Type) where
  cells : ℤ → α
  pos : ℤ

variable {α : Type}

namespace Tape

def write (t : Tape α) (a : α) : Tape α := ⟨Function.update t.cells t.pos a, t.pos + 1⟩

def newline (w : ℤ) (t : Tape α) : Tape α := ⟨t.cells, (t.pos / w + 1) * w⟩

def back (blank : α) (t : Tape α) : Tape α := ⟨Function.update t.cells (t.pos - 1) blank, t.pos - 1⟩

theorem write_pos (t : Tape α) (a : α) : (t.write a).pos = t.pos + 1 := rfl

theorem back_pos (t : Tape α) (blank : α) : (t.back blank).pos = t.pos - 1 := rfl

theorem write_here (t : Tape α) (a : α) : (t.write a).cells t.pos = a := by simp [write]

theorem write_other (t : Tape α) (a : α) {j : ℤ} (h : j ≠ t.pos) : (t.write a).cells j = t.cells j := by
  simp [write, h]

theorem back_here (t : Tape α) (blank : α) : (t.back blank).cells (t.pos - 1) = blank := by
  simp [back]

theorem back_other (t : Tape α) (blank : α) {j : ℤ} (h : j ≠ t.pos - 1) :
    (t.back blank).cells j = t.cells j := by
  simp [back, h]

/-- `t` is the tape `base` with `text` written on it. -/
structure Extends (base : Tape α) (text : List α) (t : Tape α) : Prop where
  pos_eq : t.pos = base.pos + text.length
  chars : ∀ i (h : i < text.length), t.cells (base.pos + i) = text[i]
  before : ∀ j, j < base.pos → t.cells j = base.cells j

theorem Extends.refl (t : Tape α) : t.Extends [] t where
  pos_eq := by rw [List.length_nil, Int.natCast_zero, Int.add_zero]
  chars i h := absurd h (Nat.not_lt_zero i)
  before j _ := rfl

variable {base t : Tape α} {text : List α} {a b blank : α}

theorem Extends.write (h : base.Extends text t) (a : α) : base.Extends (text ++ [a]) (t.write a) where
  pos_eq := by
    rw [write_pos, h.pos_eq, List.length_append, List.length_singleton, Int.natCast_add, Int.natCast_one,
      Int.add_assoc]
  chars i hi := by
    rw [List.length_append, List.length_singleton] at hi
    by_cases hlast : i = text.length
    · subst hlast
      rw [← h.pos_eq, write_here, List.getElem_append_right (Nat.le_refl _)]
      simp
    · have hne : base.pos + i ≠ t.pos := by
        rw [h.pos_eq]
        omega
      rw [write_other t a hne, List.getElem_append_left (by omega)]
      exact h.chars i (by omega)
  before j hj := by
    have hne : j ≠ t.pos := by
      rw [h.pos_eq]
      omega
    rw [write_other t a hne]
    exact h.before j hj

theorem Extends.back (h : base.Extends (text ++ [a]) t) (blank : α) : base.Extends text (t.back blank) := by
  have hpos : t.pos - 1 = base.pos + text.length := by
    rw [h.pos_eq, List.length_append, List.length_singleton]
    omega
  refine ⟨hpos, fun i hi => ?_, fun j hj => ?_⟩
  · have hne : base.pos + i ≠ t.pos - 1 := by omega
    have hi' : i < (text ++ [a]).length := by
      rw [List.length_append]
      omega
    rw [back_other t blank hne, h.chars i hi', List.getElem_append_left hi]
  · have hne : j ≠ t.pos - 1 := by omega
    rw [back_other t blank hne]
    exact h.before j hj

/-- Back, a character over the last one and back again only removes the last one. -/
theorem Extends.rubOut (h : base.Extends (text ++ [a]) t) (b blank : α) :
    base.Extends text (((t.back blank).write b).back blank) :=
  ((h.back blank).write b).back blank

end Tape

/-! ### Windows -/

structure Window (w n : ℤ) (blank : α) (s : ℕ) (t : Tape α) (screen : ℤ → α) (cursor : ℤ) : Prop where
  nonneg : 0 ≤ cursor
  le : cursor ≤ n
  pos_eq : t.pos = cursor + w * s
  cells_eq : ∀ j, 0 ≤ j → j < n → screen j = t.cells (j + w * s)
  ahead : ∀ j, t.pos ≤ j → t.cells j = blank

namespace Window

variable {w n cursor : ℤ} {blank : α} {s : ℕ} {t : Tape α} {screen screen' : ℤ → α}

theorem screen_ahead (h : Window w n blank s t screen cursor) {j : ℤ} (hj : cursor ≤ j) (hn : j < n) :
    screen j = blank := by
  have h0 := h.nonneg
  have hpos := h.pos_eq
  rw [h.cells_eq j (by omega) hn]
  exact h.ahead _ (by omega)

theorem of_screen (h0 : 0 ≤ cursor) (hn : cursor ≤ n)
    (hblank : ∀ j, cursor ≤ j → j < n → screen j = blank) :
    Window w n blank 0 ⟨fun j => if j < n then screen j else blank, cursor⟩ screen cursor where
  nonneg := h0
  le := hn
  pos_eq := by simp
  cells_eq j _ hj := by simp [hj]
  ahead j hj := by
    change (if j < n then screen j else blank) = blank
    split_ifs with hlt
    · exact hblank j hj hlt
    · rfl

theorem scroll (h : Window w n blank s t screen n) (hw : 0 ≤ w) (hwn : w ≤ n)
    (hmove : ∀ j, 0 ≤ j → j < n - w → screen' j = screen (j + w))
    (hfill : ∀ j, n - w ≤ j → j < n → screen' j = blank) :
    Window w n blank (s + 1) t screen' (n - w) := by
  have hpos := h.pos_eq
  have hsucc : w * (s + 1 : ℕ) = w * s + w := by
    rw [Int.natCast_add, Int.natCast_one, Int.mul_add, Int.mul_one]
  refine ⟨by omega, by omega, by omega, fun j h0 hj => ?_, h.ahead⟩
  have hadd : j + w * (s + 1 : ℕ) = j + w + w * s := by omega
  rw [hadd]
  by_cases hlt : j < n - w
  · rw [hmove j h0 hlt, h.cells_eq _ (by omega) (by omega)]
  · rw [hfill j (by omega) hj, h.ahead _ (by omega)]

theorem write (h : Window w n blank s t screen cursor) (hlt : cursor < n) (a : α) :
    Window w n blank s (t.write a) (Function.update screen cursor a) (cursor + 1) := by
  have h0 := h.nonneg
  have hpos := h.pos_eq
  refine ⟨by omega, by omega, ?_, fun j hj hjn => ?_, fun j hj => ?_⟩
  · rw [Tape.write_pos, hpos]
    omega
  · by_cases he : j = cursor
    · rw [he, ← hpos, Tape.write_here, Function.update_self]
    · have hne : j + w * s ≠ t.pos := by omega
      rw [Function.update_of_ne he, Tape.write_other t a hne, h.cells_eq j hj hjn]
  · rw [Tape.write_pos] at hj
    rw [Tape.write_other t a (by omega), h.ahead j (by omega)]

theorem newline (h : Window w n blank s t screen cursor) (hw : 0 < w) (hdvd : w ∣ n) (hlt : cursor < n) :
    Window w n blank s (t.newline w) screen ((cursor / w + 1) * w) := by
  have h0 := h.nonneg
  have hpos : (t.pos / w + 1) * w = (cursor / w + 1) * w + w * s := by
    rw [h.pos_eq, Int.add_mul_ediv_left _ _ (by omega), Int.add_right_comm, Int.add_mul _ (s : ℤ),
      Int.mul_comm (s : ℤ)]
  have hnext : cursor < (cursor / w + 1) * w := Int.lt_ediv_add_one_mul_self cursor hw
  obtain ⟨lines, rfl⟩ := hdvd
  have hlines : cursor / w + 1 ≤ lines := by
    have := Int.ediv_lt_of_lt_mul hw (by rwa [Int.mul_comm] at hlt : cursor < lines * w)
    omega
  refine ⟨by omega, ?_, hpos, h.cells_eq, fun j hj => ?_⟩
  · rw [Int.mul_comm w]
    exact Int.mul_le_mul_of_nonneg_right hlines (by omega)
  · have hp := h.pos_eq
    change (t.pos / w + 1) * w ≤ j at hj
    exact h.ahead j (by omega)

theorem back (h : Window w n blank s t screen cursor) (h0 : 0 < cursor) :
    Window w n blank s (t.back blank) (Function.update screen (cursor - 1) blank) (cursor - 1) := by
  have hle := h.le
  have hpos := h.pos_eq
  refine ⟨by omega, by omega, ?_, fun j hj hjn => ?_, fun j hj => ?_⟩
  · rw [Tape.back_pos, hpos]
    omega
  · by_cases he : j = cursor - 1
    · have ht : cursor - 1 + w * s = t.pos - 1 := by omega
      rw [he, ht, Tape.back_here, Function.update_self]
    · have hne : j + w * s ≠ t.pos - 1 := by omega
      rw [Function.update_of_ne he, Tape.back_other t blank hne, h.cells_eq j hj hjn]
  · rw [Tape.back_pos] at hj
    by_cases he : j = t.pos - 1
    · rw [he, Tape.back_here]
    · rw [Tape.back_other t blank he, h.ahead j (by omega)]

end Window

end Lib
