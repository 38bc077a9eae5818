import FrodOS.Kernel.State
import FrodOS.Lib.CString

/-!
# The screen saver (frodos-sdk/apps/matrix.c)

A program of the SDK, on the characters that `sys_read_char` returns to it. Its generator is
meant to be chaotic, but the two low bits that it prints from only count.
-/

namespace FrodOS
open Lib

inductive AppCall where
  | clear
  | print (s : List Byte)
  | yield
  | exit

namespace Matrix

/-- The text for `column_pick` -/
def row (pseudo_rand : U32) : List Byte :=
  let column_pick := pseudo_rand % 4
  if column_pick = 0 then ascii " 0 1 0   1 0   0 1 \n"
  else if column_pick = 1 then ascii "   1   0 1   1 0   \n"
  else if column_pick = 2 then ascii " 0   0   1 0   0 1 \n"
  else ascii "   1 0   0   1   1 \n"

/-- 'q' or 'Q' -/
def quits (input : Byte) : Bool := input = 0x71 || input = 0x51

def advance (pseudo_rand : U32) : U32 := pseudo_rand * 1103515245 + 12345

def ending : List AppCall := [.clear, .print (ascii "Matrix screen saver halted.\n"), .exit]

/-- The loop, up to where the characters end. The delays have no effect. -/
def loop : List Byte → U32 → List AppCall
  | [], _ => []
  | input :: rest, pseudo_rand =>
    if quits input then ending
    else .print (row (advance pseudo_rand)) :: .yield :: loop rest (advance pseudo_rand)

def main (inputs : List Byte) : List AppCall :=
  .clear :: .print (ascii "=== Matrix Screen Saver Enabled ===\n") ::
    .print (ascii "Press 'q' at any time to exit program stream...\n\n") :: loop inputs 42

/-! ### The generator -/

theorem row_low {r r' : U32} (h : r.toNat % 4 = r'.toNat % 4) : row r = row r' := by
  have hpick : r % 4 = r' % 4 := by
    apply BitVec.eq_of_toNat_eq
    rw [BitVec.toNat_umod, BitVec.toNat_umod]
    exact h
  rw [row, row, hpick]

/-- The multiplier and the increment are 1 modulo 4. -/
theorem advance_low (r : U32) : (advance r).toNat % 4 = (r.toNat + 1) % 4 := by
  have hsum : (advance r).toNat = (r.toNat * 1103515245 % 2 ^ 32 + 12345) % 2 ^ 32 := by
    rw [advance, BitVec.toNat_add, BitVec.toNat_mul]
    rfl
  omega

/-! ### The loop -/

/-- The rows from number `j` on, `n` of them. -/
def rows (j n : ℕ) : List AppCall := (List.range' j n).flatMap fun i => [.print (row (BitVec.ofNat 32 i)), .yield]

theorem row_ofNat {r : U32} {j : ℕ} (h : r.toNat % 4 = j % 4) : row r = row (BitVec.ofNat 32 j) := by
  apply row_low
  rw [BitVec.toNat_ofNat, h]
  omega

theorem loop_eq (inputs : List Byte) {r : U32} {j : ℕ} (h : (r.toNat + 1) % 4 = j % 4) :
    loop inputs r =
      rows j (inputs.takeWhile fun c => !quits c).length ++ if inputs.any quits then ending else [] := by
  induction inputs generalizing r j with
  | nil => rfl
  | cons input inputs ih =>
    unfold loop
    by_cases hquit : quits input = true
    · simp [hquit, rows]
    · have hlow := (advance_low r).trans h
      have hnext : ((advance r).toNat + 1) % 4 = (j + 1) % 4 := by omega
      rw [if_neg hquit, ih hnext, row_ofNat hlow, List.takeWhile_cons_of_pos (by simp [hquit]), List.length_cons, rows,
        rows, List.range'_succ, List.flatMap_cons, List.any_cons]
      simp [hquit]

/-- Whatever is typed, the saver prints its four rows in turn, starting with the last, one for each
character before the first 'q' or 'Q', and then it exits; without one it never does. -/
theorem saver_rows_in_turn (inputs : List Byte) :
    main inputs =
      [.clear, .print (ascii "=== Matrix Screen Saver Enabled ===\n"),
        .print (ascii "Press 'q' at any time to exit program stream...\n\n")] ++
      rows 3 (inputs.takeWhile fun c => !quits c).length ++ if inputs.any quits then ending else [] := by
  unfold main
  rw [loop_eq inputs (by decide : (BitVec.toNat (42 : U32) + 1) % 4 = 3 % 4)]
  simp only [List.cons_append, List.nil_append]

end Matrix

end FrodOS
