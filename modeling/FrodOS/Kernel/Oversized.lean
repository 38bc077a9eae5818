import FrodOS.Kernel.ImportComplete
import FrodOS.Kernel.LookupWalk

/-!
# Sizes that do not fit 32 bits

`ramfs_read` compares the size with what is left of the module, but the size it has is
cut to 32 bits. A field that denotes more than the module holds passes when its
remainder fits.
-/

namespace FrodOS
open Lib

/-- The walk for this query comes to the header and looks at it. -/
structure HeaderReached (m : Ram) (ramfs_start ramfs_end : U32) (query : List Byte) (addr : U32) : Prop where
  walks : ¬ (ramfs_start = 0 ∨ ramfs_start ≥ ramfs_end)
  reached : Reached (ramfsPass m ramfs_end (stripDot query)) ramfs_start addr
  room : hasRoom ramfs_end addr = true
  named : m addr ≠ 0

def Oversized (m : Ram) (ramfs_end addr : U32) : Prop :=
  ramfs_end.toNat < addr.toNat + 512 + trueSize m addr

/-- The entry is not returned, and no header behind it is looked at. -/
structure Rejected (m : Ram) (ramfs_end : U32) (filename : List Byte) (addr : U32) : Prop where
  notReturned : ∀ r, ramfsPass m ramfs_end filename addr ≠ some (.done (some r))
  last : ∀ addr', ramfsPass m ramfs_end filename addr = some (.next addr') → hasRoom ramfs_end addr' = false

/-- The step to the next header, from the size modulo `2 ^ 32`. -/
def cutStep (m : Ram) (addr : U32) : U32 := 512 + aligned (BitVec.ofNat 32 (trueSize m addr))

/-- What is left of the size modulo `2 ^ 32` fits, and the name is the one looked for or
another header fits behind the entry. -/
structure SlipsThrough (m : Ram) (ramfs_end : U32) (filename : List Byte) (addr : U32) : Prop where
  fits : trueSize m addr % 2 ^ 32 ≤ (ramfs_end - (addr + 512)).toNat
  goesOn : Wanted m filename addr ∨
    cutStep m addr ≤ ramfs_end - addr ∧ hasRoom ramfs_end (addr + cutStep m addr) = true

variable {m : Ram} {ramfs_start ramfs_end addr : U32} {filename : List Byte}

theorem fileSize_eq_ofNat (m : Ram) (addr : U32) : fileSize m addr = BitVec.ofNat 32 (trueSize m addr) :=
  BitVec.eq_of_toNat_eq (by rw [fileSize_toNat, BitVec.toNat_ofNat])

theorem ramfsPass_slips (filename : List Byte) (hroom : hasRoom ramfs_end addr = true) (h0 : m addr ≠ 0) :
    ramfsPass m ramfs_end filename addr = some (
      if trueSize m addr % 2 ^ 32 ≤ (ramfs_end - (addr + 512)).toNat then
        if Wanted m filename addr then .done (some (addr + 512, fileSize m addr))
        else if cutStep m addr ≤ ramfs_end - addr then .next (addr + cutStep m addr) else .done none
      else .done none) := by
  have hguard : addr + 512 ≤ ramfs_end := of_decide_eq_true hroom
  have hover : fileSize m addr > ramfs_end - (addr + 512) ↔
      ¬ trueSize m addr % 2 ^ 32 ≤ (ramfs_end - (addr + 512)).toNat := by
    rw [gt_iff_lt, BitVec.lt_def, fileSize_toNat, Nat.not_le]
  have hstep : 512 + aligned (fileSize m addr) = cutStep m addr := by rw [fileSize_eq_ofNat, cutStep]
  rw [ramfsPass_eq, if_pos hguard, if_neg h0, hstep]
  simp only [hover, gt_iff_lt, ← BitVec.not_le]
  split_ifs <;> rfl

theorem rejected_of_end (h : ramfsPass m ramfs_end filename addr = some (.done none)) :
    Rejected m ramfs_end filename addr := by
  refine ⟨fun r he => ?_, fun addr' he => ?_⟩ <;> rw [h] at he <;> cases he

theorem rejected_iff (hroom : hasRoom ramfs_end addr = true) (h0 : m addr ≠ 0) :
    Rejected m ramfs_end filename addr ↔ ¬ SlipsThrough m ramfs_end filename addr := by
  have hpass := ramfsPass_slips filename hroom h0
  constructor
  · intro hr hs
    rw [if_pos hs.fits] at hpass
    rcases hs.goesOn with hw | ⟨hstep, hnext⟩
    · rw [if_pos hw] at hpass
      exact hr.notReturned _ hpass
    · by_cases hw : Wanted m filename addr
      · rw [if_pos hw] at hpass
        exact hr.notReturned _ hpass
      · rw [if_neg hw, if_pos hstep] at hpass
        rw [hr.last _ hpass] at hnext
        cases hnext
  · intro hs
    by_cases hfit : trueSize m addr % 2 ^ 32 ≤ (ramfs_end - (addr + 512)).toNat
    · have hw : ¬ Wanted m filename addr := fun hw => hs ⟨hfit, Or.inl hw⟩
      rw [if_pos hfit, if_neg hw] at hpass
      by_cases hstep : cutStep m addr ≤ ramfs_end - addr
      · rw [if_pos hstep] at hpass
        refine ⟨fun r he => ?_, fun addr' he => ?_⟩ <;> rw [hpass] at he
        · cases he
        · obtain rfl := Ctl.next.inj (Option.some.inj he)
          exact Bool.eq_false_iff.mpr fun hnext => hs ⟨hfit, Or.inr ⟨hstep, hnext⟩⟩
      · rw [if_neg hstep] at hpass
        exact rejected_of_end hpass
    · rw [if_neg hfit] at hpass
      exact rejected_of_end hpass

/-- Entries are rejected by the number their size field denotes exactly as far as the
remainder of that number does not slip through. -/
theorem oversized_rejected_iff (m : Ram) (ramfs_start ramfs_end : U32) (query : List Byte) :
    (∀ addr, HeaderReached m ramfs_start ramfs_end query addr → Oversized m ramfs_end addr →
      Rejected m ramfs_end (stripDot query) addr) ↔
    ∀ addr, HeaderReached m ramfs_start ramfs_end query addr → Oversized m ramfs_end addr →
      ¬ SlipsThrough m ramfs_end (stripDot query) addr :=
  forall_congr' fun _ => forall_congr' fun hr => forall_congr' fun _ => rejected_iff hr.room hr.named

/-! ### A size of twelve digits -/

/-- "a" with size field "040000000001": one more than `2 ^ 32`. -/
def twelveDigits : Ram := blocks [headerBytes [97] ([48, 52] ++ List.replicate 9 48 ++ [49]) 48]

theorem oversized_not_rejected :
    ¬ ∀ (m : Ram) (ramfs_start ramfs_end : U32) (query : List Byte) (addr : U32),
      HeaderReached m ramfs_start ramfs_end query addr → Oversized m ramfs_end addr →
      Rejected m ramfs_end (stripDot query) addr := by
  intro h
  have hsize : trueSize twelveDigits 0x400000 = 2 ^ 32 + 1 := by decide +kernel
  have hover : Oversized twelveDigits 0x400400 0x400000 := by
    rw [Oversized, hsize]
    decide
  have hr := h twelveDigits 0x400000 0x400400 [97] 0x400000 ⟨by decide, .start, by decide, by decide⟩ hover
  refine (rejected_iff (by decide) (by decide)).mp hr ⟨?_, Or.inl (by decide)⟩
  rw [hsize]
  decide

end FrodOS
