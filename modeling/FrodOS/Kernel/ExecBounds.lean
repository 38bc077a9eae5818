import FrodOS.Kernel.Exec

/-!
# Where exec writes

Exec checks the magic and nothing else of a header. Its pages start at the entry
point and so does its copy, so it keeps to user memory exactly when the entry
point does and neither range runs past the top of memory.
-/

namespace FrodOS
open Lib

/-- Every page handed to `map_page` and every byte copied is at or above `USER_BASE`. -/
def Outcome.AboveUserBase (o : Outcome) : Prop :=
  (∀ p ∈ o.mapped, userBase ≤ p.1) ∧ ∀ a ∈ o.copied, userBase ≤ a

def ImageFits (k : Kernel) (h : FxeHeader) : Prop :=
  min h.appPages.toNat (available k.bitmap) = 0 ∨
    userBase ≤ h.entry_point ∧
      h.entry_point.toNat + (min h.appPages.toNat (available k.bitmap) - 1) * 4096 < 2 ^ 32

/-- The copy of `n` bytes starts in user memory and does not wrap, or is no copy. -/
def PayloadFits (frame : ExecFrame) (h : FxeHeader) (n : ℕ) : Prop :=
  n = 0 ∨ h.entry_point = off frame.file_buf 32 ∨ userBase ≤ h.entry_point ∧ Fits h.entry_point n

theorem mapped_above_iff (base : U32) (left : ℕ) (k : Kernel) :
    (∀ p ∈ (allocAndMap base left 0 k).mapped, userBase ≤ p.1) ↔
      min left (available k.bitmap) = 0 ∨ userBase ≤ base ∧
        base.toNat + (min left (available k.bitmap) - 1) * 4096 < 2 ^ 32 := by
  obtain ⟨_, hmap, _⟩ := allocAndMap_spec base left 0 k
  have hlist : (∀ p ∈ (allocAndMap base left 0 k).mapped, userBase ≤ p.1) ↔
      ∀ v ∈ (allocAndMap base left 0 k).mapped.map Prod.fst, userBase ≤ v := by
    rw [List.forall_mem_map]
  rw [hlist, hmap, List.forall_mem_map, ← stride_above_iff userBase base _ 4096 (by omega) (by decide)]
  simp only [List.mem_range, Nat.zero_add]

theorem stack_above (k : Kernel) (h : FxeHeader) : ∀ p ∈ (mapStack k h).mapped, userBase ≤ p.1 := by
  have hle := available_le (mapImage k h).kernel.bitmap
  refine (mapped_above_iff _ _ _).mpr (Or.inr ⟨by decide, ?_⟩)
  change 0x7000000 + (min h.stackPages.toNat (available (mapImage k h).kernel.bitmap) - 1) * 4096 < 2 ^ 32
  omega

theorem copied_above_iff (frame : ExecFrame) (m : Ram) (h : FxeHeader) (n : U32) :
    (∀ a ∈ (kernelMemmove m h.entry_point (off frame.file_buf 32) n).2, userBase ≤ a) ↔
      PayloadFits frame h n.toNat := by
  have hzero : n = 0 ↔ n.toNat = 0 := (BitVec.toNat_inj (y := 0)).symm
  rw [kernelMemmove_copied, PayloadFits, ← hzero]
  by_cases hd : h.entry_point = off frame.file_buf 32
  · simp [hd]
  · by_cases hn : n = 0
    · simp [hn]
    · have hpos : n.toNat ≠ 0 := fun hz => hn (hzero.mpr hz)
      simp only [hd, hn, or_self, if_false, false_or]
      constructor
      · intro hall
        have hbase : userBase ≤ h.entry_point :=
          hall _ (mem_span.mpr ⟨0, by omega, off_zero _⟩)
        exact ⟨hbase, (span_above_iff userBase _ _ (by decide) hbase).mp hall⟩
      · intro hc
        obtain ⟨hbase, hfit⟩ := hc
        exact (span_above_iff userBase _ _ (by decide) hbase).mpr hfit

theorem execImage_above_iff (frame : ExecFrame) (k : Kernel) (h : FxeHeader) {size : U32}
    (hload : load32 k.mem frame.file_size = size) (hsize : 32 ≤ size.toNat) :
    (execImage frame k h).AboveUserBase ↔ ImageFits k h ∧
      (h.frames ≤ available k.bitmap → PayloadFits frame h (size.toNat - 32)) := by
  have himage : (∀ p ∈ (mapImage k h).mapped, userBase ≤ p.1) ↔ ImageFits k h := mapped_above_iff _ _ _
  have hboth : (∀ p ∈ (mapImage k h).mapped ++ (mapStack k h).mapped, userBase ≤ p.1) ↔ ImageFits k h := by
    rw [List.forall_mem_append, himage]
    exact and_iff_left (stack_above k h)
  have hpay : (size - 32).toNat = size.toNat - 32 :=
    BitVec.toNat_sub_of_le (show (32 : U32) ≤ size from hsize)
  rcases execImage_cases frame k h with ⟨hshort, he⟩ | ⟨hav, _, hsame, he⟩
  · have hnot : ¬ h.frames ≤ available k.bitmap := by omega
    rcases he with he | he
    · simp only [he, kernelPanic, Outcome.AboveUserBase, himage, hnot, false_imp_iff, and_true,
        List.not_mem_nil, implies_true]
    · simp only [he, kernelPanic, Outcome.AboveUserBase, hboth, hnot, false_imp_iff, and_true,
        List.not_mem_nil, implies_true]
  · have henough : h.frames ≤ available k.bitmap := by omega
    simp only [he, execJump, Outcome.AboveUserBase, hboth, hsame.mem, hload, copied_above_iff, hpay,
      henough, forall_const]

/-- Exec keeps to user memory exactly when the file it is given, if it is one exec
accepts, has an image and a payload that fit. -/
theorem sysExec_above_iff (frame : ExecFrame) (k : Kernel) (regs : SyscallRegs) :
    (sysExec frame k regs).AboveUserBase ↔ ∀ i, Executable k.storage k.mem regs.ebx i →
      let h := fxeHeader (k.storage i).dataView
      ImageFits k h ∧ (h.frames ≤ available k.bitmap →
        PayloadFits frame h ((k.storage i).size.toNat - 32)) := by
  by_cases hex : ∃ i, Executable k.storage k.mem regs.ebx i
  · obtain ⟨i, hi⟩ := hex
    have himage := execImage_above_iff frame { k with mem := execLoaded frame k i }
      (fxeHeader (k.storage i).dataView) (execLoaded_size frame k i) hi.size
    rw [sysExec_valid frame k regs hi, himage]
    constructor
    · intro h j hj
      obtain rfl := firstNamed_unique hi.file hj.file
      exact h
    · intro h
      exact h i hi
  · have hnone : ∀ i, ¬ Executable k.storage k.mem regs.ebx i := fun i hi => hex ⟨i, hi⟩
    have hrefused := sysExec_invalid frame k regs hnone
    simp only [Outcome.AboveUserBase, hrefused.mapped, hrefused.copied, List.not_mem_nil, false_imp_iff,
      implies_true, and_self, true_iff]
    exact fun i hi => absurd hi (hnone i)

/-! ### A header that points at the kernel -/

def lowEntry : List Byte := fxeMagic ++ List.replicate 28 0 ++ [0xCC]

theorem lowEntry_executable : Executable (kernelA lowEntry (by decide)).storage
    (kernelA lowEntry (by decide)).mem execA.ebx 0 where
  user := by decide
  file := kernelA_file lowEntry (by decide)
  size := by decide
  magic := by decide

theorem sysExec_not_above_at_zero_entry :
    ¬ ∀ (frame : ExecFrame) (k : Kernel) (regs : SyscallRegs),
      (sysExec frame k regs).AboveUserBase := by
  intro h
  have hi := lowEntry_executable
  let k := kernelA lowEntry (by decide)
  have himage := execImage_above_iff demoFrame { k with mem := execLoaded demoFrame k 0 }
    (fxeHeader (k.storage 0).dataView) (execLoaded_size demoFrame k 0) hi.size
  have habove := h demoFrame k execA
  rw [sysExec_valid demoFrame k execA hi, himage] at habove
  have hframes : (fxeHeader (k.storage 0).dataView).frames = 0 := by decide
  rcases habove.2 (by omega) with hz | he | ⟨hb, _⟩
  · exact absurd hz (by decide)
  · exact absurd he (by decide)
  · exact absurd hb (by decide)

end FrodOS
