import FrodOS.Kernel.Syscalls
import FrodOS.Lib.Supply

/-!
# What loading a program takes (kernel.c)

Exec and exit take page frames and give none back. However they end, each frame they took
was free, went to `map_page` once, and the files are as they were.
-/

namespace FrodOS
open Lib

/-- The pages that a caller of `pmm_alloc_pages(1)` can get: page 0 looks like a failure. -/
def supply (b : Bitmap) : Finset ℕ := (freePages b).erase 0

def framesOf (mapped : List (U32 × U32)) : List ℕ := mapped.map fun e => e.2.toNat / 4096

/-- From `k` on, `mapped` is what was taken and mapped on the way to `k'`. -/
structure Loads (k : Kernel) (mapped : List (U32 × U32)) (k' : Kernel) : Prop where
  storage : k'.storage = k.storage
  takes : Takes (supply k.bitmap) (framesOf mapped) (supply k'.bitmap)
  aligned : ∀ e ∈ mapped, e.2.toNat % 4096 = 0

theorem loads_of_same {k k' : Kernel} (hs : k'.storage = k.storage) (hb : k'.bitmap = k.bitmap) : Loads k [] k' :=
  ⟨hs, hb ▸ .nil _, nofun⟩

theorem Loads.none (k : Kernel) : Loads k [] k := loads_of_same rfl rfl

theorem Loads.append {k k' k'' : Kernel} {mapped mapped' : List (U32 × U32)} (h : Loads k mapped k')
    (h' : Loads k' mapped' k'') : Loads k (mapped ++ mapped') k'' where
  storage := h'.storage.trans h.storage
  takes := by
    rw [framesOf, List.map_append]
    exact h.takes.append h'.takes
  aligned e he := by
    rcases List.mem_append.mp he with he | he
    · exact h.aligned e he
    · exact h'.aligned e he

theorem pmmAllocPages_supply (b : Bitmap) :
    ((pmmAllocPages b 1).1 = 0 ∧ supply (pmmAllocPages b 1).2 = supply b) ∨
      ((pmmAllocPages b 1).1 ≠ 0 ∧ (pmmAllocPages b 1).1.toNat % 4096 = 0 ∧
        (pmmAllocPages b 1).1.toNat / 4096 ∈ supply b ∧
        supply (pmmAllocPages b 1).2 = (supply b).erase ((pmmAllocPages b 1).1.toNat / 4096)) := by
  rcases pmmAllocPages_one b with ⟨p, hp, -, haddr, hfree⟩ | ⟨-, hnone⟩
  · by_cases hp0 : p = 0
    · subst hp0
      refine Or.inl ⟨BitVec.eq_of_toNat_eq haddr, ?_⟩
      rw [supply, hfree, Finset.erase_idem]
      rfl
    · refine Or.inr ⟨fun h0 => hp0 ?_, ?_, ?_, ?_⟩
      · rw [h0] at haddr
        change 0 = p * 4096 at haddr
        omega
      · rw [haddr, Nat.mul_mod_left]
      · rw [haddr, Nat.mul_div_cancel _ (by omega), supply, Finset.mem_erase]
        exact ⟨hp0, hp⟩
      · rw [haddr, Nat.mul_div_cancel _ (by omega), supply, supply, hfree, Finset.erase_right_comm]
  · rw [hnone]
    exact Or.inl ⟨rfl, rfl⟩

theorem allocAndMap_loads (base : U32) (left i : ℕ) (k : Kernel) :
    Loads k (allocAndMap base left i k).mapped (allocAndMap base left i k).kernel := by
  induction left generalizing i k with
  | zero => exact loads_of_same rfl rfl
  | succ left ih =>
    rw [allocAndMap]
    have hpage := pmmAllocPages_supply k.bitmap
    generalize pmmAllocPages k.bitmap 1 = a at hpage ⊢
    rcases hpage with ⟨h0, hsame⟩ | ⟨hne, halign, hmem, hleft⟩
    · simp only [h0, if_true]
      exact ⟨rfl, by rw [hsame]; exact .nil _, (Loads.none k).aligned⟩
    · simp only [hne, if_false]
      have hone : Loads k [(off base (i * 4096), a.1)] (mapPage { k with bitmap := a.2 } (off base (i * 4096)) a.1
          (pagePresent ||| pageWrite ||| pageUser)) := by
        refine ⟨(sameBut_mapPage _ _ _ _).storage, ?_, fun e he => ?_⟩
        · rw [mapPage_bitmap, hleft]
          exact .one hmem
        · rw [List.mem_singleton.mp he]
          exact halign
      exact hone.append (ih (i + 1) _)

theorem sysExec_loads (frame : ExecFrame) (k : Kernel) (regs : SyscallRegs) :
    Loads k (sysExec frame k regs).mapped (sysExec frame k regs).kernel := by
  by_cases hex : ∃ i, Executable k.storage k.mem regs.ebx i
  · obtain ⟨i, hi⟩ := hex
    rw [sysExec_valid frame k regs hi]
    generalize fxeHeader (k.storage i).dataView = header
    have himage := allocAndMap_loads header.entry_point header.appPages.toNat 0
      { k with mem := execLoaded frame k i }
    have hstack := allocAndMap_loads stackVirtualBase header.stackPages.toNat 0
      (mapImage { k with mem := execLoaded frame k i } header).kernel
    have hboth := himage.append hstack
    unfold execImage
    dsimp only
    split_ifs
    · exact ⟨hboth.storage, hboth.takes, hboth.aligned⟩
    · exact ⟨hboth.storage, hboth.takes, hboth.aligned⟩
    · exact ⟨himage.storage, himage.takes, himage.aligned⟩
  · have hrefused := sysExec_invalid frame k regs fun i hi => hex ⟨i, hi⟩
    rw [hrefused.mapped]
    exact loads_of_same hrefused.storage hrefused.bitmap

theorem launchUserland_loads {fuel : ℕ} {k : Kernel} {o : Outcome} (h : launchUserland fuel k = some o) :
    Loads k o.mapped o.kernel := by
  unfold launchUserland at h
  split at h
  · cases h
  · obtain rfl := Option.some.inj h
    exact loads_of_same rfl rfl
  · rename_i image size _
    have hshell := allocAndMap_loads userBase (shellPages size).toNat 0
      (kprint k "Mapping virtual isolation memory windows for userland image...\n")
    dsimp only at h
    split_ifs at h
    · obtain rfl := Option.some.inj h
      exact ⟨hshell.storage, hshell.takes, hshell.aligned⟩
    · obtain rfl := Option.some.inj h
      exact ⟨hshell.storage, hshell.takes, hshell.aligned⟩

theorem sysExit_loads {fuel : ℕ} {k : Kernel} {o : Outcome} (h : sysExit fuel k = some o) :
    Loads k o.mapped o.kernel := by
  have hshell := launchUserland_loads h
  exact ⟨hshell.storage, hshell.takes, hshell.aligned⟩

end FrodOS
