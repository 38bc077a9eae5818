import FrodOS.Pmm.Bitmap
import Mathlib.Data.Finset.Card

/-!
# Single frames

`pmm_alloc_pages(1)` seen from its callers: it takes the lowest free page, and a
free page 0 looks to them like no page at all.
-/

namespace FrodOS
open Lib

def freePages (b : Bitmap) : Finset ℕ := (Finset.range (1024 * 32)).filter fun q => b.bit q = false

theorem mem_freePages {b : Bitmap} {q : ℕ} : q ∈ freePages b ↔ q < 1024 * 32 ∧ b.bit q = false := by
  simp only [freePages, Finset.mem_filter, Finset.mem_range]

/-- How many times a caller that takes null for a failure can get a frame. -/
def available (b : Bitmap) : ℕ := if b.bit 0 = false then 0 else (freePages b).card

theorem available_le (b : Bitmap) : available b ≤ 1024 * 32 := by
  unfold available
  split_ifs
  · omega
  · exact (Finset.card_filter_le _ _).trans (Finset.card_range _).le

theorem le_available {b : Bitmap} (h0 : b.bit 0 = true) (l : Finset ℕ)
    (hl : ∀ q ∈ l, q < 1024 * 32 ∧ b.bit q = false) : l.card ≤ available b := by
  simp only [available, h0, Bool.true_eq_false, if_false]
  exact Finset.card_le_card fun q hq => mem_freePages.mpr (hl q hq)

theorem runFree_one {b : Bitmap} {p : ℕ} : RunFree b p 1 ↔ p ∈ freePages b := by
  rw [mem_freePages]
  constructor
  · intro h
    exact h 0 (by omega)
  · intro h k hk
    obtain rfl : k = 0 := by omega
    exact h

theorem pmmAllocPages_one (b : Bitmap) :
    (∃ p ∈ freePages b, (∀ q ∈ freePages b, p ≤ q) ∧ (pmmAllocPages b 1).1.toNat = p * 4096 ∧
      freePages (pmmAllocPages b 1).2 = (freePages b).erase p) ∨
    (freePages b = ∅ ∧ pmmAllocPages b 1 = (0, b)) := by
  have hone : (1 : U32).toNat = 1 := rfl
  rcases pmmAllocPages_cases b 1 with ⟨p, _, hfree, _, hmin, haddr, hbits⟩ | ⟨hnone, hsame⟩
  · refine Or.inl ⟨p, runFree_one.mp hfree, fun q hq => ?_, haddr, ?_⟩
    · by_contra hlt
      exact hmin q (by omega) (runFree_one.mpr hq)
    · ext q
      rw [Finset.mem_erase, mem_freePages, mem_freePages]
      by_cases hq : q < 1024 * 32
      · rw [hbits q hq, hone]
        simp only [hq, true_and, Bool.or_eq_false_iff, decide_eq_false_iff_not]
        refine and_congr_left fun _ => ?_
        omega
      · simp only [hq, false_and, and_false]
  · refine Or.inr ⟨?_, hsame⟩
    rcases hnone with h | h
    · exact absurd h (by decide)
    · ext q
      simp only [Finset.notMem_empty, iff_false]
      intro hq
      exact h q (mem_freePages.mp hq).1 (runFree_one.mpr hq)

theorem pmmAllocPages_accepted {b : Bitmap} (h : (pmmAllocPages b 1).1 ≠ 0) :
    (pmmAllocPages b 1).1.toNat / 4096 ∈ freePages b ∧
      (pmmAllocPages b 1).1.toNat % 4096 = 0 ∧
      freePages (pmmAllocPages b 1).2 = (freePages b).erase ((pmmAllocPages b 1).1.toNat / 4096) ∧
      b.bit 0 = true ∧ available (pmmAllocPages b 1).2 + 1 = available b := by
  rcases pmmAllocPages_one b with ⟨p, hp, hmin, haddr, hfree⟩ | ⟨_, hnone⟩
  · have hpos : p ≠ 0 := by
      rintro rfl
      exact h (BitVec.eq_of_toNat_eq (by rw [haddr]; rfl))
    have h0 : 0 ∉ freePages b := fun hm => hpos (Nat.le_zero.mp (hmin 0 hm))
    have hbit : b.bit 0 = true := by
      by_contra hc
      exact h0 (mem_freePages.mpr ⟨by omega, Bool.not_eq_true _ ▸ hc⟩)
    have h0' : 0 ∉ freePages (pmmAllocPages b 1).2 := by
      rw [hfree]
      exact fun hm => h0 (Finset.mem_of_mem_erase hm)
    have hbit' : (pmmAllocPages b 1).2.bit 0 = true := by
      by_contra hc
      exact h0' (mem_freePages.mpr ⟨by omega, Bool.not_eq_true _ ▸ hc⟩)
    have hpage : (pmmAllocPages b 1).1.toNat / 4096 = p := by
      rw [haddr, Nat.mul_div_cancel _ (by omega)]
    have hcard := Finset.card_erase_of_mem hp
    have hne := Finset.card_pos.mpr ⟨p, hp⟩
    rw [hpage]
    refine ⟨hp, by rw [haddr, Nat.mul_mod_left], hfree, hbit, ?_⟩
    simp only [available, hbit, hbit', Bool.true_eq_false, if_false, hfree, hcard]
    omega
  · exact absurd (congrArg Prod.fst hnone) h

theorem pmmAllocPages_refused {b : Bitmap} (h : (pmmAllocPages b 1).1 = 0) : available b = 0 := by
  rcases pmmAllocPages_one b with ⟨p, hp, _, haddr, _⟩ | ⟨hempty, _⟩
  · rw [h] at haddr
    have hp0 : p = 0 := by
      change 0 = p * 4096 at haddr
      omega
    rw [hp0] at hp
    simp only [available, (mem_freePages.mp hp).2, if_true]
  · simp only [available, hempty, Finset.card_empty, ite_self]

end FrodOS
