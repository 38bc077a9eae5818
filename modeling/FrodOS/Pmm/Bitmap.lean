import FrodOS.Frodfs.Storage
import FrodOS.Lib.Bits
import FrodOS.Lib.Loop

/-!
# The physical memory manager (pmm.c)

One bit for each of the `BITMAP_SIZE` = 32768 page frames of `PAGE_SIZE` = 4096
bytes, packed into 1024 words; a set bit is a locked page.
-/

namespace FrodOS
open Lib

abbrev Bitmap := BitArray 1024 32

instance words_nonempty : NeZero 1024 := ⟨by decide⟩

/-! ### Pages -/

def pmmLockPage (b : Bitmap) (addr : U32) : Bitmap :=
  if h : addr.toNat / 4096 < 1024 * 32 then b.set (addr.toNat / 4096) h else b

def pmmUnlockPage (b : Bitmap) (addr : U32) : Bitmap :=
  if h : addr.toNat / 4096 < 1024 * 32 then b.clear (addr.toNat / 4096) h else b

/-- `!(pmm_bitmap[page / 32] & (1 << (page % 32)))` -/
def pageFree (b : Bitmap) (page : ℕ) (h : page < 1024 * 32) : Bool :=
  b (BitArray.word page h) &&& (1#32 <<< (page % 32)) = 0#32

/-- `for (k = 0; k < n; k++) act(addr + k * PAGE_SIZE);` -/
def runPages (act : Bitmap → U32 → Bitmap) (b : Bitmap) (addr : U32) : ℕ → Bitmap
  | 0 => b
  | k + 1 => act (runPages act b addr k) (off addr (k * 4096))

/-! ### Allocation -/

/-- The inner loop of `pmm_alloc_pages`: how many pages from `start` on are free,
counting on from `found`, `left` at most. The loop index and the count move together. -/
def continuousFound (b : Bitmap) (start : ℕ) : (left found : ℕ) → ℕ
  | 0, found => found
  | left + 1, found =>
    if h : start + found < 1024 * 32 then
      if pageFree b (start + found) h then continuousFound b start left (found + 1) else found
    else found

/-- The search over words and bits; a full word is skipped. -/
def findStart (b : Bitmap) (count : ℕ) : Option ℕ :=
  (List.finRange 1024).findSome? fun i =>
    if b i = 0xFFFFFFFF then none
    else
      (List.range 32).findSome? fun j =>
        if continuousFound b (i.val * 32 + j) count 0 = count then some (i.val * 32 + j) else none

def pmmAllocPages (b : Bitmap) (count : U32) : U32 × Bitmap :=
  if count = 0 then (0, b)
  else
    match findStart b count.toNat with
    | some start =>
      let addr := BitVec.ofNat 32 (start * 4096)
      (addr, runPages pmmLockPage b addr count.toNat)
    | none => (0, b)

def pmmFreePages (b : Bitmap) (addr count : U32) : Bitmap :=
  runPages pmmUnlockPage b addr count.toNat

/-! ### Initialisation -/

/-- The first address handed out: past the legacy megabyte and the kernel, page aligned. -/
def safeStart (kernel_end : U32) : U32 :=
  if kernel_end > 0x100000 then (kernel_end + 4096 - 1) &&& ~~~(4096 - 1) else 0x100000

/-- One pass of `for (addr = ..; addr < stop; addr += PAGE_SIZE) act(addr);`. -/
def pagePass (act : Bitmap → U32 → Bitmap) (stop : U32) (s : U32 × Bitmap) :
    Option (Ctl (U32 × Bitmap) Bitmap) :=
  if s.1 < stop then some (.next (s.1 + 4096, act s.2 s.1)) else some (.done s.2)

/-- The loop of `pmm_init`; the page test it makes is made again by `pmm_unlock_page`. -/
def openRam (mem_size : U32) : U32 × Bitmap → Option (Ctl (U32 × Bitmap) Bitmap) :=
  pagePass pmmUnlockPage mem_size

def pmmInit (fuel : ℕ) (mem_size kernel_end : U32) : Option Bitmap :=
  loop (openRam mem_size) fuel (safeStart kernel_end, fun _ => 0xFFFFFFFF)

def lockReserved (stop : U32) : U32 × Bitmap → Option (Ctl (U32 × Bitmap) Bitmap) :=
  pagePass pmmLockPage stop

/-- One pass over `struct multiboot_mmap_entry`: size at 0, base at 4, length at
12, type at 20; the high halves are not read. -/
def parseEntry (m : Ram) (fuel : ℕ) (end_addr : U32) (s : U32 × Bitmap) :
    Option (Ctl (U32 × Bitmap) Bitmap) :=
  let entry := s.1
  if entry < end_addr then
    let following := entry + load32 m entry + 4
    if load32 m (off entry 20) ≠ 1 then
      let base := load32 m (off entry 4)
      let length := load32 m (off entry 12)
      match loop (lockReserved (base + length)) fuel (base, s.2) with
      | some b => some (.next (following, b))
      | none => none
    else some (.next (following, s.2))
  else some (.done s.2)

def pmmParseMmap (fuel : ℕ) (m : Ram) (mmap_addr mmap_length : U32) (b : Bitmap) : Option Bitmap :=
  loop (parseEntry m fuel (mmap_addr + mmap_length)) fuel (mmap_addr, b)

/-! ### Bits of pages -/

theorem pageFree_iff (b : Bitmap) (page : ℕ) (h : page < 1024 * 32) :
    pageFree b page h = true ↔ b.bit page = false := by
  have hlt := Nat.mod_lt page (show 0 < 32 by omega)
  simp only [pageFree, decide_eq_true_eq, BitArray.bit, h, dite_true]
  exact BitArray.and_one_shiftLeft_eq_zero_iff _ _ hlt

theorem bit_lockPage (b : Bitmap) (addr : U32) (q : ℕ) (hq : q < 1024 * 32) :
    (pmmLockPage b addr).bit q = (decide (q = addr.toNat / 4096) || b.bit q) := by
  unfold pmmLockPage
  split_ifs with h
  · exact b.bit_set _ q h
  · rw [decide_eq_false (by omega), Bool.false_or]

theorem bit_unlockPage (b : Bitmap) (addr : U32) (q : ℕ) (hq : q < 1024 * 32) :
    (pmmUnlockPage b addr).bit q = (!decide (q = addr.toNat / 4096) && b.bit q) := by
  unfold pmmUnlockPage
  split_ifs with h
  · exact b.bit_clear _ q h
  · rw [decide_eq_false (by omega), Bool.not_false, Bool.true_and]

theorem page_off (addr : U32) (k : ℕ) (h : addr.toNat / 4096 + k < 1024 * 32) :
    (off addr (k * 4096)).toNat / 4096 = addr.toNat / 4096 + k := by
  rw [off_toNat _ _ (by omega)]
  omega

theorem bit_runPages {act : Bitmap → U32 → Bitmap} {v : Bool}
    (hact : ∀ b addr, ∀ q < 1024 * 32, (act b addr).bit q =
      if q = addr.toNat / 4096 then v else b.bit q)
    (b : Bitmap) (addr : U32) (n q : ℕ) (hn : addr.toNat / 4096 + n ≤ 1024 * 32) (hq : q < 1024 * 32) :
    (runPages act b addr n).bit q =
      if addr.toNat / 4096 ≤ q ∧ q < addr.toNat / 4096 + n then v else b.bit q := by
  induction n with
  | zero =>
    rw [if_neg (by omega)]
    rfl
  | succ n ih =>
    rw [runPages, hact _ _ q hq, ih (by omega), page_off _ _ (by omega)]
    by_cases hlast : q = addr.toNat / 4096 + n
    · rw [if_pos hlast, if_pos (by omega)]
    · rw [if_neg hlast]
      exact if_congr (by omega) rfl rfl

theorem bit_lockPages (b : Bitmap) (addr : U32) (n q : ℕ) (hn : addr.toNat / 4096 + n ≤ 1024 * 32)
    (hq : q < 1024 * 32) : (runPages pmmLockPage b addr n).bit q =
      (decide (addr.toNat / 4096 ≤ q ∧ q < addr.toNat / 4096 + n) || b.bit q) := by
  rw [bit_runPages (v := true) ?_ b addr n q hn hq, Bool.if_true_left]
  intro b addr q hq
  rw [bit_lockPage b addr q hq, Bool.if_true_left]

theorem bit_freePages (b : Bitmap) (addr count : U32) (q : ℕ)
    (hn : addr.toNat / 4096 + count.toNat ≤ 1024 * 32) (hq : q < 1024 * 32) :
    (pmmFreePages b addr count).bit q =
      (!decide (addr.toNat / 4096 ≤ q ∧ q < addr.toNat / 4096 + count.toNat) && b.bit q) := by
  rw [pmmFreePages, bit_runPages (v := false) ?_ b addr count.toNat q hn hq, Bool.if_false_left]
  intro b addr q hq
  rw [bit_unlockPage b addr q hq, Bool.if_false_left]

/-! ### First fit -/

def RunFree (b : Bitmap) (start count : ℕ) : Prop :=
  ∀ k < count, start + k < 1024 * 32 ∧ b.bit (start + k) = false

theorem continuousFound_eq_iff (b : Bitmap) (start left found : ℕ) :
    continuousFound b start left found = found + left ↔ RunFree b (start + found) left := by
  induction left generalizing found with
  | zero => simp [continuousFound, RunFree]
  | succ left ih =>
    have hstep : RunFree b (start + found) (left + 1) ↔
        (start + found < 1024 * 32 ∧ b.bit (start + found) = false) ∧
          RunFree b (start + (found + 1)) left := by
      constructor
      · intro h
        refine ⟨h 0 (by omega), fun k hk => ?_⟩
        have := h (k + 1) (by omega)
        rwa [show start + found + (k + 1) = start + (found + 1) + k by omega] at this
      · rintro ⟨h0, h⟩ k hk
        cases k with
        | zero => exact h0
        | succ k =>
          have := h k (by omega)
          rwa [show start + (found + 1) + k = start + found + (k + 1) by omega] at this
    rw [continuousFound, hstep, ← ih (found + 1)]
    by_cases hlt : start + found < 1024 * 32
    · rw [dif_pos hlt]
      by_cases hf : pageFree b (start + found) hlt = true
      · rw [if_pos hf]
        simp only [hlt, (pageFree_iff _ _ _).mp hf, and_self, true_and]
        omega
      · rw [if_neg hf]
        refine ⟨fun h => by omega, fun ⟨⟨_, hb⟩, _⟩ => ?_⟩
        exact absurd ((pageFree_iff _ _ hlt).mpr hb) hf
    · rw [dif_neg hlt]
      exact ⟨fun h => by omega, fun ⟨⟨h, _⟩, _⟩ => absurd h hlt⟩

theorem not_runFree_of_full {b : Bitmap} {i : Fin 1024} (h : b i = 0xFFFFFFFF) {j count : ℕ}
    (hj : j < 32) (hc : 0 < count) : ¬ RunFree b (i.val * 32 + j) count := by
  intro hr
  obtain ⟨hlt, hb⟩ := hr 0 hc
  have hw : BitArray.word (n := 1024) (w := 32) (i.val * 32 + j + 0) hlt = i := Fin.ext (by
    simp only [BitArray.word]
    omega)
  have hones : ∀ k < 32, (0xFFFFFFFF : U32).getLsbD k = true := by decide
  simp only [BitArray.bit, hlt, dite_true, hw, h] at hb
  rw [hones _ (Nat.mod_lt _ (by omega))] at hb
  cases hb

open Classical in
theorem findSome_blocks (P : ℕ → Prop) (n : ℕ) :
    ((List.range n).findSome? fun i =>
      (List.range 32).findSome? fun j => if P (i * 32 + j) then some (i * 32 + j) else none) =
      (List.range (n * 32)).find? fun p => decide (P p) := by
  induction n with
  | zero => rfl
  | succ n ih =>
    have hrange : List.range ((n + 1) * 32) =
        List.range (n * 32) ++ (List.range 32).map fun j => n * 32 + j := by
      rw [Nat.add_mul, Nat.one_mul, List.range_add]
    have hblock : ((List.range 32).findSome? fun j =>
        if P (n * 32 + j) then some (n * 32 + j) else none) =
        ((List.range 32).map fun j => n * 32 + j).find? fun p => decide (P p) := by
      induction List.range 32 with
      | nil => rfl
      | cons j l ihl =>
        rw [List.findSome?_cons, List.map_cons, List.find?_cons]
        by_cases hp : P (n * 32 + j)
        · simp [hp]
        · simp [hp, ihl]
    have hlast : List.range (n + 1) = List.range n ++ [n] := List.range_succ
    rw [hlast, List.findSome?_append, ih, hrange, List.find?_append, List.findSome?_singleton, hblock]

open Classical in
/-- The search of `pmm_alloc_pages` is first fit: it finds what a page-by-page
scan finds. -/
theorem findStart_eq_find (b : Bitmap) {count : ℕ} (hc : 0 < count) :
    findStart b count =
      (List.range (1024 * 32)).find? fun p => decide (RunFree b p count) := by
  have hwords : List.range 1024 = (List.finRange 1024).map Fin.val :=
    List.map_coe_finRange_eq_range.symm
  rw [← findSome_blocks, hwords, List.findSome?_map, findStart]
  refine congrArg (fun f => List.findSome? f (List.finRange 1024)) (funext fun i => ?_)
  simp only [Function.comp_apply]
  have hiff : ∀ j, continuousFound b (i.val * 32 + j) count 0 = count ↔
      RunFree b (i.val * 32 + j) count := fun j => by
    have := continuousFound_eq_iff b (i.val * 32 + j) count 0
    rwa [Nat.zero_add, Nat.add_zero] at this
  by_cases hfull : b i = 0xFFFFFFFF
  · rw [if_pos hfull]
    refine (List.findSome?_eq_none_iff.mpr fun j hj => ?_).symm
    rw [if_neg (not_runFree_of_full hfull (List.mem_range.mp hj) hc)]
  · rw [if_neg hfull]
    refine congrArg (fun f => List.findSome? f (List.range 32)) (funext fun j => ?_)
    exact if_congr (hiff j) rfl rfl

theorem findStart_some {b : Bitmap} {count start : ℕ} (hc : 0 < count)
    (h : findStart b count = some start) :
    RunFree b start count ∧ ∀ p < start, ¬ RunFree b p count := by
  classical
  rw [findStart_eq_find b hc] at h
  obtain ⟨hr, k, hk, hks, hj⟩ := List.find?_eq_some_iff_getElem.mp h
  obtain rfl : k = start := by simpa using hks
  refine ⟨by simpa using hr, fun p hp => ?_⟩
  simpa using hj p hp

theorem findStart_none {b : Bitmap} {count : ℕ} (hc : 0 < count) (h : findStart b count = none) :
    ∀ p < 1024 * 32, ¬ RunFree b p count := by
  classical
  rw [findStart_eq_find b hc, List.find?_eq_none] at h
  intro p hp hr
  exact h p (List.mem_range.mpr hp) (by simpa using hr)

/-- What `pmm_alloc_pages` returns and leaves behind: the first run that fits, now
locked, or null and nothing changed. -/
theorem pmmAllocPages_cases (b : Bitmap) (count : U32) :
    (∃ start, 0 < count.toNat ∧ RunFree b start count.toNat ∧ start + count.toNat ≤ 1024 * 32 ∧
      (∀ p < start, ¬ RunFree b p count.toNat) ∧
      (pmmAllocPages b count).1.toNat = start * 4096 ∧
      ∀ q < 1024 * 32, (pmmAllocPages b count).2.bit q =
        (decide (start ≤ q ∧ q < start + count.toNat) || b.bit q)) ∨
    ((count = 0 ∨ ∀ p < 1024 * 32, ¬ RunFree b p count.toNat) ∧ pmmAllocPages b count = (0, b)) := by
  unfold pmmAllocPages
  by_cases h0 : count = 0
  · exact Or.inr ⟨Or.inl h0, if_pos h0⟩
  · have hpos : 0 < count.toNat := by
      rcases Nat.eq_zero_or_pos count.toNat with hz | hz
      · exact absurd (BitVec.eq_of_toNat_eq hz) h0
      · exact hz
    rw [if_neg h0]
    cases hs : findStart b count.toNat with
    | none => exact Or.inr ⟨Or.inr (findStart_none hpos hs), rfl⟩
    | some start =>
      obtain ⟨hr, hmin⟩ := findStart_some hpos hs
      have hend := (hr (count.toNat - 1) (by omega)).1
      have haddr : (BitVec.ofNat 32 (start * 4096)).toNat = start * 4096 := by
        rw [BitVec.toNat_ofNat, Nat.mod_eq_of_lt (by omega)]
      have hpage : (BitVec.ofNat 32 (start * 4096)).toNat / 4096 = start := by omega
      refine Or.inl ⟨start, hpos, hr, by omega, hmin, haddr, fun q hq => ?_⟩
      simp only
      rw [bit_lockPages _ _ _ _ (by omega) hq, hpage]

theorem RunFree.ne_zero {b : Bitmap} (h0 : b.bit 0 = true) {start count : ℕ} (hc : 0 < count)
    (h : RunFree b start count) : start ≠ 0 := by
  rintro rfl
  have hfree := (h 0 hc).2
  rw [Nat.add_zero, h0] at hfree
  cases hfree

/-- With page 0 locked `pmm_alloc_pages` takes the first run that is long enough and
nothing else, and it gives up only where there is none. -/
theorem pmmAllocPages_first_fit (b : Bitmap) (h0 : b.bit 0 = true) (count : U32) (hc : count ≠ 0) :
    ((∃ p, RunFree b p count.toNat) → ∃ start, RunFree b start count.toNat ∧
      (∀ p, RunFree b p count.toNat → start ≤ p) ∧ (pmmAllocPages b count).1 ≠ 0 ∧
      (pmmAllocPages b count).1.toNat = 4096 * start ∧
      ∀ q < 1024 * 32, (pmmAllocPages b count).2.bit q =
        (decide (start ≤ q ∧ q < start + count.toNat) || b.bit q)) ∧
    ((¬ ∃ p, RunFree b p count.toNat) → pmmAllocPages b count = (0, b)) := by
  rcases pmmAllocPages_cases b count with ⟨start, hpos, hr, _, hmin, haddr, hbits⟩ | ⟨hnone, hsame⟩
  · refine ⟨fun _ => ⟨start, hr, fun p hp => ?_, fun hz => ?_, ?_, hbits⟩, fun hno => absurd ⟨start, hr⟩ hno⟩
    · by_contra hlt
      exact hmin p (by omega) hp
    · rw [hz] at haddr
      have hne := hr.ne_zero h0 hpos
      change 0 = start * 4096 at haddr
      omega
    · rw [haddr, Nat.mul_comm]
  · refine ⟨fun ⟨p, hp⟩ => ?_, fun _ => hsame⟩
    have hpos : 0 < count.toNat := Nat.pos_of_ne_zero fun hz => hc (BitVec.eq_of_toNat_eq hz)
    rcases hnone with hz | hnone
    · exact absurd hz hc
    · exact absurd hp (hnone p (by have := (hp 0 hpos).1; omega))

instance (b : Bitmap) (start count : ℕ) : Decidable (RunFree b start count) :=
  inferInstanceAs (Decidable (∀ k < count, start + k < 1024 * 32 ∧ b.bit (start + k) = false))

def lowPages : Bitmap := fun i => if i = 0 then 0xFFFFFFF9 else 0xFFFFFFFF

theorem pmmAllocPages_first_fit_low : (pmmAllocPages lowPages 2).1.toNat = 4096 := by
  have hrun : RunFree lowPages 1 (2 : U32).toNat := by decide
  obtain ⟨start, hr, hmin, _, haddr, _⟩ :=
    (pmmAllocPages_first_fit lowPages (by decide) 2 (by decide)).1 ⟨1, hrun⟩
  have hle := hmin 1 hrun
  have hne := hr.ne_zero (by decide) (by decide)
  omega

end FrodOS
