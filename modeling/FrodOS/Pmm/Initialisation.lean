import FrodOS.Pmm.Bitmap

/-!
# Initialisation of the page bitmap

Which pages `pmm_init` opens, and that `pmm_parse_mmap` locks the pages its
reserved entries cover and opens none.
-/

namespace FrodOS
open Lib

/-! ### The loops over pages -/

variable {act : Bitmap → U32 → Bitmap} {stop : U32} {s s' : U32 × Bitmap} {b : Bitmap}

theorem pagePass_below (h : s.1 < stop) :
    pagePass act stop s = some (.next (s.1 + 4096, act s.2 s.1)) := if_pos h

theorem pagePass_next (h : pagePass act stop s = some (.next s')) :
    s.1 < stop ∧ s' = (s.1 + 4096, act s.2 s.1) := by
  unfold pagePass at h
  split_ifs at h with hlt
  · exact ⟨hlt, (Ctl.next.inj (Option.some.inj h)).symm⟩
  · cases h

theorem pagePass_done (h : pagePass act stop s = some (.done b)) : ¬ s.1 < stop ∧ b = s.2 := by
  unfold pagePass at h
  split_ifs at h with hlt
  · cases h
  · exact ⟨hlt, (Ctl.done.inj (Option.some.inj h)).symm⟩

/-! ### The open pages -/

/-- The safe start is the first page boundary that is not below the legacy megabyte and
the end of the kernel. -/
theorem safeStart_toNat (kernel_end : U32) (hk : kernel_end ≤ 0xFFFFF000) :
    (safeStart kernel_end).toNat % 4096 = 0 ∧
      max 0x100000 kernel_end.toNat ≤ (safeStart kernel_end).toNat ∧
      (safeStart kernel_end).toNat < max 0x100000 kernel_end.toNat + 4096 := by
  have hkn : kernel_end.toNat ≤ 0xFFFFF000 := hk
  unfold safeStart
  split_ifs with hgt
  · have hgn : 0x100000 < kernel_end.toNat := hgt
    have hsum : (kernel_end + 4096 - 1 : U32).toNat = kernel_end.toNat + 4095 := by
      rw [show (kernel_end + 4096 - 1 : U32) = kernel_end + 4095 by
        rw [BitVec.sub_eq_add_neg, BitVec.add_assoc]; rfl, BitVec.toNat_add]
      exact Nat.mod_eq_of_lt (by
        change kernel_end.toNat + 4095 < 2 ^ 32
        omega)
    rw [toNat_and_not_low (k := 12) (by decide), hsum]
    omega
  · have hgn : kernel_end.toNat ≤ 0x100000 := BitVec.not_lt.mp hgt
    change 0x100000 % 4096 = 0 ∧ max 0x100000 kernel_end.toNat ≤ 0x100000 ∧
      0x100000 < max 0x100000 kernel_end.toNat + 4096
    omega

structure Opening (mem_size safe : ℕ) (s : U32 × Bitmap) : Prop where
  aligned : s.1.toNat % 4096 = 0
  above : safe ≤ s.1.toNat
  near : s.1.toNat = safe ∨ s.1.toNat < mem_size + 4096
  bits : ∀ q < 1024 * 32, s.2.bit q = !decide (safe ≤ q * 4096 ∧ q * 4096 < s.1.toNat)

theorem bit_locked (q : ℕ) (hq : q < 1024 * 32) :
    BitArray.bit (fun _ : Fin 1024 => (0xFFFFFFFF : U32)) q = true := by
  have hones : ∀ k < 32, (0xFFFFFFFF : U32).getLsbD k = true := by decide
  simp only [BitArray.bit, hq, dite_true, hones _ (Nat.mod_lt q (show 0 < 32 by omega))]

theorem opening_start (mem_size kernel_end : U32) (hk : kernel_end ≤ 0xFFFFF000) :
    Opening mem_size.toNat (safeStart kernel_end).toNat (safeStart kernel_end, fun _ => 0xFFFFFFFF) where
  aligned := (safeStart_toNat kernel_end hk).1
  above := le_rfl
  near := Or.inl rfl
  bits q hq := by rw [bit_locked q hq, decide_eq_false (by simp only; omega), Bool.not_false]

theorem opening_pass {mem_size : U32} (hm : mem_size ≤ 0xFFFFF000) {safe : ℕ} {s : U32 × Bitmap}
    (h : Opening mem_size.toNat safe s) (hlt : s.1 < mem_size) :
    (s.1 + 4096).toNat = s.1.toNat + 4096 ∧
      Opening mem_size.toNat safe (s.1 + 4096, pmmUnlockPage s.2 s.1) := by
  have hmn : mem_size.toNat ≤ 0xFFFFF000 := hm
  have hln : s.1.toNat < mem_size.toNat := hlt
  have hal := h.aligned
  have hnext : (s.1 + 4096).toNat = s.1.toNat + 4096 := by
    rw [BitVec.toNat_add]
    exact Nat.mod_eq_of_lt (by
      change s.1.toNat + 4096 < 2 ^ 32
      omega)
  refine ⟨hnext, ?_, ?_, Or.inr ?_, fun q hq => ?_⟩
  · simp only [hnext]
    omega
  · have := h.above
    simp only [hnext]
    omega
  · simp only [hnext]
    omega
  · have habove := h.above
    rw [bit_unlockPage _ _ _ hq, h.bits q hq, ← Bool.not_or, ← Bool.decide_or, hnext]
    refine congrArg _ (decide_eq_decide.mpr ?_)
    omega

/-- `pmm_init` ends and opens exactly the pages that start between the safe start
and the end of memory. -/
theorem pmmInit_spec (mem_size kernel_end : U32) (hm : mem_size ≤ 0xFFFFF000)
    (hk : kernel_end ≤ 0xFFFFF000) :
    (∃ fuel b, pmmInit fuel mem_size kernel_end = some b) ∧
      ∀ fuel b, pmmInit fuel mem_size kernel_end = some b → ∀ q < 1024 * 32, b.bit q =
        !decide ((safeStart kernel_end).toNat ≤ q * 4096 ∧ q * 4096 < mem_size.toNat) := by
  have hstart := opening_start mem_size kernel_end hk
  constructor
  · obtain ⟨b, fuel, hb⟩ := returns_of_measure (openRam mem_size)
      (Opening mem_size.toNat (safeStart kernel_end).toNat) (fun s => mem_size.toNat + 4096 - s.1.toNat)
      (fun s hs => by
        by_cases hlt : s.1 < mem_size
        · obtain ⟨hnext, hs'⟩ := opening_pass hm hs hlt
          refine ⟨_, if_pos hlt, fun s' he => ?_⟩
          obtain rfl := Ctl.next.inj he
          have hln : s.1.toNat < mem_size.toNat := hlt
          exact ⟨hs', by simp only [hnext]; omega⟩
        · refine ⟨_, if_neg hlt, fun s' he => ?_⟩
          cases he) hstart
    exact ⟨fuel, b, hb⟩
  · intro fuel b hb
    have hret : Returns (openRam mem_size) (safeStart kernel_end, fun _ => 0xFFFFFFFF) b := ⟨fuel, hb⟩
    refine hret.invariant (Opening mem_size.toNat (safeStart kernel_end).toNat) (fun b => ∀ q < 1024 * 32,
      b.bit q = !decide ((safeStart kernel_end).toNat ≤ q * 4096 ∧ q * 4096 < mem_size.toNat))
      hstart ?_ ?_
    · intro s s' hs he
      obtain ⟨hlt, rfl⟩ := pagePass_next he
      exact (opening_pass hm hs hlt).2
    · intro s hs he q hq
      obtain ⟨hlt, rfl⟩ := pagePass_done he
      have hge : mem_size.toNat ≤ s.1.toNat := BitVec.not_lt.mp hlt
      have hal := hs.aligned
      rw [hs.bits q hq]
      refine congrArg _ (decide_eq_decide.mpr ?_)
      rcases hs.near with hn | hn <;> omega

/-- After `pmm_init` the free pages are those that lie wholly in memory and above the
kernel. -/
def OpensWholePages (mem_size kernel_end : U32) : Prop :=
  ∃ fuel b, pmmInit fuel mem_size kernel_end = some b ∧ ∀ p < 1024 * 32,
    (b.bit p = false ↔ max 0x100000 kernel_end.toNat ≤ p * 4096 ∧ (p + 1) * 4096 ≤ mem_size.toNat)

/-- `pmm_init` tests where a page starts and not where it ends, so a page that memory
ends in is opened with the whole ones, unless it is out of range or the kernel's. -/
theorem pmmInit_opens_whole_pages_iff (mem_size kernel_end : U32) (hm : mem_size ≤ 0xFFFFF000)
    (hk : kernel_end ≤ 0xFFFFF000) :
    OpensWholePages mem_size kernel_end ↔ mem_size.toNat % 4096 = 0 ∨
      1024 * 32 ≤ mem_size.toNat / 4096 ∨
      mem_size.toNat / 4096 * 4096 < max 0x100000 kernel_end.toNat := by
  obtain ⟨⟨fuel, b, hb⟩, hspec⟩ := pmmInit_spec mem_size kernel_end hm hk
  obtain ⟨hal, hle, hlt⟩ := safeStart_toNat kernel_end hk
  have hfree : ∀ fuel b, pmmInit fuel mem_size kernel_end = some b → ∀ p < 1024 * 32,
      (b.bit p = false ↔
        max 0x100000 kernel_end.toNat ≤ p * 4096 ∧ p * 4096 < mem_size.toNat) := by
    intro fuel b hb p hp
    rw [hspec fuel b hb p hp, Bool.not_eq_false', decide_eq_true_eq]
    omega
  constructor
  · intro h
    obtain ⟨fuel', c, hc, hopen⟩ := h
    by_contra hpart
    -- the page in which memory ends
    have hlast := (hopen (mem_size.toNat / 4096) (by omega)).mp
      ((hfree fuel' c hc _ (by omega)).mpr (by omega))
    omega
  · intro hwhole
    refine ⟨fuel, b, hb, fun p hp => ?_⟩
    rw [hfree fuel b hb p hp]
    omega

theorem pmmInit_opens_whole_pages_two : OpensWholePages 0x102000 0x100800 :=
  (pmmInit_opens_whole_pages_iff 0x102000 0x100800 (by decide) (by decide)).mpr (Or.inl rfl)

theorem pmmInit_opens_half_page : ¬ ∀ mem_size kernel_end : U32, mem_size ≤ 0xFFFFF000 →
    kernel_end ≤ 0xFFFFF000 → OpensWholePages mem_size kernel_end := by
  intro h
  obtain ⟨fuel, b, hb, hopen⟩ := h 0x101800 0 (by decide) (by decide)
  have hbit := (pmmInit_spec 0x101800 0 (by decide) (by decide)).2 fuel b hb 257 (by omega)
  have hfree : b.bit 257 = false := hbit.trans (by decide)
  have hend := ((hopen 257 (by omega)).mp hfree).2
  change 258 * 4096 ≤ 0x101800 at hend
  omega

/-! ### The memory map -/

def Within (b c : Bitmap) : Prop := ∀ q < 1024 * 32, b.bit q = true → c.bit q = true

theorem Within.refl (b : Bitmap) : Within b b := fun _ _ h => h

theorem Within.trans {b c d : Bitmap} (h : Within b c) (h' : Within c d) : Within b d :=
  fun q hq hb => h' q hq (h q hq hb)

theorem within_lockPage (b : Bitmap) (addr : U32) : Within b (pmmLockPage b addr) := by
  intro q hq hb
  rw [bit_lockPage b addr q hq, hb, Bool.or_true]

theorem lockReserved_within (h : Returns (lockReserved stop) s b) : Within s.2 b := by
  refine h.invariant (fun t => Within s.2 t.2) (fun b => Within s.2 b) (Within.refl s.2) ?_ ?_
  · intro t t' ht he
    obtain ⟨_, rfl⟩ := pagePass_next he
    exact ht.trans (within_lockPage _ _)
  · intro t ht he
    obtain ⟨_, rfl⟩ := pagePass_done he
    exact ht

theorem lockReserved_locks {t : U32 × Bitmap} (h : Returns (lockReserved stop) s b)
    (ht : Reached (lockReserved stop) s t) (hlt : t.1 < stop)
    (hq : t.1.toNat / 4096 < 1024 * 32) : b.bit (t.1.toNat / 4096) = true := by
  have hrest := h.of_reached (ht.pass (pagePass_below hlt))
  refine lockReserved_within hrest _ hq ?_
  simp only [bit_lockPage _ _ _ hq, decide_true, Bool.true_or]

theorem parseEntry_reserved {m : Ram} {fuel : ℕ} {end_addr : U32} (hlt : s.1 < end_addr)
    (htype : load32 m (off s.1 20) ≠ 1) :
    parseEntry m fuel end_addr s =
      (loop (lockReserved (load32 m (off s.1 4) + load32 m (off s.1 12))) fuel
        (load32 m (off s.1 4), s.2)).map fun b => .next (s.1 + load32 m s.1 + 4, b) := by
  simp only [parseEntry, hlt, htype, ne_eq, not_false_eq_true, if_true]
  cases loop (lockReserved (load32 m (off s.1 4) + load32 m (off s.1 12))) fuel
    (load32 m (off s.1 4), s.2) <;> rfl

theorem parseEntry_next {m : Ram} {fuel : ℕ} {end_addr : U32}
    (h : parseEntry m fuel end_addr s = some (.next s')) : Within s.2 s'.2 := by
  by_cases hlt : s.1 < end_addr
  · by_cases htype : load32 m (off s.1 20) = 1
    · simp only [parseEntry, hlt, htype, ne_eq, not_true_eq_false, if_true, if_false] at h
      obtain rfl := Ctl.next.inj (Option.some.inj h)
      exact .refl _
    · rw [parseEntry_reserved hlt htype] at h
      obtain ⟨c, hc, hn⟩ := Option.map_eq_some_iff.mp h
      obtain rfl := Ctl.next.inj hn
      exact lockReserved_within (s := (load32 m (off s.1 4), s.2)) ⟨fuel, hc⟩
  · simp only [parseEntry, hlt, if_false] at h
    cases h

theorem parseEntry_done {m : Ram} {fuel : ℕ} {end_addr : U32}
    (h : parseEntry m fuel end_addr s = some (.done b)) : b = s.2 := by
  by_cases hlt : s.1 < end_addr
  · by_cases htype : load32 m (off s.1 20) = 1
    · simp only [parseEntry, hlt, htype, ne_eq, not_true_eq_false, if_true, if_false] at h
      cases h
    · rw [parseEntry_reserved hlt htype] at h
      obtain ⟨c, _, hn⟩ := Option.map_eq_some_iff.mp h
      cases hn
  · simp only [parseEntry, hlt, if_false] at h
    exact (Ctl.done.inj (Option.some.inj h)).symm

theorem parseEntry_within {m : Ram} {fuel : ℕ} {end_addr : U32}
    (h : Returns (parseEntry m fuel end_addr) s b) : Within s.2 b := by
  refine h.invariant (fun t => Within s.2 t.2) (fun b => Within s.2 b) (Within.refl s.2) ?_ ?_
  · intro t t' ht he
    exact ht.trans (parseEntry_next he)
  · intro t ht he
    rw [parseEntry_done he]
    exact ht

/-- `pmm_parse_mmap` comes to an address in page `q` of an entry that is not usable memory. -/
def MapLocks (m : Ram) (fuel : ℕ) (mmap_addr mmap_length : U32) (b : Bitmap) (q : ℕ) : Prop :=
  ∃ s, Reached (parseEntry m fuel (mmap_addr + mmap_length)) (mmap_addr, b) s ∧
    s.1 < mmap_addr + mmap_length ∧ load32 m (off s.1 20) ≠ 1 ∧
    let base := load32 m (off s.1 4)
    let stop := base + load32 m (off s.1 12)
    ∃ t, Reached (lockReserved stop) (base, s.2) t ∧ t.1 < stop ∧ t.1.toNat / 4096 = q

theorem pmmParseMmap_spec {m : Ram} {fuel : ℕ} {mmap_addr mmap_length : U32} {b c : Bitmap}
    (h : pmmParseMmap fuel m mmap_addr mmap_length b = some c) :
    Within b c ∧ ∀ q < 1024 * 32, MapLocks m fuel mmap_addr mmap_length b q → c.bit q = true := by
  have hret : Returns (parseEntry m fuel (mmap_addr + mmap_length)) (mmap_addr, b) c := ⟨fuel, h⟩
  refine ⟨parseEntry_within hret, ?_⟩
  rintro q hq ⟨s, hs, hlt, htype, t, ht, htlt, rfl⟩
  have hrest := hret.of_reached hs
  cases hl : loop (lockReserved (load32 m (off s.1 4) + load32 m (off s.1 12))) fuel
      (load32 m (off s.1 4), s.2) with
  | none =>
    -- a loop that never ends would keep the parse from ending
    obtain ⟨n, hn⟩ := hrest
    cases n with
    | zero => cases hn
    | succ n =>
      rw [loop, parseEntry_reserved hlt htype, hl] at hn
      cases hn
  | some d =>
    have hnext : parseEntry m fuel (mmap_addr + mmap_length) s =
        some (.next (s.1 + load32 m s.1 + 4, d)) := by
      rw [parseEntry_reserved hlt htype, hl]
      rfl
    have hd := lockReserved_locks ⟨fuel, hl⟩ ht htlt hq
    exact parseEntry_within (hret.of_reached (hs.pass hnext)) _ hq hd

/-- How initialisation ends, and the pages that the memory map locked in it. -/
inductive Initialised (mem_size kernel_end : U32) : Set ℕ → Bitmap → Prop where
  | bare {fuel : ℕ} {b : Bitmap} (h : pmmInit fuel mem_size kernel_end = some b) :
    Initialised mem_size kernel_end ∅ b
  | mapped {fuel fuel' : ℕ} {b c : Bitmap} (m : Ram) (mmap_addr mmap_length : U32)
    (h : pmmInit fuel mem_size kernel_end = some b)
    (hmap : pmmParseMmap fuel' m mmap_addr mmap_length b = some c) :
    Initialised mem_size kernel_end {q | MapLocks m fuel' mmap_addr mmap_length b q} c

theorem Initialised.locked {mem_size kernel_end : U32} (hm : mem_size ≤ 0xFFFFF000)
    (hk : kernel_end ≤ 0xFFFFF000) {named : Set ℕ} {b : Bitmap}
    (h : Initialised mem_size kernel_end named b) {q : ℕ} (hq : q < 1024 * 32)
    (hl : q * 4096 < (safeStart kernel_end).toNat ∨ q ∈ named) : b.bit q = true := by
  have hlow : ∀ fuel c, pmmInit fuel mem_size kernel_end = some c →
      q * 4096 < (safeStart kernel_end).toNat → c.bit q = true := by
    intro fuel c hc hlt
    rw [(pmmInit_spec mem_size kernel_end hm hk).2 fuel c hc q hq, decide_eq_false (by omega),
      Bool.not_false]
  cases h with
  | bare h =>
    rcases hl with hlt | hn
    · exact hlow _ _ h hlt
    · cases hn
  | mapped m mmap_addr mmap_length h hmap =>
    obtain ⟨hw, hlock⟩ := pmmParseMmap_spec hmap
    rcases hl with hlt | hn
    · exact hw q hq (hlow _ _ h hlt)
    · exact hlock q hq hn

end FrodOS
