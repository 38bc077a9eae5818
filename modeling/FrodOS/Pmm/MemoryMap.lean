import FrodOS.Pmm.Termination

/-!
# What the memory map locks

An entry says with 64 bits where its range lies; `pmm_parse_mmap` steps from the
low half of its base in whole pages to a limit of 32 bits. For a map that tiles its
buffer these pages are the pages of the ranges except where an entry misses a page
or strays from its range.
-/

namespace FrodOS
open Lib

/-! ### The pages of one entry -/

structure Locking (addr stop : U32) (b : Bitmap) (s : U32 × Bitmap) : Prop where
  ends : PassesEnd s.1 stop
  residue : s.1.toNat % 4096 = addr.toNat % 4096
  above : addr ≤ s.1
  near : s.1 = addr ∨ s.1.toNat < stop.toNat + 4096
  bits : ∀ q < 1024 * 32, s.2.bit q =
    (decide (addr.toNat / 4096 ≤ q ∧ q * 4096 + addr.toNat % 4096 < s.1.toNat) || b.bit q)

theorem locking_start {addr stop : U32} (hend : PassesEnd addr stop) (b : Bitmap) :
    Locking addr stop b (addr, b) where
  ends := hend
  residue := rfl
  above := BitVec.le_refl addr
  near := Or.inl rfl
  bits q hq := by rw [decide_eq_false (by simp only; omega), Bool.false_or]

theorem Locking.pass {addr stop : U32} {b : Bitmap} {s : U32 × Bitmap} (h : Locking addr stop b s)
    (hlt : s.1 < stop) : Locking addr stop b (s.1 + 4096, pmmLockPage s.2 s.1) := by
  have hnext := next_page_toNat h.ends hlt
  have hres := next_page_residue s.1
  have hln : s.1.toNat < stop.toNat := hlt
  have hend := h.ends
  have hr := h.residue
  have habove : addr.toNat ≤ s.1.toNat := h.above
  refine ⟨?_, hres.trans hr, ?_, Or.inr ?_, fun q hq => ?_⟩
  · unfold PassesEnd at hend ⊢
    rw [hres]
    exact hend
  · rw [BitVec.le_def, hnext]
    omega
  · simp only [hnext]
    omega
  · rw [bit_lockPage _ _ _ hq, h.bits q hq, ← Bool.or_assoc, ← Bool.decide_or, hnext]
    refine congrArg (· || b.bit q) (decide_eq_decide.mpr ?_)
    omega

theorem bit_lockReserved {addr stop : U32} {b c : Bitmap}
    (h : Returns (lockReserved stop) (addr, b) c) (q : ℕ) (hq : q < 1024 * 32) : c.bit q =
      (decide (addr.toNat / 4096 ≤ q ∧ q * 4096 + addr.toNat % 4096 < stop.toNat) || b.bit q) := by
  refine h.invariant (Locking addr stop b) (fun c => c.bit q =
    (decide (addr.toNat / 4096 ≤ q ∧ q * 4096 + addr.toNat % 4096 < stop.toNat) || b.bit q))
    (locking_start (passesEnd_of_returns h) b) ?_ ?_
  · intro s s' hs he
    obtain ⟨hlt, rfl⟩ := pagePass_next he
    exact hs.pass hlt
  · intro s hs he
    obtain ⟨hge, rfl⟩ := pagePass_done he
    have hle : stop.toNat ≤ s.1.toNat := BitVec.not_lt.mp hge
    have hr := hs.residue
    rw [hs.bits q hq]
    refine congrArg (· || b.bit q) (decide_eq_decide.mpr ?_)
    rcases hs.near with hn | hn
    · rw [hn] at hle ⊢
      omega
    · omega

/-! ### Entries -/

/-- `struct multiboot_mmap_entry` -/
structure MmapEntry where
  (size base_addr_low base_addr_high length_low length_high type : U32)
deriving DecidableEq

def mmapEntry (m : Ram) (addr : U32) : MmapEntry where
  size := load32 m addr
  base_addr_low := load32 m (off addr 4)
  base_addr_high := load32 m (off addr 8)
  length_low := load32 m (off addr 12)
  length_high := load32 m (off addr 16)
  type := load32 m (off addr 20)

namespace MmapEntry

def Reserved (e : MmapEntry) : Prop := e.type ≠ 1

instance : DecidablePred Reserved := fun _ => inferInstanceAs (Decidable (_ ≠ _))

def base (e : MmapEntry) : ℕ := e.base_addr_high.toNat * 2 ^ 32 + e.base_addr_low.toNat

def length (e : MmapEntry) : ℕ := e.length_high.toNat * 2 ^ 32 + e.length_low.toNat

def Covers (e : MmapEntry) (q : ℕ) : Prop := ∃ a, e.base ≤ a ∧ a < e.base + e.length ∧ a / 4096 = q

def stop (e : MmapEntry) : U32 := e.base_addr_low + e.length_low

/-- The steps from the low half of the base come to page `q` below the limit. -/
def Steps (e : MmapEntry) (q : ℕ) : Prop :=
  e.base_addr_low.toNat / 4096 ≤ q ∧ q * 4096 + e.base_addr_low.toNat % 4096 < e.stop.toNat

/-- The range begins below 4 GiB and meets page `q`, but the limit, taken modulo
`2 ^ 32`, is not past the address at which the steps would come to the page. -/
def Misses (e : MmapEntry) (q : ℕ) : Prop :=
  e.base_addr_high = 0 ∧ 0 < e.length ∧ e.base_addr_low.toNat / 4096 ≤ q ∧
    q * 4096 < e.base_addr_low.toNat + e.length ∧
    e.stop.toNat ≤ q * 4096 + e.base_addr_low.toNat % 4096

/-- The steps come to page `q` though the range begins above 4 GiB. -/
def Strays (e : MmapEntry) (q : ℕ) : Prop := e.base_addr_high ≠ 0 ∧ e.Steps q

theorem covers_iff (e : MmapEntry) (q : ℕ) :
    e.Covers q ↔ 0 < e.length ∧ e.base / 4096 ≤ q ∧ q * 4096 < e.base + e.length := by
  constructor
  · intro h
    obtain ⟨a, hlo, hhi, rfl⟩ := h
    refine ⟨by omega, Nat.div_le_div_right hlo, ?_⟩
    omega
  · intro h
    obtain ⟨hpos, hlo, hhi⟩ := h
    refine ⟨max e.base (q * 4096), by omega, by omega, ?_⟩
    omega

/-- Below 128 MB the pages stepped on and the pages of the range differ by the
pages missed and strayed to. -/
theorem covers_iff_steps (e : MmapEntry) {q : ℕ} (hq : q < 1024 * 32) :
    e.Covers q ↔ (e.Steps q ∧ ¬ e.Strays q) ∨ e.Misses q := by
  have hlow := e.base_addr_low.isLt
  have hlen := e.length_low.isLt
  have hstop : e.stop.toNat = (e.base_addr_low.toNat + e.length_low.toNat) % 2 ^ 32 := BitVec.toNat_add _ _
  rw [covers_iff, Steps, Strays, Misses]
  by_cases hz : e.base_addr_high = 0
  · have hbase : e.base = e.base_addr_low.toNat := by
      rw [base, hz]
      exact Nat.zero_add _
    have hlength : e.length = e.length_high.toNat * 2 ^ 32 + e.length_low.toNat := rfl
    simp only [hz, ne_eq, not_true_eq_false, false_and, not_false_eq_true, and_true, true_and, hbase]
    omega
  · have hpos : 0 < e.base_addr_high.toNat :=
      Nat.pos_of_ne_zero fun h => hz (BitVec.eq_of_toNat_eq h)
    have hbase : e.base = e.base_addr_high.toNat * 2 ^ 32 + e.base_addr_low.toNat := rfl
    simp only [hz, ne_eq, not_false_eq_true, true_and, false_and, or_false, Steps, and_not_self, iff_false]
    omega

end MmapEntry

/-- Entries from `addr` on fill the map up to its end. -/
inductive Tiles (m : Ram) (end_addr : U32) : U32 → List MmapEntry → Prop where
  | nil : Tiles m end_addr end_addr []
  | cons {addr : U32} {es : List MmapEntry} (hsize : 20 ≤ (mmapEntry m addr).size.toNat)
    (hin : addr.toNat + ((mmapEntry m addr).size.toNat + 4) ≤ end_addr.toNat)
    (rest : Tiles m end_addr (off addr ((mmapEntry m addr).size.toNat + 4)) es) :
    Tiles m end_addr addr (mmapEntry m addr :: es)

def MmapEntry.Ends (e : MmapEntry) : Prop := e.Reserved → PassesEnd e.base_addr_low e.stop

section
variable {m : Ram} {fuel : ℕ} {end_addr addr : U32} {es : List MmapEntry} {b c : Bitmap}

theorem mapStep_eq (m : Ram) (addr : U32) :
    addr + load32 m addr + 4 = off addr ((mmapEntry m addr).size.toNat + 4) := by
  rw [off, BitVec.ofNat_add, BitVec.ofNat_toNat, BitVec.setWidth_eq, BitVec.add_assoc]
  rfl

theorem parseEntry_locks {t : U32 × Bitmap} (h : parseEntry m fuel end_addr (addr, b) = some (.next t)) :
    t.1 = off addr ((mmapEntry m addr).size.toNat + 4) ∧ (mmapEntry m addr).Ends ∧
      ∀ q < 1024 * 32, t.2.bit q = true ↔
        b.bit q = true ∨ ((mmapEntry m addr).Reserved ∧ (mmapEntry m addr).Steps q) := by
  obtain ⟨hlt, hnext⟩ := parseEntry_step h
  refine ⟨hnext.trans (mapStep_eq m addr), entryEnds_of_some (s := (addr, b)) h hlt, fun q hq => ?_⟩
  by_cases htype : load32 m (off addr 20) = 1
  · rw [parseEntry_usable (s := (addr, b)) hlt htype] at h
    rw [← Ctl.next.inj (Option.some.inj h)]
    have hres : ¬ (mmapEntry m addr).Reserved := not_not_intro htype
    simp only [hres, false_and, or_false]
  · rw [parseEntry_reserved (s := (addr, b)) hlt htype] at h
    obtain ⟨d, hd, hn⟩ := Option.map_eq_some_iff.mp h
    rw [← Ctl.next.inj hn]
    have hres : (mmapEntry m addr).Reserved := htype
    rw [bit_lockReserved ⟨fuel, hd⟩ q hq, Bool.or_eq_true, decide_eq_true_eq, or_comm]
    simp only [hres, true_and]
    exact Iff.rfl

theorem parse_tiles_spec (ht : Tiles m end_addr addr es)
    (h : Returns (parseEntry m fuel end_addr) (addr, b) c) :
    (∀ e ∈ es, e.Ends) ∧ ∀ q < 1024 * 32, c.bit q = true ↔
      b.bit q = true ∨ ∃ e ∈ es, e.Reserved ∧ e.Steps q := by
  induction ht generalizing b with
  | nil =>
    have hdone : parseEntry m fuel end_addr (end_addr, b) = some (.done b) :=
      parseEntry_past (s := (end_addr, b)) (BitVec.lt_irrefl end_addr)
    obtain rfl := h.unique (.of_done hdone)
    simp
  | @cons addr es hsize hin rest ih =>
    have hlt : addr < end_addr := by
      rw [BitVec.lt_def]
      omega
    obtain ⟨n, hn⟩ := h
    cases n with
    | zero => cases hn
    | succ n =>
      rw [loop] at hn
      cases hp : parseEntry m fuel end_addr (addr, b) with
      | none => rw [hp] at hn; cases hn
      | some p =>
        obtain ⟨d, rfl⟩ := parseEntry_following hlt hp
        obtain ⟨hnext, hends, hbits⟩ := parseEntry_locks hp
        simp only [hp] at hn
        rw [← hnext] at ih
        obtain ⟨hall, hrest⟩ := ih ⟨n, hn⟩
        refine ⟨List.forall_mem_cons.mpr ⟨hends, hall⟩, fun q hq => ?_⟩
        rw [hrest q hq, hbits q hq, List.exists_mem_cons_iff, or_assoc]

theorem parse_tiles_returns (ht : Tiles m end_addr addr es) (hf : 2 ^ 32 < fuel)
    (hends : ∀ e ∈ es, e.Ends) : ∃ c, Returns (parseEntry m fuel end_addr) (addr, b) c := by
  induction ht generalizing b with
  | nil => exact ⟨b, .of_done (parseEntry_past (s := (end_addr, b)) (BitVec.lt_irrefl end_addr))⟩
  | @cons addr es hsize hin rest ih =>
    have hlt : addr < end_addr := by
      rw [BitVec.lt_def]
      omega
    obtain ⟨hfirst, hrest⟩ := List.forall_mem_cons.mp hends
    obtain ⟨p, hp⟩ : ∃ p, parseEntry m fuel end_addr (addr, b) = some p := parseEntry_ends hf fun _ => hfirst
    obtain ⟨d, rfl⟩ := parseEntry_following hlt hp
    obtain ⟨c, hc⟩ := ih (b := d) hrest
    rw [← mapStep_eq] at hc
    exact ⟨c, .of_next hp hc⟩

end

/-- `pmm_parse_mmap` returns, and a page is locked then when it was before or the range
of a reserved entry meets it. -/
def LocksReserved (m : Ram) (mmap_addr mmap_length : U32) (es : List MmapEntry) (b : Bitmap) : Prop :=
  ∃ fuel c, pmmParseMmap fuel m mmap_addr mmap_length b = some c ∧
    ∀ q < 1024 * 32, c.bit q = true ↔ b.bit q = true ∨ ∃ e ∈ es, e.Reserved ∧ e.Covers q

theorem locksReserved_iff_covers {m : Ram} {mmap_addr mmap_length : U32} {es : List MmapEntry}
    (ht : Tiles m (mmap_addr + mmap_length) mmap_addr es) (b : Bitmap) :
    LocksReserved m mmap_addr mmap_length es b ↔ (∀ e ∈ es, e.Ends) ∧
      ∀ q < 1024 * 32, b.bit q = false →
        ((∃ e ∈ es, e.Reserved ∧ e.Steps q) ↔ ∃ e ∈ es, e.Reserved ∧ e.Covers q) := by
  constructor
  · intro h
    obtain ⟨fuel, c, hc, hbits⟩ := h
    obtain ⟨hends, hsteps⟩ := parse_tiles_spec ht ⟨fuel, hc⟩
    refine ⟨hends, fun q hq hfree => ?_⟩
    have hsame := (hsteps q hq).symm.trans (hbits q hq)
    simpa only [hfree, Bool.false_eq_true, false_or] using hsame
  · intro h
    obtain ⟨hends, hsame⟩ := h
    obtain ⟨fuel, hf⟩ : ∃ fuel, 2 ^ 32 < fuel := ⟨_, Nat.lt_succ_self _⟩
    obtain ⟨c, hc⟩ := parse_tiles_returns (b := b) ht hf hends
    obtain ⟨fuel', hp⟩ := pmmParseMmap_of_returns hc
    refine ⟨fuel', c, hp, fun q hq => ?_⟩
    rw [(parse_tiles_spec ht hc).2 q hq]
    cases hbit : b.bit q with
    | true => simp only [true_or]
    | false => simp only [Bool.false_eq_true, false_or, hsame q hq hbit]

/-- `pmm_parse_mmap` locks exactly the pages of the reserved ranges when the loops over
their pages end, every free page that one entry misses is stepped on from another,
and every free page that one strays to is covered by another. -/
theorem pmmParseMmap_locks_iff (m : Ram) (mmap_addr mmap_length : U32) (es : List MmapEntry)
    (ht : Tiles m (mmap_addr + mmap_length) mmap_addr es) (b : Bitmap) :
    LocksReserved m mmap_addr mmap_length es b ↔ (∀ e ∈ es, e.Ends) ∧
      ∀ q < 1024 * 32, b.bit q = false →
        ((∃ e ∈ es, e.Reserved ∧ e.Misses q) → ∃ e ∈ es, e.Reserved ∧ e.Steps q) ∧
        ((∃ e ∈ es, e.Reserved ∧ e.Strays q) → ∃ e ∈ es, e.Reserved ∧ e.Covers q) := by
  rw [locksReserved_iff_covers ht b]
  refine and_congr_right fun _ => forall_congr' fun q => forall_congr' fun hq => forall_congr' fun _ => ?_
  constructor
  · intro hsame
    refine ⟨fun ⟨e, he, hr, hm⟩ => hsame.mpr ⟨e, he, hr, ?_⟩,
      fun ⟨e, he, hr, hs⟩ => hsame.mp ⟨e, he, hr, hs.2⟩⟩
    exact (e.covers_iff_steps hq).mpr (Or.inr hm)
  · intro h
    obtain ⟨hmiss, hstray⟩ := h
    constructor
    · intro h
      obtain ⟨e, he, hr, hs⟩ := h
      by_cases ho : e.Strays q
      · exact hstray ⟨e, he, hr, ho⟩
      · exact ⟨e, he, hr, (e.covers_iff_steps hq).mpr (Or.inl ⟨hs, ho⟩)⟩
    · intro h
      obtain ⟨e, he, hr, hc⟩ := h
      rcases (e.covers_iff_steps hq).mp hc with ⟨hs, _⟩ | hm
      · exact ⟨e, he, hr, hs⟩
      · exact hmiss ⟨e, he, hr, hm⟩

def oneEntryMap (base length : U32) : Ram := fun a =>
  ([20, base, 0, length, 0, 2].flatMap le32).getD (a - 0x1000).toNat 0

theorem oneEntryMap_tiles {base length : U32}
    (he : mmapEntry (oneEntryMap base length) 0x1000 = ⟨20, base, 0, length, 0, 2⟩) :
    Tiles (oneEntryMap base length) (0x1000 + 24) 0x1000 [⟨20, base, 0, length, 0, 2⟩] := by
  rw [← he]
  have hsize : (mmapEntry (oneEntryMap base length) 0x1000).size = 20 := by rw [he]
  refine .cons (by rw [hsize]; decide) (by rw [hsize]; decide) ?_
  rw [hsize]
  exact .nil

theorem oneEntryMap_page : LocksReserved (oneEntryMap 0x9F000 0x1000) 0x1000 24
    [⟨20, 0x9F000, 0, 0x1000, 0, 2⟩] (fun _ => 0) := by
  have hentry : mmapEntry (oneEntryMap 0x9F000 0x1000) 0x1000 = ⟨20, 0x9F000, 0, 0x1000, 0, 2⟩ := by decide
  have ht := oneEntryMap_tiles hentry
  refine (pmmParseMmap_locks_iff _ _ _ _ ht _).mpr ⟨?_, fun q _ _ => ⟨?_, ?_⟩⟩
  · intro e he _
    rw [List.mem_singleton.mp he]
    exact show (0xA0000 : U32).toNat ≤ 0xFFFFF000 + (0x9F000 : U32).toNat % 4096 by decide
  · intro h
    obtain ⟨e, he, _, hm⟩ := h
    rw [List.mem_singleton.mp he] at hm
    obtain ⟨_, _, hlo, hhi, hstop⟩ := hm
    change 0x9F000 / 4096 ≤ q at hlo
    change q * 4096 < 0x9F000 + 0x1000 at hhi
    change 0xA0000 ≤ q * 4096 + 0 at hstop
    omega
  · intro h
    obtain ⟨e, he, _, hs⟩ := h
    rw [List.mem_singleton.mp he] at hs
    exact absurd rfl hs.1

/-- A reserved range of two bytes across the boundary of pages 0 and 1: only page 0 is locked. -/
theorem oneEntryMap_across : ¬ ∀ (m : Ram) (mmap_addr mmap_length : U32) (es : List MmapEntry),
    Tiles m (mmap_addr + mmap_length) mmap_addr es →
      ∀ b : Bitmap, LocksReserved m mmap_addr mmap_length es b := by
  intro h
  have hentry : mmapEntry (oneEntryMap 0xFFF 2) 0x1000 = ⟨20, 0xFFF, 0, 2, 0, 2⟩ := by decide
  have ht := oneEntryMap_tiles hentry
  obtain ⟨_, hsame⟩ := (locksReserved_iff_covers ht fun _ => 0).mp (h _ _ _ _ ht _)
  obtain ⟨e, he, _, hs⟩ := (hsame 1 (by omega) (by decide)).mpr
    ⟨_, List.mem_singleton_self _, by decide, 0x1000, by decide, by decide, by decide⟩
  rw [List.mem_singleton.mp he] at hs
  have hlt := hs.2
  change 1 * 4096 + 0xFFF < 0x1001 at hlt
  omega

end FrodOS
