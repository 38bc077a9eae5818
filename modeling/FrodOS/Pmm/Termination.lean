import FrodOS.Pmm.Initialisation

/-!
# Whether boot memory setup ends

The loops over pages compare an address that wraps with a limit that does not move:
they end unless the limit lies behind the last address they can come to. The loop
over the memory map goes where the size fields lead it, and it ends unless they
lead back to an entry.
-/

namespace FrodOS
open Lib Relation

/-! ### The loops over pages -/

/-- The addresses `addr`, `addr + 4096`, ... modulo `2 ^ 32` do not all lie below `stop`. -/
def PassesEnd (addr stop : U32) : Prop := stop.toNat ≤ 0xFFFFF000 + addr.toNat % 4096

section
variable {act : Bitmap → U32 → Bitmap} {stop : U32}

theorem next_page_residue (addr : U32) : (addr + 4096).toNat % 4096 = addr.toNat % 4096 := by
  rw [BitVec.toNat_add]
  change (addr.toNat + 4096) % 2 ^ 32 % 4096 = addr.toNat % 4096
  omega

theorem next_page_toNat {addr : U32} (hend : PassesEnd addr stop) (hlt : addr < stop) :
    (addr + 4096).toNat = addr.toNat + 4096 := by
  have hlim : stop.toNat ≤ 0xFFFFF000 + addr.toNat % 4096 := hend
  have hln : addr.toNat < stop.toNat := hlt
  have hlow := addr.isLt
  rw [BitVec.toNat_add]
  exact Nat.mod_eq_of_lt (by
    change addr.toNat + 4096 < 2 ^ 32
    omega)

theorem loop_pagePass {addr : U32} (hend : PassesEnd addr stop) (b : Bitmap) {n : ℕ} (hn : 2 ^ 32 < n) :
    ∃ c, loop (pagePass act stop) n (addr, b) = some c := by
  refine loop_of_measure _ (fun s => PassesEnd s.1 stop) (fun s => 2 ^ 32 - s.1.toNat) ?_ hend ?_
  · intro s hs
    by_cases hlt : s.1 < stop
    · refine ⟨_, pagePass_below hlt, fun s' he => ?_⟩
      obtain rfl := Ctl.next.inj he
      have hnext := next_page_toNat hs hlt
      have hres := next_page_residue s.1
      have hlow := (s.1 + 4096).isLt
      unfold PassesEnd at hs ⊢
      simp only
      omega
    · refine ⟨_, if_neg hlt, fun s' he => ?_⟩
      cases he
  · simp only
    omega

theorem passesEnd_of_returns {addr : U32} {b c : Bitmap} (h : Returns (pagePass act stop) (addr, b) c) :
    PassesEnd addr stop := by
  by_contra hnot
  unfold PassesEnd at hnot
  refine h.invariant (fun s => s.1.toNat % 4096 = addr.toNat % 4096) (fun _ => False) rfl ?_ ?_
  · intro s s' hs he
    obtain ⟨_, rfl⟩ := pagePass_next he
    exact (next_page_residue s.1).trans hs
  · intro s hs he
    obtain ⟨hge, _⟩ := pagePass_done he
    have hle : stop.toNat ≤ s.1.toNat := BitVec.not_lt.mp hge
    have hlow := s.1.isLt
    omega

end

theorem safeStart_aligned (kernel_end : U32) : (safeStart kernel_end).toNat % 4096 = 0 := by
  unfold safeStart
  split_ifs
  · rw [toNat_and_not_low (k := 12) (by decide)]
    exact Nat.mul_mod_left _ _
  · rfl

theorem pmmInit_ends_iff (mem_size kernel_end : U32) :
    (∃ fuel b, pmmInit fuel mem_size kernel_end = some b) ↔ mem_size ≤ 0xFFFFF000 := by
  have hal := safeStart_aligned kernel_end
  have hiff : PassesEnd (safeStart kernel_end) mem_size ↔ mem_size ≤ 0xFFFFF000 := by
    unfold PassesEnd
    rw [hal, BitVec.le_def]
    exact Iff.rfl
  rw [← hiff]
  constructor
  · intro h
    obtain ⟨fuel, b, hb⟩ := h
    exact passesEnd_of_returns ⟨fuel, hb⟩
  · intro hend
    obtain ⟨fuel, hf⟩ : ∃ fuel, 2 ^ 32 < fuel := ⟨_, Nat.lt_succ_self _⟩
    obtain ⟨b, hb⟩ : ∃ b, loop (openRam mem_size) fuel (safeStart kernel_end, fun _ => 0xFFFFFFFF) = some b :=
      loop_pagePass hend _ hf
    exact ⟨fuel, b, hb⟩

/-! ### The loop over the memory map -/

/-- The entry that `pmm_parse_mmap` goes to from `entry`. -/
def MapStep (m : Ram) (end_addr entry following : U32) : Prop :=
  entry < end_addr ∧ following = entry + load32 m entry + 4

/-- The loop over the pages of an entry that is not usable memory ends. -/
def EntryEnds (m : Ram) (entry : U32) : Prop :=
  load32 m (off entry 20) ≠ 1 →
    PassesEnd (load32 m (off entry 4)) (load32 m (off entry 4) + load32 m (off entry 12))

/-- Of the entries that the size fields lead to from `mmap_addr`, none leads back to
itself, and the pages of each come to an end. -/
structure MapEnds (m : Ram) (end_addr mmap_addr : U32) : Prop where
  acyclic : ∀ entry, ReflTransGen (MapStep m end_addr) mmap_addr entry →
    ¬ TransGen (MapStep m end_addr) entry entry
  pages : ∀ entry, ReflTransGen (MapStep m end_addr) mmap_addr entry → entry < end_addr →
    EntryEnds m entry

section
variable {m : Ram} {fuel : ℕ} {end_addr : U32} {s s' : U32 × Bitmap} {b c : Bitmap}

theorem parseEntry_usable (hlt : s.1 < end_addr) (htype : load32 m (off s.1 20) = 1) :
    parseEntry m fuel end_addr s = some (.next (s.1 + load32 m s.1 + 4, s.2)) := by
  simp only [parseEntry, hlt, htype, ne_eq, not_true_eq_false, if_true, if_false]

theorem parseEntry_past (hge : ¬ s.1 < end_addr) :
    parseEntry m fuel end_addr s = some (.done s.2) := by
  simp only [parseEntry, hge, if_false]

theorem parseEntry_following {p : Ctl (U32 × Bitmap) Bitmap} (hlt : s.1 < end_addr)
    (h : parseEntry m fuel end_addr s = some p) : ∃ c, p = .next (s.1 + load32 m s.1 + 4, c) := by
  by_cases htype : load32 m (off s.1 20) = 1
  · rw [parseEntry_usable hlt htype] at h
    exact ⟨s.2, (Option.some.inj h).symm⟩
  · rw [parseEntry_reserved hlt htype] at h
    obtain ⟨c, _, hn⟩ := Option.map_eq_some_iff.mp h
    exact ⟨c, hn.symm⟩

theorem parseEntry_step (h : parseEntry m fuel end_addr s = some (.next s')) :
    MapStep m end_addr s.1 s'.1 := by
  by_cases hlt : s.1 < end_addr
  · obtain ⟨c, hc⟩ := parseEntry_following hlt h
    rw [Ctl.next.inj hc]
    exact ⟨hlt, rfl⟩
  · rw [parseEntry_past hlt] at h
    cases h

theorem parseEntry_ends (hf : 2 ^ 32 < fuel) (hends : s.1 < end_addr → EntryEnds m s.1) :
    ∃ c, parseEntry m fuel end_addr s = some c := by
  by_cases hlt : s.1 < end_addr
  · by_cases htype : load32 m (off s.1 20) = 1
    · exact ⟨_, parseEntry_usable hlt htype⟩
    · obtain ⟨c, hc⟩ : ∃ c, loop (pagePass pmmLockPage _) fuel (_, s.2) = some c :=
        loop_pagePass (hends hlt htype) s.2 hf
      refine ⟨.next (s.1 + load32 m s.1 + 4, c), ?_⟩
      rw [parseEntry_reserved hlt htype, lockReserved, hc]
      rfl
  · exact ⟨_, parseEntry_past hlt⟩

theorem entryEnds_of_some {p : Ctl (U32 × Bitmap) Bitmap} (h : parseEntry m fuel end_addr s = some p)
    (hlt : s.1 < end_addr) : EntryEnds m s.1 := by
  intro htype
  rw [parseEntry_reserved hlt htype] at h
  obtain ⟨c, hc, _⟩ := Option.map_eq_some_iff.mp h
  exact passesEnd_of_returns ⟨fuel, hc⟩

theorem parseEntry_mono {fuel' : ℕ} (hf : fuel ≤ fuel') {p : Ctl (U32 × Bitmap) Bitmap}
    (h : parseEntry m fuel end_addr s = some p) : parseEntry m fuel' end_addr s = some p := by
  by_cases hlt : s.1 < end_addr
  · by_cases htype : load32 m (off s.1 20) = 1
    · rw [parseEntry_usable hlt htype] at h ⊢
      exact h
    · rw [parseEntry_reserved hlt htype] at h ⊢
      obtain ⟨c, hc, hn⟩ := Option.map_eq_some_iff.mp h
      exact Option.map_eq_some_iff.mpr ⟨c, loop_mono hf hc, hn⟩
  · rw [parseEntry_past hlt] at h ⊢
    exact h

theorem pmmParseMmap_of_returns {mmap_addr mmap_length : U32}
    (h : Returns (parseEntry m fuel (mmap_addr + mmap_length)) (mmap_addr, b) c) :
    ∃ fuel', pmmParseMmap fuel' m mmap_addr mmap_length b = some c := by
  obtain ⟨n, hn⟩ := h
  refine ⟨max fuel n, loop_mono_body (fun s p => parseEntry_mono (Nat.le_max_left fuel n)) ?_⟩
  exact loop_mono (Nat.le_max_right fuel n) hn

/-- A parse that returns comes to every entry that the size fields lead to, and
passes it. -/
theorem reached_of_mapStep {entry entry' : U32} (h : Returns (parseEntry m fuel end_addr) (entry, b) c)
    (he : ReflTransGen (MapStep m end_addr) entry entry') :
    ∃ b' p, Reached (parseEntry m fuel end_addr) (entry, b) (entry', b') ∧
      parseEntry m fuel end_addr (entry', b') = some p := by
  have hpass : ∀ t, Reached (parseEntry m fuel end_addr) (entry, b) t →
      ∃ p, parseEntry m fuel end_addr t = some p := by
    intro t ht
    obtain ⟨n, hn⟩ := h.of_reached ht
    cases n with
    | zero => cases hn
    | succ n =>
      cases hp : parseEntry m fuel end_addr t with
      | none => rw [loop, hp] at hn; cases hn
      | some p => exact ⟨p, rfl⟩
  induction he with
  | refl =>
    obtain ⟨p, hp⟩ := hpass _ .start
    exact ⟨b, p, .start, hp⟩
  | tail _ hstep ih =>
    obtain ⟨b', p, hr, hp⟩ := ih
    obtain ⟨c, rfl⟩ := parseEntry_following hstep.1 hp
    have hr' := hr.pass hp
    obtain ⟨p', hp'⟩ := hpass _ hr'
    rw [hstep.2]
    exact ⟨c, p', hr', hp'⟩

theorem mapEnds_of_returns {mmap_addr : U32} (h : Returns (parseEntry m fuel end_addr) (mmap_addr, b) c) :
    MapEnds m end_addr mmap_addr where
  acyclic entry he hcycle := by
    obtain ⟨b', _, hr, _⟩ := reached_of_mapStep h he
    -- on a cycle every entry is below the end, so no pass leaves the loop
    refine (h.of_reached hr).invariant (fun s => TransGen (MapStep m end_addr) s.1 s.1) (fun _ => False)
      hcycle ?_ ?_
    · intro s s' hs hp
      obtain ⟨following, hfirst, hback⟩ := TransGen.head'_iff.mp hs
      have hstep := parseEntry_step hp
      have hsame : s'.1 = following := hstep.2.trans hfirst.2.symm
      rw [hsame]
      exact TransGen.tail' hback hfirst
    · intro s hs hp
      obtain ⟨_, hfirst, _⟩ := TransGen.head'_iff.mp hs
      obtain ⟨_, hn⟩ := parseEntry_following hfirst.1 hp
      cases hn
  pages entry he hlt := by
    obtain ⟨b', p, _, hp⟩ := reached_of_mapStep h he
    exact entryEnds_of_some (s := (entry, b')) hp hlt

theorem returns_of_mapEnds {mmap_addr : U32} (hends : MapEnds m end_addr mmap_addr) (b : Bitmap)
    (hf : 2 ^ 32 < fuel) : ∃ c, Returns (parseEntry m fuel end_addr) (mmap_addr, b) c := by
  have hfin : Finite U32 := Finite.of_injective BitVec.toFin fun x y h => BitVec.toFin_inj.mp h
  refine returns_of_acyclic _ Prod.fst (MapStep m end_addr)
    (fun s => ReflTransGen (MapStep m end_addr) mmap_addr s.1) (fun s hs => hends.acyclic s.1 hs)
    (fun s hs => ?_) ReflTransGen.refl
  obtain ⟨p, hp⟩ := parseEntry_ends hf (hends.pages s.1 hs)
  refine ⟨p, hp, fun s' he => ?_⟩
  have hstep := parseEntry_step (he ▸ hp)
  exact ⟨hs.tail hstep, hstep⟩

end

/-- Boot memory setup ends exactly when the memory size is at most `0xFFFFF000` and the
memory map leads out of itself, its reserved entries to limits that their pages
come to. -/
theorem bootMemory_ends_iff (m : Ram) (mem_size kernel_end mmap_addr mmap_length : U32) (b : Bitmap) :
    ((∃ fuel c, pmmInit fuel mem_size kernel_end = some c) ∧
      ∃ fuel c, pmmParseMmap fuel m mmap_addr mmap_length b = some c) ↔
    mem_size ≤ 0xFFFFF000 ∧ MapEnds m (mmap_addr + mmap_length) mmap_addr := by
  rw [pmmInit_ends_iff]
  refine and_congr_right fun _ => ⟨?_, fun hends => ?_⟩
  · intro h
    obtain ⟨fuel, c, hc⟩ := h
    exact mapEnds_of_returns ⟨fuel, hc⟩
  · obtain ⟨fuel, hf⟩ : ∃ fuel, 2 ^ 32 < fuel := ⟨_, Nat.lt_succ_self _⟩
    obtain ⟨c, hc⟩ := returns_of_mapEnds hends b hf
    obtain ⟨fuel', hp⟩ := pmmParseMmap_of_returns hc
    exact ⟨fuel', c, hp⟩

theorem bootMemory_not_ends_at_top : ¬ ∀ (m : Ram) (mem_size kernel_end mmap_addr mmap_length : U32)
    (b : Bitmap), (∃ fuel c, pmmInit fuel mem_size kernel_end = some c) ∧
      ∃ fuel c, pmmParseMmap fuel m mmap_addr mmap_length b = some c := by
  intro h
  have hend := (pmmInit_ends_iff 0xFFFFF400 0).mp (h (fun _ => 0) 0xFFFFF400 0 0 0 (fun _ => 0)).1
  exact absurd hend (by decide)

end FrodOS
