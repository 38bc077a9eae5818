import FrodOS.Ramfs.Lookup

/-!
# The two lookups agree

`ramfs_read` in kernel.c looks for an overrun before it compares the names and
`ramfs_read` in ramfs.c after it, and each has its own way to round, to compare and to
stop. On headers that neither of them reads in its own way they pass in lock step.
-/

namespace FrodOS
open Lib

/-- What both lookups read alike: a size of 31 bits and a name that ends in the field and
does not begin with "./". -/
structure Plain (m : Ram) (addr : U32) : Prop where
  size : trueSize m addr < 2 ^ 31
  name : ∃ name, IsCStr (view m addr) name ∧ name.length ≤ 99 ∧ ¬ [46, 47] <+: name

variable {m : Ram} {ramfs_end addr : U32} {query name : List Byte} {filename : View}

/-! ### One pass -/

/-- The bound of the comparison is not met by a string that ends before it. -/
theorem ramfsStrncmp_eq_zero_iff {a b : View} {n : ℕ} (ha : IsCStr a name) (hn : name.length < n) :
    Ramfs.ramfsStrncmp a b n = 0 ↔ IsCStr b name := by
  have hstop := stop_le (b := b) n ha
  have hdiff : Ramfs.ramfsStrncmp a b n = (strcmp n a b).1 := if_neg (show stop a b n 0 ≠ n by omega)
  rw [hdiff, strcmp_eq_zero_iff ha hn.le]

theorem matches_iff_wanted (hname : IsCStr (view m addr) name) (hlen : name.length ≤ 99)
    (hdot : ¬ [46, 47] <+: name) (hf : IsCStr filename query) :
    Ramfs.Matches m filename addr ↔ Wanted m query addr := by
  have heq : IsCStr filename name ↔ name = query := ⟨fun h => h.unique hf, fun h => h ▸ hf⟩
  rw [Ramfs.Matches, ramfsStrncmp_eq_zero_iff hname (by omega), heq, wanted_iff hname hf.nonzero,
    stripDot_eq_self hdot]

theorem fileSize_agree (h : trueSize m addr < 2 ^ 31) : Ramfs.fileSize m addr = fileSize m addr := by
  apply BitVec.eq_of_toNat_eq
  rw [Ramfs.fileSize_toNat, fileSize_toNat, if_pos (by omega), Nat.mod_eq_of_lt (by omega)]

theorem ramfsPass_plain (hend : ramfs_end.toNat ≤ 2 ^ 31) (hin : addr.toNat + 512 ≤ ramfs_end.toNat)
    (h0 : m addr ≠ 0) (hsize : (fileSize m addr).toNat < 2 ^ 31)
    (heq : Ramfs.fileSize m addr = fileSize m addr) :
    Ramfs.ramfsPass m ramfs_end filename addr = some (
      if Ramfs.Matches m filename addr then
        if ramfs_end.toNat < addr.toNat + 512 + (fileSize m addr).toNat then .done none
        else .done (some (off addr 512, fileSize m addr))
      else if ramfs_end.toNat < addr.toNat + 512 + padded (fileSize m addr).toNat then .done none
      else .next (off addr (512 + padded (fileSize m addr).toNat))) := by
  have hguard : addr + 512 ≤ ramfs_end := (guard_iff (by omega)).mpr hin
  have hdata := Ramfs.dataEnd_toNat m addr
  rw [heq, Nat.mod_eq_of_lt (by omega)] at hdata
  have hover : addr + 512 + fileSize m addr > ramfs_end ↔
      ramfs_end.toNat < addr.toNat + 512 + (fileSize m addr).toNat := by
    rw [gt_iff_lt, BitVec.lt_def, hdata]
  have hpad := le_padded (fileSize m addr).toNat
  have hnext : addr + 512 + aligned (fileSize m addr) = off addr (512 + padded (fileSize m addr).toNat) := by
    rw [aligned_eq (by omega), off, BitVec.ofNat_add, BitVec.add_assoc]
    rfl
  have hstop : (addr + 512 + aligned (fileSize m addr) ≤ addr ∨
      addr + 512 + aligned (fileSize m addr) > ramfs_end) ↔
      ramfs_end.toNat < addr.toNat + 512 + padded (fileSize m addr).toNat := by
    have htwo : padded (fileSize m addr).toNat ≤ 2 ^ 31 := by
      unfold padded
      omega
    rw [hnext, BitVec.le_def, gt_iff_lt, BitVec.lt_def, off_toNat_mod]
    omega
  rw [Ramfs.ramfsPass_eq, if_pos hguard, if_neg h0, heq]
  simp only [hover, hstop]
  rw [hnext]
  split_ifs <;> rfl

/-- An entry that overruns the module ends both walks, whether its name matches or not. -/
theorem ramfsPass_agree (hend : ramfs_end.toNat ≤ 2 ^ 31) (hle : addr.toNat ≤ ramfs_end.toNat)
    (hf : IsCStr filename query) (hplain : hasRoom ramfs_end addr = true → m addr ≠ 0 → Plain m addr) :
    Ramfs.ramfsPass m ramfs_end filename addr = ramfsPass m ramfs_end query addr := by
  by_cases hroom : addr + 512 ≤ ramfs_end
  · by_cases h0 : m addr = 0
    · rw [ramfsPass_blank h0, Ramfs.ramfsPass_eq, if_pos hroom, if_pos h0]
    · obtain ⟨hsize, name, hname, hlen, hdot⟩ := hplain (decide_eq_true hroom) h0
      have hin := (guard_iff (by omega)).mp hroom
      have hn : (fileSize m addr).toNat < 2 ^ 31 := by
        rw [fileSize_toNat, Nat.mod_eq_of_lt (by omega)]
        exact hsize
      have hpad := le_padded (fileSize m addr).toNat
      rw [ramfsPass_plain hend hin h0 hn (fileSize_agree hsize), ramfsPass_header hin h0 (by omega)]
      simp only [matches_iff_wanted hname hlen hdot hf]
      by_cases hover : ramfs_end.toNat < addr.toNat + 512 + (fileSize m addr).toNat
      · have hpast : ramfs_end.toNat < addr.toNat + 512 + padded (fileSize m addr).toNat := by omega
        simp only [hover, hpast, if_true, ite_self]
      · simp only [hover, if_false]
  · rw [Ramfs.ramfsPass_eq, if_neg hroom, ramfsPass_eq, if_neg hroom]

/-! ### The walks -/

/-- On modules below 2 GiB of which the headers that the walk comes to are plain, both lookups
return, and the same. -/
theorem lookups_agree (m : Ram) (ramfs_start ramfs_end : U32) (h0 : ramfs_start ≠ 0)
    (hend : ramfs_end.toNat ≤ 2 ^ 31) (query : List Byte) (hdot : ¬ [46, 47] <+: query) (filename : View)
    (hf : IsCStr filename query)
    (hplain : ∀ addr, HeaderReached m ramfs_start ramfs_end query addr → Plain m addr) (fuel : ℕ)
    (hfuel : (ramfs_end.toNat - ramfs_start.toNat) / 512 < fuel) :
    ∃ r, ramfsRead fuel m ramfs_start ramfs_end query = some r ∧
      Ramfs.ramfsRead fuel m (Ramfs.ramfsInit ramfs_start ramfs_end) (some filename) = some r := by
  by_cases hempty : ramfs_start ≥ ramfs_end
  · refine ⟨none, ?_, ?_⟩
    · rw [ramfsRead_eq, if_pos (Or.inr hempty)]
    · rw [Ramfs.ramfsInit, if_pos hempty]
      rfl
  · have hlt : ramfs_start < ramfs_end := BitVec.not_le.mp hempty
    have hle : ramfs_start.toNat ≤ ramfs_end.toNat := (BitVec.lt_def.mp hlt).le
    have htop : ramfs_end < 0xFFFFFE00 := by
      rw [BitVec.lt_def]
      exact hend.trans_lt (by decide)
    have hout : ¬ (ramfs_start = 0 ∨ ramfs_start ≥ ramfs_end) := not_or.mpr ⟨h0, hempty⟩
    have hsame : ∀ a, Reached (ramfsPass m ramfs_end query) ramfs_start a →
        Ramfs.ramfsPass m ramfs_end filename a = ramfsPass m ramfs_end query a := by
      intro a ha
      have hhigh := ha.invariant (fun a => a.toNat ≤ ramfs_end.toNat) hle fun _ _ hs hb =>
        (ramfsPass_next htop hs hb).2
      refine ramfsPass_agree hend hhigh hf fun hroom hnamed => hplain a ⟨hout, ?_, hroom, hnamed⟩
      rwa [stripDot_eq_self hdot]
    obtain ⟨r, hr⟩ := loop_ramfsPass m query htop hle hfuel
    refine ⟨r, ?_, ?_⟩
    · rw [ramfsRead_eq, if_neg hout, stripDot_eq_self hdot]
      exact hr
    · rw [Ramfs.ramfsRead_some hlt h0, loop_congr_reached hsame]
      exact hr

theorem lookups_agree_file :
    ∃ r, ramfsRead 6 binArchive 0x400000 0x400A00 binA = some r ∧
      Ramfs.ramfsRead 6 binArchive (Ramfs.ramfsInit 0x400000 0x400A00) (some (cstr binA)) = some r := by
  refine lookups_agree _ _ _ (by decide) (by decide) binA (by decide) _ (isCStr_cstr _ (by decide))
    (fun addr hr => ?_) 6 (by decide)
  have hpass : ramfsPass binArchive 0x400A00 (stripDot binA) 0x400000 = some (.next 0x400200) := rfl
  have hfound : ramfsPass binArchive 0x400A00 (stripDot binA) 0x400200 = some (.done (some (0x400400, 1))) := rfl
  rcases hr.reached.of_next hpass with rfl | hrest
  · refine ⟨by rw [binArchive_sizes.1]; decide, [98, 105, 110, 47], .of_leading 99 (by decide) (by decide), ?_, ?_⟩
    · decide
    · decide
  · obtain rfl := hrest.eq_of_done hfound
    refine ⟨by rw [binArchive_sizes.2.1]; decide, binA, .of_leading 99 (by decide) (by decide), ?_, ?_⟩
    · decide
    · decide

end FrodOS
