import FrodOS.Kernel.Archive
import Mathlib.Data.List.TakeWhile

/-!
# The import of a laid-out archive

One pass of the loop over the header of an entry does to the table what `importTo`
does to the map, and so the loop comes to every entry before the first with an
empty name, with the map of the entries before it.
-/

namespace FrodOS
open Lib

/-! ### One pass over an entry -/

namespace HeaderOf

variable {m : Ram} {ramfs_end addr : U32} {e : ArchiveEntry}

theorem scan (hh : HeaderOf m addr e) : ∃ p, realFilename (view m addr) = some p := by
  have hnul := hh.size.nul
  rw [sizeField, view, off_off] at hnul
  exact (realFilename_isSome_iff _).mpr ⟨124 + 11, by omega, hnul⟩

theorem base (hh : HeaderOf m addr e) {p : ℕ} (hp : realFilename (view m addr) = some p) :
    IsCStr (view m (off addr p)) (baseName e.name) := isCStr_realFilename hh.name hp

theorem fileSize_eq (hh : HeaderOf m addr e)
    (hin : addr.toNat + 512 + padded e.data.length ≤ ramfs_end.toNat) :
    fileSize m addr = BitVec.ofNat 32 e.data.length ∧ e.data.length ≤ padded e.data.length ∧
      (fileSize m addr).toNat = e.data.length := by
  have hlt := ramfs_end.isLt
  have hpad : e.data.length ≤ padded e.data.length := by
    unfold padded
    omega
  have heq := octalToInt_spec hh.size (by omega)
  refine ⟨heq, hpad, ?_⟩
  rw [fileSize, heq, BitVec.toNat_ofNat, Nat.mod_eq_of_lt (by omega)]

theorem eligible_iff (hh : HeaderOf m addr e)
    (hin : addr.toNat + 512 + padded e.data.length ≤ ramfs_end.toNat) {p : ℕ}
    (hp : realFilename (view m addr) = some p) :
    (ramfsStrcmp (view m (off addr p)) shellBin ≠ 0 ∧ m (off addr p) ≠ 0 ∧ fileSize m addr > 0) ↔
      e.Eligible := by
  have hbase := hh.base hp
  have hshell : ramfsStrcmp (view m (off addr p)) shellBin = 0 ↔ baseName e.name = shellBin := by
    rw [ramfsStrcmp, strcmp_eq_zero_comm, strcmp_eq_zero_iff (isCStr_cstr shellBin (by decide)) le_rfl]
    exact ⟨fun h => hbase.unique h, fun h => h ▸ hbase⟩
  have hempty : m (off addr p) = 0 ↔ baseName e.name = [] := by
    rw [← hbase.head_eq_zero_iff, view, off_zero]
  have hsize : fileSize m addr > 0 ↔ e.data ≠ [] := by
    obtain ⟨_, _, hn⟩ := hh.fileSize_eq hin
    rw [gt_iff_lt, BitVec.lt_def, hn]
    exact List.length_pos_iff
  rw [ne_eq, hshell, ne_eq, hempty, hsize, ArchiveEntry.Eligible]
  tauto

theorem data_eq (hh : HeaderOf m addr e)
    (hin : addr.toNat + 512 + padded e.data.length ≤ ramfs_end.toNat) :
    ptr m (addr + 512) = some (view m (off addr 512)) ∧
      (List.range (fileSize m addr).toNat).map (view m (off addr 512)) = e.data := by
  obtain ⟨_, _, hn⟩ := hh.fileSize_eq hin
  have hlt := ramfs_end.isLt
  have haddr : addr + 512 = off addr 512 := rfl
  have hne : off addr 512 ≠ 0 := fun h => by
    have htn := off_toNat addr 512 (by omega)
    rw [h] at htn
    change 0 = _ at htn
    omega
  refine ⟨by rw [haddr, ptr_of_ne m hne], ?_⟩
  rw [hn]
  apply List.ext_getElem (by simp)
  intro j _ hj
  simp only [List.getElem_map, List.getElem_range, view, off_off]
  exact hh.data j hj

theorem short_eq (hh : HeaderOf m addr e) {p : ℕ} (hp : realFilename (view m addr) = some p) :
    shortName (view m (off addr p)) 31 0 = e.short ∧ ∀ b ∈ e.short, b ≠ 0 := by
  have hbase := hh.base hp
  refine ⟨shortName_eq hbase 31 0 (Nat.zero_le _), fun b hb => hbase.nonzero b ?_⟩
  exact (List.takeWhile_prefix _).subset (List.mem_of_mem_take hb)

/-- On the table the code does what `importTo` does on the map. -/
theorem importEntry (hh : HeaderOf m addr e)
    (hin : addr.toNat + 512 + padded e.data.length ≤ ramfs_end.toNat) {p : ℕ}
    (hp : realFilename (view m addr) = some p) {s : Storage} {M : FileTable} (hR : Represents s M)
    (hM : [] ∉ M.keys) :
    Represents (importEntry m ramfs_end addr (off addr p) s) (e.importTo M) ∧
      (FrodOS.importEntry m ramfs_end addr (off addr p) s = s ↔ e.importTo M = M) := by
  obtain ⟨heq, hpad, hn⟩ := hh.fileSize_eq hin
  obtain ⟨hptr, hdata⟩ := hh.data_eq hin
  obtain ⟨hshort, hnz⟩ := hh.short_eq hp
  have hlt := ramfs_end.isLt
  have hroom : addr + 512 + fileSize m addr ≤ ramfs_end := by
    have hsum : (addr + 512 + fileSize m addr).toNat = addr.toNat + 512 + e.data.length := by
      rw [BitVec.toNat_add, hn, show addr + 512 = off addr 512 from rfl, off_toNat _ _ (by omega)]
      exact Nat.mod_eq_of_lt (by omega)
    rw [BitVec.le_def, hsum]
    omega
  have hcall : FrodOS.importEntry m ramfs_end addr (off addr p) s = if e.Eligible then
      createWrite s (cstr e.short) (some (view m (off addr 512))) (fileSize m addr) else s := by
    simp only [FrodOS.importEntry, hh.eligible_iff hin hp, hroom, if_true, importFile, hshort, hptr]
    rfl
  have hc : IsCStr (cstr e.short) e.short := isCStr_cstr e.short hnz
  rw [hcall, ArchiveEntry.importTo]
  by_cases hel : e.Eligible
  · by_cases hs : e.short = []
    · rw [hs] at hc ⊢
      simp only [hel, if_true, ne_eq, not_true_eq_false, and_false, if_false,
        hR.createWrite_nil hM hc]
      exact ⟨hR, trivial⟩
    · have hlen : e.short.length ≤ 31 := List.length_take_le 31 _
      have hput := hR.put hc hs hlen (view m (off addr 512)) (fileSize m addr)
      have hiff := hR.createWrite_eq_iff hc hs hlen (view m (off addr 512)) (fileSize m addr)
      rw [hdata] at hput hiff
      simp only [hel, if_true, ne_eq, hs, not_false_eq_true, and_self]
      exact ⟨hput, hiff⟩
  · simp only [hel, if_false, false_and]
    exact ⟨hR, trivial⟩

end HeaderOf

theorem importPass_header {m : Ram} {ramfs_end addr : U32} {e : ArchiveEntry} (hh : HeaderOf m addr e)
    (hin : addr.toNat + 512 + padded e.data.length ≤ ramfs_end.toNat) (hne : e.name ≠ [])
    {s : Storage} {M : FileTable} (hR : Represents s M) (hM : [] ∉ M.keys) :
    ∃ s', importPass m ramfs_end (addr, s) =
        some (.next (off addr (512 + padded e.data.length), s')) ∧
      Represents s' (e.importTo M) ∧ (s' = s ↔ e.importTo M = M) := by
  have hlt := ramfs_end.isLt
  obtain ⟨p, hp⟩ := hh.scan
  obtain ⟨heq, hpad, _⟩ := hh.fileSize_eq hin
  have hguard : addr + 512 ≤ ramfs_end := (guard_iff (by omega)).mpr (by omega)
  have h0 : m addr ≠ 0 := by
    have := (hh.name.head_eq_zero_iff).not.mpr hne
    rwa [view, off_zero] at this
  have hnext : addr + (512 + aligned (fileSize m addr)) = off addr (512 + padded e.data.length) := by
    rw [heq, aligned_ofNat (by omega), off, BitVec.ofNat_add]
    rfl
  obtain ⟨hR', hiff⟩ := hh.importEntry hin hp hR hM
  have hpass := importPass_entry (s := (addr, s)) hguard h0 hp
  simp only [hnext] at hpass
  exact ⟨_, hpass, hR', hiff⟩

/-! ### The loop over a layout -/

/-- The loop head in front of the entries `post`, with the entries `pre` imported. -/
structure AtEntry (m : Ram) (ramfs_start ramfs_end : U32) (pre post : List ArchiveEntry)
    (s : U32 × Storage) : Prop where
  named : ∀ e ∈ pre, e.name ≠ []
  place : s.1 = off ramfs_start (extent pre)
  layout : Layout m ramfs_end s.1 post
  below : s.1.toNat + extent post + 512 < 2 ^ 32
  table : Represents s.2 (importAll pre .empty)

variable {m : Ram} {ramfs_start ramfs_end : U32} {pre post : List ArchiveEntry} {e : ArchiveEntry}
  {s s' : U32 × Storage}

theorem AtEntry.pass (h : AtEntry m ramfs_start ramfs_end pre (e :: post) s) (hne : e.name ≠ []) :
    ∃ s', importPass m ramfs_end s = some (.next s') ∧ AtEntry m ramfs_start ramfs_end (pre ++ [e]) post s' ∧
      (s'.2 = s.2 ↔ e.importTo (importAll pre .empty) = importAll pre .empty) := by
  obtain ⟨addr, storage⟩ := s
  have hlt := ramfs_end.isLt
  cases h.layout with
  | entry hh hin rest =>
    have hbelow := h.below
    obtain ⟨s', hpass, hR, hiff⟩ := importPass_header hh hin hne h.table (nil_not_mem_importAll pre)
    refine ⟨_, hpass, ⟨?_, ?_, rest, ?_, ?_⟩, hiff⟩
    · intro e' he'
      rcases List.mem_append.mp he' with he' | he'
      · exact h.named e' he'
      · rw [List.mem_singleton.mp he']
        exact hne
    · have hplace := h.place
      dsimp only at hplace ⊢
      rw [hplace, off_off, extent_append, extent_cons]
      rfl
    · simp only [extent_cons] at hin hbelow ⊢
      rw [off_toNat _ _ (by omega)]
      omega
    · rw [importAll_snoc]
      exact hR

theorem AtEntry.exit (h : AtEntry m ramfs_start ramfs_end pre post s) (hlast : ∀ e ∈ post.head?, e.name = []) :
    importPass m ramfs_end s = some (.done s.2) := by
  have hbelow := h.below
  by_cases hin : s.1 + 512 ≤ ramfs_end
  · refine importPass_blank hin ?_
    cases h.layout with
    | moduleEnd hout =>
      have := (guard_iff (by omega)).mp hin
      omega
    | zeroBlock hz => simpa using hz 0 (by omega)
    | entry hh _ _ =>
      have hname := hlast _ rfl
      have h0 := (hh.name.head_eq_zero_iff).mpr hname
      rwa [view, off_zero] at h0
  · exact importPass_outside hin

variable {es : List ArchiveEntry} {s₀ : Storage}

theorem atEntry_start (hl : Layout m ramfs_end ramfs_start es)
    (htop : ramfs_start.toNat + extent es + 512 < 2 ^ 32) :
    AtEntry m ramfs_start ramfs_end [] es (ramfs_start, frodfsInit s₀) where
  named := by simp
  place := (off_zero _).symm
  layout := hl
  below := htop
  table := frodfsInit_represents s₀

theorem reached_of_split (s₀ : Storage) (hl : Layout m ramfs_end ramfs_start (pre ++ post))
    (htop : ramfs_start.toNat + extent (pre ++ post) + 512 < 2 ^ 32) (hnamed : ∀ e ∈ pre, e.name ≠ []) :
    ∃ s, Reached (importPass m ramfs_end) (ramfs_start, frodfsInit s₀) s ∧
      AtEntry m ramfs_start ramfs_end pre post s := by
  induction pre using List.reverseRecOn generalizing post with
  | nil => exact ⟨_, .start, atEntry_start hl htop⟩
  | append_singleton pre e ih =>
    rw [List.append_assoc] at hl htop
    obtain ⟨s, hs, hat⟩ := ih hl htop fun e' he' => hnamed e' (List.mem_append_left _ he')
    obtain ⟨s', hpass, hat', _⟩ := hat.pass (hnamed e (by simp))
    exact ⟨s', hs.pass hpass, hat'⟩

theorem counted_append (es : List ArchiveEntry) :
    counted es ++ es.dropWhile (fun e => e.name ≠ []) = es := List.takeWhile_append_dropWhile

theorem counted_named (es : List ArchiveEntry) : ∀ e ∈ counted es, e.name ≠ [] := by
  intro e he
  simpa using List.mem_takeWhile_imp he

/-- The import of a laid-out archive ends, with the map of its counted entries. -/
theorem bootImport_layout (s₀ : Storage) (hl : Layout m ramfs_end ramfs_start es)
    (htop : ramfs_start.toNat + extent es + 512 < 2 ^ 32) : ∃ r, bootImport m ramfs_start ramfs_end s₀ r ∧
      Represents r (importAll (counted es) .empty) := by
  rw [← counted_append es] at hl htop
  obtain ⟨s, hs, hat⟩ := reached_of_split s₀ hl htop (counted_named es)
  have hexit := hat.exit fun e he => by
    have := List.head?_dropWhile_not (fun e : ArchiveEntry => decide (e.name ≠ [])) es
    rw [Option.mem_def.mp he] at this
    simpa using this
  exact ⟨s.2, hs.returns (.of_done hexit), hat.table⟩

end FrodOS
