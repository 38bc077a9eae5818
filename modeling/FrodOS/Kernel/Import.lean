import FrodOS.Kernel.Tar

/-!
# The boot import (kernel_main)

The loop that copies every file of the boot archive into FrodFS: the base name
without its extension becomes the file name, at most 31 bytes of it.
-/

namespace FrodOS
open Lib

/-! ### Names -/

/-- One pass of the scan for the last '/', over the index and the start of the name so
far. `p_idx` is an `int`: the scan cannot go past index `2 ^ 31 - 1`. -/
def scanPass (filename : View) (s : ℕ × ℕ) : Option (Ctl (ℕ × ℕ) ℕ) :=
  if filename s.1 = 0 then some (.done s.2)
  else if s.1 + 1 < 2 ^ 31 then
    some (.next (s.1 + 1, if filename s.1 = 47 then s.1 + 1 else s.2))
  else none

def realFilename (filename : View) : Option ℕ := loop (scanPass filename) (2 ^ 31) (0, 0)

def shortName (real_filename : View) : (left n_idx : ℕ) → List Byte
  | 0, _ => []
  | left + 1, n_idx =>
    if real_filename n_idx ≠ 0 ∧ real_filename n_idx ≠ 46 then
      real_filename n_idx :: shortName real_filename left (n_idx + 1)
    else []

/-! ### The loop -/

/-- Create and write; neither return code is looked at. -/
def importFile (m : Ram) (storage : Storage) (real_filename file_data_ptr file_size : U32) : Storage :=
  let short_name := cstr (shortName (view m real_filename) 31 0)
  let created := (frodfsCreate storage (some short_name)).2.1
  (frodfsWrite created (some short_name) (ptr m file_data_ptr) file_size).2.1

def importEntry (m : Ram) (ramfs_end header real_filename : U32) (storage : Storage) : Storage :=
  let file_size := fileSize m header
  let file_data_ptr := header + 512
  if ramfsStrcmp (view m real_filename) shellBin ≠ 0 ∧ m real_filename ≠ 0 ∧ file_size > 0 then
    if file_data_ptr + file_size ≤ ramfs_end then
      importFile m storage real_filename file_data_ptr file_size
    else storage
  else storage

/-- One pass, over `current_tar_addr` and the table. -/
def importPass (m : Ram) (ramfs_end : U32) (s : U32 × Storage) : Option (Ctl (U32 × Storage) Storage) :=
  let header := s.1
  if header + 512 ≤ ramfs_end then
    if m header = 0 then some (.done s.2)
    else
      match realFilename (view m header) with
      | some p =>
        let aligned_size := aligned (fileSize m header)
        some (.next (header + (512 + aligned_size), importEntry m ramfs_end header (off header p) s.2))
      | none => none
  else some (.done s.2)

def bootImport (m : Ram) (ramfs_start ramfs_end : U32) (s₀ storage : Storage) : Prop :=
  Returns (importPass m ramfs_end) (ramfs_start, frodfsInit s₀) storage

/-! ### The scan ends at a NUL -/

theorem scan_ends (f : View) (fuel i r : ℕ) (h : ∃ d < fuel, f (i + d) = 0 ∧ i + d < 2 ^ 31) :
    ∃ p, loop (scanPass f) fuel (i, r) = some p := by
  induction fuel generalizing i r with
  | zero =>
    obtain ⟨d, hd, _⟩ := h
    omega
  | succ fuel ih =>
    by_cases hz : f i = 0
    · exact ⟨r, by simp only [loop, scanPass, hz, if_true]⟩
    · obtain ⟨d, hd, hf, hlt⟩ := h
      have hpos : d ≠ 0 := by
        rintro rfl
        exact hz hf
      have hnext : scanPass f (i, r) = some (.next (i + 1, if f i = 47 then i + 1 else r)) := by
        simp only [scanPass, hz, if_false, show i + 1 < 2 ^ 31 by omega, if_true]
      simp only [loop, hnext]
      refine ih _ _ ⟨d - 1, by omega, ?_, by omega⟩
      rwa [show i + 1 + (d - 1) = i + d by omega]

theorem scanPass_next {f : View} {s s' : ℕ × ℕ} (h : scanPass f s = some (.next s')) :
    f s.1 ≠ 0 ∧ s.1 + 1 < 2 ^ 31 ∧ s' = (s.1 + 1, if f s.1 = 47 then s.1 + 1 else s.2) := by
  by_cases hz : f s.1 = 0
  · simp only [scanPass, hz, if_true] at h
    cases h
  · by_cases hlt : s.1 + 1 < 2 ^ 31
    · simp only [scanPass, hz, if_false, hlt, if_true] at h
      exact ⟨hz, hlt, (Ctl.next.inj (Option.some.inj h)).symm⟩
    · simp only [scanPass, hz, if_false, hlt] at h
      cases h

theorem scanPass_done {f : View} {s : ℕ × ℕ} {p : ℕ} (h : scanPass f s = some (.done p)) :
    f s.1 = 0 ∧ p = s.2 := by
  by_cases hz : f s.1 = 0
  · simp only [scanPass, hz, if_true] at h
    exact ⟨hz, (Ctl.done.inj (Option.some.inj h)).symm⟩
  · by_cases hlt : s.1 + 1 < 2 ^ 31
    · simp only [scanPass, hz, if_false, hlt, if_true] at h
      cases h
    · simp only [scanPass, hz, if_false, hlt] at h
      cases h

theorem realFilename_isSome_iff (f : View) :
    (∃ p, realFilename f = some p) ↔ ∃ j < 2 ^ 31, f j = 0 := by
  constructor
  · intro h
    obtain ⟨p, hp⟩ := h
    have hret : Returns (scanPass f) (0, 0) p := ⟨2 ^ 31, hp⟩
    refine hret.invariant (fun s => s.1 < 2 ^ 31) (fun _ => ∃ j < 2 ^ 31, f j = 0)
      (by decide) ?_ ?_
    · intro s s' _ he
      obtain ⟨_, hlt, rfl⟩ := scanPass_next he
      exact hlt
    · intro s hlt he
      exact ⟨s.1, hlt, (scanPass_done he).1⟩
  · intro h
    obtain ⟨j, hj, hz⟩ := h
    exact scan_ends f _ 0 0 ⟨j, hj, by rwa [Nat.zero_add], by omega⟩

/-! ### Passes -/

theorem guard_iff {a ramfs_end : U32} (ha : a.toNat < 0xFFFFFE00) :
    a + 512 ≤ ramfs_end ↔ a.toNat + 512 ≤ ramfs_end.toNat := by
  have hsum : (a + 512).toNat = a.toNat + 512 := by
    rw [BitVec.toNat_add]
    exact Nat.mod_eq_of_lt (by
      change a.toNat + 512 < 2 ^ 32
      omega)
  rw [← hsum]
  exact BitVec.le_def

variable {m : Ram} {ramfs_end : U32} {s : U32 × Storage}

theorem importPass_outside (h : ¬ s.1 + 512 ≤ ramfs_end) : importPass m ramfs_end s = some (.done s.2) := by
  simp only [importPass, h, if_false]

theorem importPass_blank (h : s.1 + 512 ≤ ramfs_end) (h0 : m s.1 = 0) :
    importPass m ramfs_end s = some (.done s.2) := by
  simp only [importPass, h, h0, if_true]

theorem importPass_entry (h : s.1 + 512 ≤ ramfs_end) (h0 : m s.1 ≠ 0) {p : ℕ}
    (hp : realFilename (view m s.1) = some p) :
    importPass m ramfs_end s = some (.next (s.1 + (512 + aligned (fileSize m s.1)),
      importEntry m ramfs_end s.1 (off s.1 p) s.2)) := by
  simp only [importPass, h, if_true, h0, if_false, hp]

end FrodOS
