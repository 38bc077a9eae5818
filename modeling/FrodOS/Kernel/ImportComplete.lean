import FrodOS.Frodfs.Refinement
import FrodOS.Kernel.ImportArchive

/-!
# Completeness of the import

An archive whose files fit the table (32 of them at most, none too long, with stems
that are names and all different) is imported whole, as far as the loop takes it to
go: it ends before the first entry with an empty name.
-/

namespace FrodOS
open Lib

structure FilesFit (es : List ArchiveEntry) : Prop where
  regular : ∀ e ∈ es, e.Regular
  names : ∀ e ∈ es, e.name.length ≤ 99
  few : (es.filter (·.Eligible)).length ≤ 32
  small : ∀ e ∈ es, e.Eligible → e.data.length ≤ 4096
  stems : ∀ e ∈ es, e.Eligible → stem e.name ≠ [] ∧ (stem e.name).length ≤ 31
  distinct : ((es.filter (·.Eligible)).map fun e => stem e.name).Nodup

/-- The used names are the stems, and a read of a stem with room for it delivers the data. -/
structure Imported (es : List ArchiveEntry) (s : Storage) : Prop where
  names : ∀ n, (∃ i, (s i).used = true ∧ (s i).nameStr = n) ↔
    ∃ e ∈ es, e.Eligible ∧ stem e.name = n
  reads : ∀ e ∈ es, e.Eligible → ∀ mem name buffer max_size out_size,
    NameArg mem name (stem e.name) → buffer ≠ 0 → out_size ≠ 0 → 4096 ≤ max_size.toNat →
      (frodfsRead s mem (ptr mem name) buffer max_size out_size).1 = 0 ∧
      (frodfsRead s mem (ptr mem name) buffer max_size out_size).2.1 =
        store32 (writeBytes mem buffer (cstr e.data) e.data.length) out_size
          (BitVec.ofNat 32 e.data.length)

/-! ### The map after the import -/

def files (es : List ArchiveEntry) : List (List Byte × List Byte) :=
  (es.filter (·.Eligible)).map fun e => (stem e.name, e.data)

theorem files_fst (es : List ArchiveEntry) :
    (files es).map Prod.fst = (es.filter (·.Eligible)).map fun e => stem e.name := by
  rw [files, List.map_map]
  rfl

theorem files_snoc (es : List ArchiveEntry) (e : ArchiveEntry) :
    files (es ++ [e]) = files es ++ if e.Eligible then [(stem e.name, e.data)] else [] := by
  by_cases h : e.Eligible <;> simp [files, h]

theorem FilesFit.init {es : List ArchiveEntry} {e : ArchiveEntry} (h : FilesFit (es ++ [e])) :
    FilesFit es where
  regular e' he' := h.regular e' (List.mem_append_left _ he')
  names e' he' := h.names e' (List.mem_append_left _ he')
  few := by
    have := h.few
    rw [List.filter_append, List.length_append] at this
    omega
  small e' he' := h.small e' (List.mem_append_left _ he')
  stems e' he' := h.stems e' (List.mem_append_left _ he')
  distinct := by
    have := h.distinct
    rw [List.filter_append, List.map_append] at this
    exact this.of_append_left

theorem importAll_files (es : List ArchiveEntry) (h : FilesFit es) :
    (importAll es .empty).entries = files es := by
  induction es using List.reverseRecOn with
  | nil => rfl
  | append_singleton es e ih =>
    have hih := ih h.init
    rw [importAll_snoc, files_snoc, ArchiveEntry.importTo]
    by_cases hel : e.Eligible
    · have hmem : e ∈ es ++ [e] := by simp
      obtain ⟨hne, hlen⟩ := h.stems e hmem hel
      have hshort : e.short = stem e.name := List.take_of_length_le hlen
      have hdist := h.distinct
      have hfew := h.few
      have hlist : (es ++ [e]).filter (·.Eligible) = es.filter (·.Eligible) ++ [e] := by simp [hel]
      rw [hlist, List.map_append] at hdist
      rw [hlist, List.length_append, List.length_singleton] at hfew
      have hk : stem e.name ∉ (importAll es .empty).keys := by
        rw [BoundedMap.keys, hih, files_fst]
        intro hin
        exact (List.nodup_append.mp hdist).2.2 _ hin _ (by simp) rfl
      have hr : (importAll es .empty).entries.length < 32 := by
        rw [hih, files, List.length_map]
        omega
      rw [if_pos ⟨hel, by rwa [hshort]⟩, hshort, FileTable.put_of_room hk hr, if_pos (h.small e hmem hel),
        if_pos hel, hih]
    · rw [if_neg fun hc => hel hc.1, if_neg hel, List.append_nil, hih]

theorem imported_of_represents {es : List ArchiveEntry} (h : FilesFit es) {s : Storage}
    (hR : Represents s (importAll es .empty)) : Imported es s where
  names n := by
    rw [← hR.mem_keys_iff, BoundedMap.keys, importAll_files es h, files_fst]
    simp only [List.mem_map, List.mem_filter, decide_eq_true_eq, and_assoc]
  reads e he hel mem name buffer max_size out_size hn hb ho hmax := by
    have hmem : (stem e.name, e.data) ∈ (importAll es .empty).entries := by
      rw [importAll_files es h]
      exact List.mem_map.mpr ⟨e, List.mem_filter.mpr ⟨he, decide_eq_true hel⟩, rfl⟩
    have hfind := (BoundedMap.find?_eq_some_iff _ _ _).mpr hmem
    have hread : FileTable.read (importAll es .empty) (stem e.name) max_size.toNat = (0, some e.data) := by
      rw [FileTable.read, hfind]
      simp only [List.take_of_length_le ((h.small e he hel).trans hmax)]
    obtain ⟨hcode, hram⟩ := hR.read hn.string (h.stems e he hel).2 mem max_size hb ho
    rw [hread] at hcode hram
    rw [ptr_of_ne _ hn.nonnull]
    exact ⟨hcode, hram⟩

/-- The import ends and brings every file of an archive, up to its first entry with
an empty name, when these files fit the table. -/
theorem import_complete (m : Ram) (ramfs_start ramfs_end : U32) (es : List ArchiveEntry) (s₀ : Storage)
    (hle : ramfs_start ≤ ramfs_end) (hend : ramfs_end < 0xFFFFFE00)
    (hl : Layout m ramfs_end ramfs_start es) (hfit : FilesFit (counted es)) :
    ∃ r, bootImport m ramfs_start ramfs_end s₀ r ∧ Imported (counted es) r := by
  have hendn : ramfs_end.toNat < 0xFFFFFE00 := hend
  have hext := hl.extent_le hle
  obtain ⟨r, hr, hR⟩ := bootImport_layout s₀ hl (by omega)
  exact ⟨r, hr, imported_of_represents hfit hR⟩

/-! ### Small archives -/

/-- Blocks of 512 bytes from 0x400000 on, given by their first bytes. -/
def blocks (bs : List (List Byte)) : Ram := fun a =>
  let i := (a - 0x400000).toNat
  (bs.getD (i / 512) []).getD (i % 512) 0

def headerBytes (name size : List Byte) (flag : Byte) : List Byte :=
  name ++ List.replicate (124 - name.length) 0 ++ size ++ List.replicate (32 - size.length) 0 ++ [flag]

def emptyHeader (name : List Byte) (flag : Byte) : List Byte :=
  headerBytes name (List.replicate 11 48) flag

def oneByteHeader (name : List Byte) (flag : Byte) : List Byte :=
  headerBytes name (List.replicate 10 48 ++ [49]) flag

/-- "bin/a.fxe" -/
def binA : List Byte := [98, 105, 110, 47, 97, 46, 102, 120, 101]

/-- "./b" -/
def dotB : List Byte := [46, 47, 98]

/-- Two files that are imported, and between them the shell and an empty file. -/
def fourFiles : Ram :=
  blocks [oneByteHeader binA 48, [7], oneByteHeader shellBin 48, [9], emptyHeader [99] 48, oneByteHeader dotB 0, [8]]

def fourFilesEntries : List ArchiveEntry :=
  [⟨binA, 48, [7]⟩, ⟨shellBin, 48, [9]⟩, ⟨[99], 48, []⟩, ⟨dotB, 0, [8]⟩]

theorem fourFiles_layout : Layout fourFiles 0x400E00 0x400000 fourFilesEntries :=
  .entry ⟨.of_leading 31 (by decide) (by decide), by decide, ⟨by decide, by decide⟩, by decide⟩ (by decide)
    (.entry ⟨.of_leading 31 (by decide) (by decide), by decide, ⟨by decide, by decide⟩, by decide⟩ (by decide)
      (.entry ⟨.of_leading 31 (by decide) (by decide), by decide, ⟨by decide, by decide⟩, by decide⟩ (by decide)
        (.entry ⟨.of_leading 31 (by decide) (by decide), by decide, ⟨by decide, by decide⟩, by decide⟩ (by decide)
          (.moduleEnd (by decide)))))

theorem import_complete_four_files :
    ∃ r, bootImport fourFiles 0x400000 0x400E00 bootStorage r ∧ Imported (counted fourFilesEntries) r :=
  import_complete _ _ _ _ bootStorage (by decide) (by decide) fourFiles_layout
    ⟨by decide, by decide, by decide, by decide, by decide, by decide⟩

/-- An entry with an empty name in front of the file ends the import at once. -/
theorem import_not_complete_empty_name :
    ¬ ∀ (m : Ram) (ramfs_start ramfs_end : U32) (es : List ArchiveEntry) (s₀ : Storage),
      ramfs_start ≤ ramfs_end → ramfs_end < 0xFFFFFE00 → Layout m ramfs_end ramfs_start es →
      FilesFit es → ∃ r, bootImport m ramfs_start ramfs_end s₀ r ∧ Imported es r := by
  intro h
  have hl : Layout (blocks [oneByteHeader [] 48, [7], oneByteHeader binA 48, [7]]) 0x400800 0x400000
      [⟨[], 48, [7]⟩, ⟨binA, 48, [7]⟩] :=
    .entry ⟨.of_leading 31 (by decide) (by decide), by decide, ⟨by decide, by decide⟩, by decide⟩ (by decide)
      (.entry ⟨.of_leading 31 (by decide) (by decide), by decide, ⟨by decide, by decide⟩, by decide⟩
        (by decide) (.moduleEnd (by decide)))
  obtain ⟨r, hr, hi⟩ := h _ _ _ _ bootStorage (by decide) (by decide) hl
    ⟨by decide, by decide, by decide, by decide, by decide, by decide⟩
  have hend : bootImport (blocks [oneByteHeader [] 48, [7], oneByteHeader binA 48, [7]]) 0x400000
      0x400800 bootStorage (frodfsInit bootStorage) :=
    .of_done (importPass_blank (by decide) (by decide))
  obtain rfl := hr.unique hend
  obtain ⟨i, hu, _⟩ := (hi.names [97]).mpr ⟨⟨binA, 48, [7]⟩, by simp, by decide, by decide⟩
  cases hu

end FrodOS
