import FrodOS.Frodfs.Disk
import FrodOS.Lib.BoundedMap
import FrodOS.Lib.Run

/-!
# FrodFS as a map from names to contents

`FileTable` is what the file system is for: an insertion-ordered map from names
to byte strings with room for 32 files. `Represents` ties the slot array to it,
slot `i` holding entry `i`. Under names that fit a slot a map is a list of files,
so each routine of frodfs.c simulates the operation of its name.
-/

namespace FrodOS
open Lib

abbrev FileTable := BoundedMap (List Byte) (List Byte) 32

namespace FileTable

def create (M : FileTable) (n : List Byte) : ℤ × FileTable :=
  if hk : n ∈ M.keys then (-2, M)
  else if hr : M.entries.length < 32 then (0, M.append n [] hk hr) else (-3, M)

def write (M : FileTable) (n d : List Byte) : ℤ × FileTable :=
  if 4096 < d.length then (-1, M) else if n ∈ M.keys then (0, M.replace n d) else (-2, M)

def read (M : FileTable) (n : List Byte) (limit : ℕ) : ℤ × Option (List Byte) :=
  match M.find? n with
  | some d => (0, some (d.take limit))
  | none => (-2, none)

theorem read_create_of_ne (M : FileTable) {n n' : List Byte} (limit : ℕ) (h : n' ≠ n) :
    (M.create n).2.read n' limit = M.read n' limit := by
  unfold create
  split_ifs
  · rfl
  · simp only [read, BoundedMap.find?_append_of_ne _ _ _ _ h]
  · rfl

theorem read_write_of_ne (M : FileTable) {n n' d : List Byte} (limit : ℕ) (h : n' ≠ n) :
    (M.write n d).2.read n' limit = M.read n' limit := by
  unfold write
  split_ifs
  · rfl
  · simp only [read, BoundedMap.find?_replace_of_ne _ _ h]
  · rfl

end FileTable

/-! ### The representation -/

/-- Slot `i` holds entry `i` of the map and the slots past the last entry are free. -/
def Represents (s : Storage) (M : FileTable) : Prop :=
  ∀ i : Fin 32, (s i).contents = M.entries[i.val]?

theorem frodfsInit_represents (s : Storage) : Represents (frodfsInit s) .empty := fun _ => by
  simp [FrodfsEntry.contents, frodfsInit, FrodfsEntry.cleared, BoundedMap.empty]

/-! ### A map is a list of files -/

namespace FileTable

variable {M : FileTable} {d : Disk} {n : List Byte}

theorem create_eq (hd : d.files = M.entries) (hpos : n ≠ []) (hlen : n.length ≤ 31) :
    (d.create n).1 = (M.create n).1 ∧ (d.create n).2.files = (M.create n).2.entries := by
  have hkeys : n ∈ d.names ↔ n ∈ M.keys := by rw [Disk.names, hd, BoundedMap.keys]
  have hroom : d.files.length < 32 ↔ M.entries.length < 32 := by rw [hd]
  unfold Disk.create create
  by_cases hk : n ∈ M.keys
  · rw [if_neg hpos, if_pos (hkeys.mpr hk), dif_pos hk]
    exact ⟨rfl, hd⟩
  · rw [if_neg hpos, if_neg (mt hkeys.mp hk), dif_neg hk]
    by_cases hr : M.entries.length < 32
    · rw [dif_pos (hroom.mpr hr), dif_pos hr]
      refine ⟨rfl, ?_⟩
      change d.files ++ [(n.take 31, [])] = M.entries ++ [(n, [])]
      rw [hd, List.take_of_length_le hlen]
    · rw [dif_neg (mt hroom.mp hr), dif_neg hr]
      exact ⟨rfl, hd⟩

theorem write_eq (hd : d.files = M.entries) (bytes : List Byte) :
    (d.write n bytes).1 = (M.write n bytes).1 ∧ (d.write n bytes).2.files = (M.write n bytes).2.entries := by
  have hkeys : n ∈ d.names ↔ n ∈ M.keys := by rw [Disk.names, hd, BoundedMap.keys]
  unfold Disk.write write
  by_cases hs : bytes.length ≤ 4096
  · rw [dif_pos hs, if_neg (Nat.not_lt.mpr hs)]
    by_cases hk : n ∈ M.keys
    · rw [if_pos (hkeys.mpr hk), if_pos hk]
      refine ⟨rfl, ?_⟩
      change assign n bytes d.files = _
      rw [hd, M.assign_entries]
    · rw [if_neg (mt hkeys.mp hk), if_neg hk]
      exact ⟨rfl, hd⟩
  · rw [dif_neg hs, if_pos (Nat.not_le.mp hs)]
    exact ⟨rfl, hd⟩

theorem read_eq (hd : d.files = M.entries) (limit : ℕ) : d.read n limit = M.read n limit := by
  have hlookup : lookup n d.files = M.find? n := by rw [hd, M.lookup_entries]
  cases hfound : M.find? n with
  | none => simp only [Disk.read, read, hlookup, hfound]
  | some bytes => simp only [Disk.read, read, hlookup, hfound]

end FileTable

theorem nameArg_of_short {name : View} {n : List Byte} (hc : IsCStr name n) (hlen : n.length ≤ 31) :
    nameArg name = n := hc.leading_eq (by omega)

namespace Represents

variable {s : Storage} {M : FileTable} {n : List Byte} {name : View} {i : Fin 32}

theorem mem_entries_iff (h : Represents s M) (d : List Byte) :
    (n, d) ∈ M.entries ↔ ∃ i, (s i).used = true ∧ (s i).nameStr = n ∧ (s i).bytes = d := by
  rw [mem_of_contents M.bounded h]
  simp only [Prod.mk.injEq]

/-- The list of files that the map is. -/
def disk (h : Represents s M) : Disk where
  files := M.entries
  room := M.bounded
  short e he := by
    obtain ⟨i, -, hn, -⟩ := (h.mem_entries_iff e.2).mp he
    exact hn ▸ (s i).nameStr_length
  small e he := by
    obtain ⟨i, -, -, hb⟩ := (h.mem_entries_iff e.2).mp he
    rw [← hb, FrodfsEntry.bytes_length]
    exact (s i).size_le

theorem mirrors (h : Represents s M) : Mirrors s h.disk := h

theorem used_iff (h : Represents s M) : (s i).used = true ↔ i.val < M.entries.length := h.mirrors.used_iff

theorem mem_keys_iff (h : Represents s M) :
    n ∈ M.keys ↔ ∃ i, (s i).used = true ∧ (s i).nameStr = n := by
  constructor
  · intro hm
    obtain ⟨⟨_, d⟩, he, rfl⟩ := List.mem_map.mp hm
    obtain ⟨i, hu, hn, _⟩ := (h.mem_entries_iff d).mp he
    exact ⟨i, hu, hn⟩
  · intro hc
    obtain ⟨i, hu, hn⟩ := hc
    exact List.mem_map.mpr ⟨(n, (s i).bytes), (h.mem_entries_iff _).mpr ⟨i, hu, hn, rfl⟩, rfl⟩

theorem find_some (h : Represents s M) (hc : IsCStr name n) (hn : n ∈ M.keys) :
    ∃ i, (findName s name slots).1 = some i ∧ (s i).used = true ∧ (s i).nameStr = n := by
  cases hf : (findName s name slots).1 with
  | none =>
    obtain ⟨i, hu, rfl⟩ := h.mem_keys_iff.mp hn
    exact absurd hc ((findName_none_iff s name slots).mp hf i (List.mem_finRange i) hu)
  | some i =>
    obtain ⟨_, hu, hi⟩ := findName_some s name hf
    exact ⟨i, rfl, hu, hi.unique hc⟩

/-! ### The routines simulate the operations -/

theorem create (h : Represents s M) (hc : IsCStr name n) (hpos : n ≠ []) (hlen : n.length ≤ 31) :
    (frodfsCreate s (some name)).1 = (M.create n).1 ∧
      Represents (frodfsCreate s (some name)).2.1 (M.create n).2 := by
  obtain ⟨hcode, hfiles⟩ := FileTable.create_eq (d := h.disk) rfl hpos hlen
  obtain ⟨hanswer, hslots⟩ := h.mirrors.create name
  rw [nameArg_of_short hc hlen] at hanswer hslots
  refine ⟨hanswer.trans hcode, fun i => ?_⟩
  rw [hslots i, hfiles]

theorem write (h : Represents s M) (hc : IsCStr name n) (hlen : n.length ≤ 31) (buffer : View) (size : U32) :
    (frodfsWrite s (some name) (some buffer) size).1 =
        (M.write n ((List.range size.toNat).map buffer)).1 ∧
      Represents (frodfsWrite s (some name) (some buffer) size).2.1
        (M.write n ((List.range size.toNat).map buffer)).2 := by
  obtain ⟨hcode, hfiles⟩ :=
    FileTable.write_eq (d := h.disk) (n := n) (M := M) rfl ((List.range size.toNat).map buffer)
  obtain ⟨hanswer, hslots⟩ := h.mirrors.write name buffer size
  rw [nameArg_of_short hc hlen] at hanswer hslots
  refine ⟨hanswer.trans hcode, fun i => ?_⟩
  rw [hslots i, hfiles]

theorem read (h : Represents s M) (hc : IsCStr name n) (hlen : n.length ≤ 31) (m : Ram) {buffer out_size : U32}
    (max_size : U32) (hb : buffer ≠ 0) (ho : out_size ≠ 0) :
    (frodfsRead s m (some name) buffer max_size out_size).1 = (M.read n max_size.toNat).1 ∧
      (frodfsRead s m (some name) buffer max_size out_size).2.1 =
        match (M.read n max_size.toNat).2 with
        | some d => store32 (writeBytes m buffer (cstr d) d.length) out_size (BitVec.ofNat 32 d.length)
        | none => m := by
  have hread := h.mirrors.read name m max_size hb ho
  rw [nameArg_of_short hc hlen, FileTable.read_eq (d := h.disk) (M := M) rfl] at hread
  exact hread

end Represents

end FrodOS
