import FrodOS.Frodfs.Extent
import FrodOS.Lib.FirstMatch

/-!
# FrodFS as a list of files

What the slot array holds after calls with names of any length: at most 32 files in the
order of their creation, under names that a cut at 31 bytes may have made equal. Each
routine of frodfs.c does to the array what the operation of its name does to the list.
-/

namespace FrodOS
open Lib

structure Disk where
  files : List (List Byte × List Byte)
  room : files.length ≤ 32
  short : ∀ e ∈ files, e.1.length ≤ 31
  small : ∀ e ∈ files, e.2.length ≤ 4096

namespace Disk

def empty : Disk := ⟨[], Nat.zero_le _, nofun, nofun⟩

def names (d : Disk) : List (List Byte) := d.files.map Prod.fst

def append (d : Disk) (n : List Byte) (h : d.files.length < 32) : Disk where
  files := d.files ++ [(n.take 31, [])]
  room := by
    rw [List.length_append]
    exact h
  short e he := by
    rcases List.mem_append.mp he with he | he
    · exact d.short e he
    · rw [List.mem_singleton.mp he, List.length_take]
      exact Nat.min_le_left _ _
  small e he := by
    rcases List.mem_append.mp he with he | he
    · exact d.small e he
    · rw [List.mem_singleton.mp he]
      exact Nat.zero_le _

def replace (d : Disk) (n bytes : List Byte) (h : bytes.length ≤ 4096) : Disk where
  files := assign n bytes d.files
  room := by
    rw [length_assign]
    exact d.room
  short e he := by
    have hkey : e.1 ∈ (assign n bytes d.files).map Prod.fst := List.mem_map_of_mem he
    rw [keys_assign] at hkey
    obtain ⟨f, hf, hn⟩ := List.mem_map.mp hkey
    exact hn ▸ d.short f hf
  small e he := by
    rcases value_of_mem_assign he with he | he
    · exact d.small e he
    · exact he ▸ h

def create (d : Disk) (n : List Byte) : ℤ × Disk :=
  if n = [] then (-1, d)
  else if n ∈ d.names then (-2, d)
  else if h : d.files.length < 32 then (0, d.append n h) else (-3, d)

def write (d : Disk) (n bytes : List Byte) : ℤ × Disk :=
  if h : bytes.length ≤ 4096 then if n ∈ d.names then (0, d.replace n bytes h) else (-2, d)
  else (-1, d)

def read (d : Disk) (n : List Byte) (limit : ℕ) : ℤ × Option (List Byte) :=
  match lookup n d.files with
  | some bytes => (0, some (bytes.take limit))
  | none => (-2, none)

end Disk

/-- A name argument as the file system sees it: 32 bytes without a NUL are as good as any more. -/
def nameArg (name : View) : List Byte := leading name 32

theorem isCStr_iff_leading {f : View} {t : List Byte} {n : ℕ} (h : t.length < n) :
    IsCStr f t ↔ leading f n = t := by
  constructor
  · intro hc
    exact hc.leading_eq h.le
  · intro he
    obtain ⟨-, -, -, hnul⟩ := strlen_spec f n 0
    have hlen : strlen f n 0 = t.length := by rw [← leading_length, he]
    exact .of_leading n he (hlen ▸ hnul (by omega))

theorem nameArg_eq {name : View} {n : List Byte} (h : IsCStr name n) : nameArg name = n.take 32 :=
  h.leading_take 32

theorem nameArg_nil_iff (name : View) : nameArg name = [] ↔ name 0 = 0 := by
  have hnil : IsCStr name [] ↔ nameArg name = [] := isCStr_iff_leading (by decide)
  rw [← hnil]
  exact ⟨fun h => h.nul, fun h => ⟨fun _ hb => absurd hb List.not_mem_nil, fun i hi => absurd hi (Nat.not_lt_zero i), h⟩⟩

theorem take_nameArg (name : View) : (nameArg name).take 31 = leading name 31 := by
  obtain ⟨-, hle, hne, hnul⟩ := strlen_spec name 31 0
  obtain ⟨-, hle', hne', hnul'⟩ := strlen_spec name 32 0
  have hlen : min 31 (strlen name 32 0) = strlen name 31 0 := by
    rcases Nat.lt_trichotomy (strlen name 31 0) (strlen name 32 0) with hlt | heq | hgt
    · by_contra hcut
      exact hne' _ (Nat.zero_le _) hlt (hnul (by omega))
    · omega
    · exact absurd (hnul' (by omega)) (hne _ (Nat.zero_le _) hgt)
  rw [nameArg, leading, leading, ← List.map_take, List.take_range, hlen]

/-! ### The array and the list -/

/-- Slot `i` holds file `i`. -/
def Mirrors (s : Storage) (d : Disk) : Prop := ∀ i : Fin 32, (s i).contents = d.files[i.val]?

theorem mirrors_init (s : Storage) : Mirrors (frodfsInit s) .empty := fun _ => by
  simp [FrodfsEntry.contents, frodfsInit, FrodfsEntry.cleared, Disk.empty]

namespace Mirrors

variable {s : Storage} {d : Disk} {name : View} {i : Fin 32}

theorem used_iff (h : Mirrors s d) : (s i).used = true ↔ i.val < d.files.length := by
  have hi := h i
  unfold FrodfsEntry.contents at hi
  by_cases hu : (s i).used = true
  · rw [if_pos hu] at hi
    exact ⟨fun _ => (List.getElem?_eq_some_iff.mp hi.symm).1, fun _ => hu⟩
  · rw [if_neg hu] at hi
    exact ⟨fun hc => absurd hc hu, fun hc => absurd (List.getElem?_eq_none_iff.mp hi.symm) (by omega)⟩

theorem file_iff (h : Mirrors s d) {e : List Byte × List Byte} :
    d.files[i.val]? = some e ↔ (s i).used = true ∧ ((s i).nameStr, (s i).bytes) = e := by
  rw [← h i, FrodfsEntry.contents_eq_some_iff]

theorem named_iff (h : Mirrors s d) : (s i).used = true ∧ IsCStr name (s i).nameStr ↔
    ∃ bytes, d.files[i.val]? = some (nameArg name, bytes) := by
  have hlen := (s i).nameStr_length
  rw [isCStr_iff_leading (n := 32) (by omega)]
  constructor
  · intro hn
    exact ⟨(s i).bytes, h.file_iff.mpr ⟨hn.1, Prod.ext hn.2.symm rfl⟩⟩
  · intro hb
    obtain ⟨bytes, hb⟩ := hb
    obtain ⟨hu, he⟩ := h.file_iff.mp hb
    exact ⟨hu, (congrArg Prod.fst he).symm⟩

theorem firstNamed_iff (h : Mirrors s d) :
    FirstNamed s name i ↔ FirstAt (nameArg name) i.val d.files := by
  rw [FirstNamed, FirstAt, h.named_iff]
  refine and_congr_right fun _ => ⟨fun hb j hj e he hn => ?_, fun hb j hj hn => ?_⟩
  · have hfirst := hb ⟨j, hj.trans i.isLt⟩ hj
    rw [h.named_iff] at hfirst
    exact hfirst ⟨e.2, by rw [he, ← hn]⟩
  · obtain ⟨bytes, he⟩ := h.named_iff.mp hn
    exact hb j.val hj _ he rfl

theorem find_none_iff (h : Mirrors s d) :
    (findName s name slots).1 = none ↔ nameArg name ∉ d.names := by
  rw [findName_none_iff]
  constructor
  · intro hnone hmem
    obtain ⟨e, he, hn⟩ := List.mem_map.mp hmem
    obtain ⟨i, hu, rfl⟩ := (mem_of_contents d.room h).mp he
    have hlen := (s i).nameStr_length
    exact hnone i (List.mem_finRange i) hu ((isCStr_iff_leading (n := 32) (by omega)).mpr hn.symm)
  · intro hmem j _ hu hc
    obtain ⟨bytes, hb⟩ := h.named_iff.mp ⟨hu, hc⟩
    exact hmem (List.mem_map.mpr ⟨_, List.mem_of_getElem? hb, rfl⟩)

theorem findFree_eq (h : Mirrors s d) :
    findFree s = if hr : d.files.length < 32 then some ⟨d.files.length, hr⟩ else none := by
  split_ifs with hr
  · cases hf : findFree s with
    | none => exact absurd (h.used_iff.mp ((findFree_none_iff s).mp hf ⟨_, hr⟩)) (Nat.lt_irrefl _)
    | some i =>
      obtain ⟨hi, hbefore⟩ := findFree_some s hf
      have hge : ¬ i.val < d.files.length := fun hlt => by
        rw [h.used_iff.mpr hlt] at hi
        cases hi
      have hle : ¬ d.files.length < i.val := fun hlt =>
        absurd (h.used_iff.mp (hbefore ⟨_, hr⟩ hlt)) (Nat.lt_irrefl _)
      exact congrArg some (Fin.ext (Nat.le_antisymm (Nat.not_lt.mp hle) (Nat.not_lt.mp hge)))
  · exact (findFree_none_iff s).mpr fun j => h.used_iff.mpr (by omega)

/-! ### The routines -/

theorem create (h : Mirrors s d) (name : View) :
    (frodfsCreate s (some name)).1 = (d.create (nameArg name)).1 ∧
      Mirrors (frodfsCreate s (some name)).2.1 (d.create (nameArg name)).2 := by
  simp only [frodfsCreate, Disk.create, nameArg_nil_iff]
  by_cases h0 : name 0 = 0
  · simp only [h0, if_true, true_and]
    exact h
  by_cases hn : nameArg name ∈ d.names
  · cases hf : (findName s name slots).1 with
    | none => exact absurd hn (h.find_none_iff.mp hf)
    | some i =>
      simp only [h0, hn, if_true, if_false, true_and]
      exact h
  · simp only [h0, hn, if_false, h.find_none_iff.mpr hn, h.findFree_eq]
    by_cases hr : d.files.length < 32
    · simp only [hr, dite_true, true_and]
      intro j
      change _ = (d.files ++ [((nameArg name).take 31, [])])[j.val]?
      by_cases hj : j.val = d.files.length
      · obtain rfl : j = ⟨d.files.length, hr⟩ := Fin.ext hj
        rw [Function.update_self, List.getElem?_concat_length, FrodfsEntry.contents,
          if_pos (show ((s _).created name).used = true from rfl), FrodfsEntry.created_nameStr,
          FrodfsEntry.created_bytes, take_nameArg]
      · rw [Function.update_of_ne fun he => hj (congrArg Fin.val he), h j]
        rcases Nat.lt_or_gt_of_ne hj with hlt | hgt
        · rw [List.getElem?_append_left hlt]
        · rw [List.getElem?_eq_none hgt.le, List.getElem?_eq_none (by
            rw [List.length_append]
            exact hgt)]
    · simp only [hr, dite_false, true_and]
      exact h

theorem write (h : Mirrors s d) (name buffer : View) (size : U32) :
    let bytes := (List.range size.toNat).map buffer
    (frodfsWrite s (some name) (some buffer) size).1 = (d.write (nameArg name) bytes).1 ∧
      Mirrors (frodfsWrite s (some name) (some buffer) size).2.1 (d.write (nameArg name) bytes).2 := by
  simp only [frodfsWrite, Disk.write, List.length_map, List.length_range]
  by_cases hs : size.toNat ≤ 4096
  · simp only [hs, dite_true]
    cases hf : (findName s name slots).1 with
    | none =>
      simp only [h.find_none_iff.mp hf, if_false, true_and]
      exact h
    | some i =>
      have hfirst := h.firstNamed_iff.mp ((findName_eq_some_iff i).mp hf)
      obtain ⟨old, hold⟩ := hfirst.1
      have hn : nameArg name ∈ d.names := List.mem_map.mpr ⟨_, List.mem_of_getElem? hold, rfl⟩
      obtain ⟨hu, hfile⟩ := h.file_iff.mp hold
      have hname : (s i).nameStr = nameArg name := congrArg Prod.fst hfile
      simp only [hn, if_true, true_and]
      intro j
      change _ = (assign _ _ d.files)[j.val]?
      rw [hfirst.assign_eq]
      by_cases hj : j = i
      · subst hj
        rw [Function.update_self, List.getElem?_set_self (h.used_iff.mp hu), FrodfsEntry.contents,
          FrodfsEntry.written_nameStr, FrodfsEntry.written_bytes]
        exact (if_pos hu).trans (congrArg some (Prod.ext hname rfl))
      · rw [Function.update_of_ne hj, List.getElem?_set_ne fun he => hj (Fin.ext he).symm]
        exact h j
  · simp only [hs, dite_false, true_and]
    exact h

theorem read (h : Mirrors s d) (name : View) (m : Ram) {buffer out_size : U32} (max_size : U32)
    (hb : buffer ≠ 0) (ho : out_size ≠ 0) :
    (frodfsRead s m (some name) buffer max_size out_size).1 = (d.read (nameArg name) max_size.toNat).1 ∧
      (frodfsRead s m (some name) buffer max_size out_size).2.1 =
        match (d.read (nameArg name) max_size.toNat).2 with
        | some bytes =>
          store32 (writeBytes m buffer (cstr bytes) bytes.length) out_size (BitVec.ofNat 32 bytes.length)
        | none => m := by
  simp only [frodfsRead, hb, ho, or_self, if_false, Disk.read]
  cases hf : (findName s name slots).1 with
  | none => simp only [lookup_eq_none_iff.mpr (h.find_none_iff.mp hf), and_self]
  | some i =>
    have hfirst := h.firstNamed_iff.mp ((findName_eq_some_iff i).mp hf)
    obtain ⟨hu, -⟩ := h.named_iff.mpr hfirst.1
    have hfound : lookup (nameArg name) d.files = some (s i).bytes := by
      rw [hfirst.lookup_eq, h.file_iff.mpr ⟨hu, rfl⟩]
      rfl
    have hcount := readBytes_toNat (s i).size max_size
    rw [Nat.min_comm] at hcount
    simp only [hfound, true_and, List.length_take, FrodfsEntry.bytes_length]
    rw [← hcount, BitVec.ofNat_toNat, BitVec.setWidth_eq]
    congr 1
    apply writeBytes_congr
    intro j hj
    have hle := (s i).size_le
    have hjs : j < (s i).size.toNat := by omega
    have hjm : j < max_size.toNat := by omega
    simp [cstr, FrodfsEntry.dataView, FrodfsEntry.bytes, hjs, hjm, show j < 4096 by omega]

end Mirrors

end FrodOS
