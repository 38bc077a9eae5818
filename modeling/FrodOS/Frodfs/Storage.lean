import FrodOS.Lib.CString
import Mathlib.Data.List.OfFn

/-!
# FrodFS (frodfs.c, frodfs.h)

A table of `FS_MAX_FILES` = 32 entries with names of `FS_MAX_NAME` = 32 bytes
and `FS_MAX_SIZE` = 4096 bytes of data. A string argument is the view of the
bytes behind the pointer, or `none` for the null pointer. Beside its result
each routine says how many bytes it touched behind its pointer arguments.
-/

namespace FrodOS
open Lib

abbrev U32 := BitVec 32

/-- Physical memory; paging is off, so addresses are physical. -/
abbrev Ram := Mem 32

def ptr (m : Ram) (p : U32) : Option View := if p = 0 then none else some (view m p)

theorem ptr_of_ne (m : Ram) {p : U32} (h : p ≠ 0) : ptr m p = some (view m p) := if_neg h

/-- `frodfs_entry_t`. Every name holds a NUL and no size exceeds the data array,
so neither array is read past its end. -/
structure FrodfsEntry where
  name : Fin 32 → Byte
  size : U32
  data : Fin 4096 → Byte
  used : Bool
  name_nul : ∃ i, name i = 0
  size_le : size.toNat ≤ 4096

abbrev Storage := Fin 32 → FrodfsEntry

abbrev slots : List (Fin 32) := List.finRange 32

instance slots_nonempty : NeZero 32 := ⟨by decide⟩

namespace FrodfsEntry

def nameView (e : FrodfsEntry) : View := fun i => if h : i < 32 then e.name ⟨i, h⟩ else 0

def dataView (e : FrodfsEntry) : View := fun j => if h : j < 4096 then e.data ⟨j, h⟩ else 0

def nameStr (e : FrodfsEntry) : List Byte := leading e.nameView 31

def bytes (e : FrodfsEntry) : List Byte :=
  List.ofFn fun j : Fin e.size.toNat => e.data ⟨j, by have := e.size_le; omega⟩

theorem isCStr_nameStr (e : FrodfsEntry) : IsCStr e.nameView e.nameStr := by
  obtain ⟨i, hi⟩ := e.name_nul
  exact isCStr_leading _ 31 ⟨i, by omega, by simpa [nameView] using hi⟩

theorem nameStr_length (e : FrodfsEntry) : e.nameStr.length ≤ 31 := leading_length_le _ _

@[simp] theorem bytes_length (e : FrodfsEntry) : e.bytes.length = e.size.toNat := by simp [bytes]

theorem bytes_getElem (e : FrodfsEntry) (j : ℕ) (h : j < e.bytes.length) :
    e.bytes[j] = e.data ⟨j, by have := e.size_le; rw [bytes_length] at h; omega⟩ := by
  simp [bytes]

end FrodfsEntry

/-! ### String helpers -/

def fsStrcmp (a b : View) : ℤ × ℕ := strcmp 32 a b

/-- The loop of `fs_strncpy(dest, src, 32)` from index `i`, `left` bytes before
the last one of the field. -/
def fsStrncpyFrom (src : View) :
    (left i : ℕ) → i + left = 31 → (Fin 32 → Byte) → (Fin 32 → Byte) × ℕ
  -- i = n - 1: the NUL goes there and src[i] is not looked at
  | 0, i, h, dest => (Function.update dest ⟨i, by omega⟩ 0, i)
  | left + 1, i, h, dest =>
    if src i ≠ 0 then
      fsStrncpyFrom src left (i + 1) (by omega) (Function.update dest ⟨i, by omega⟩ (src i))
    else (Function.update dest ⟨i, by omega⟩ 0, i + 1)

def fsStrncpy (dest : Fin 32 → Byte) (src : View) : (Fin 32 → Byte) × ℕ :=
  fsStrncpyFrom src 31 0 rfl dest

/-! ### The loops over the table -/

def findName (s : Storage) (name : View) : List (Fin 32) → Option (Fin 32) × ℕ
  | [] => (none, 0)
  | i :: is =>
    if (s i).used then
      let c := fsStrcmp (s i).nameView name
      if c.1 = 0 then (some i, c.2)
      else
        let r := findName s name is
        (r.1, max c.2 r.2)
    else findName s name is

def findFree (s : Storage) : Option (Fin 32) := slots.find? fun i => !(s i).used

/-- `for (j = 0; j < n; j++) data[j] = buffer[j];` -/
def copyIn (buffer : View) (data : Fin 4096 → Byte) : (n : ℕ) → n ≤ 4096 → Fin 4096 → Byte
  | 0, _ => data
  | n + 1, h => Function.update (copyIn buffer data n (by omega)) ⟨n, h⟩ (buffer n)

theorem update_fin {n : ℕ} (f : Fin n → Byte) (i : ℕ) (hi : i < n) (v : Byte) (j : Fin n) :
    Function.update f ⟨i, hi⟩ v j = if j.val = i then v else f j := by
  by_cases h : j.val = i
  · obtain rfl : j = ⟨i, hi⟩ := Fin.ext h
    simp
  · rw [Function.update_of_ne (fun he => h (congrArg Fin.val he)), if_neg h]

theorem fsStrncpyFrom_apply (src : View) (left i : ℕ) (h : i + left = 31) (dest : Fin 32 → Byte)
    (j : Fin 32) : (fsStrncpyFrom src left i h dest).1 j =
      if j.val < i then dest j else if j.val < strlen src left i then src j.val
      else if j.val = strlen src left i then 0 else dest j := by
  induction left generalizing i dest with
  | zero =>
    change Function.update dest ⟨i, _⟩ 0 j =
      if j.val < i then dest j else if j.val < i then src j.val else if j.val = i then 0 else dest j
    rw [update_fin]
    by_cases hj : j.val < i
    · simp only [hj, hj.ne, if_true, if_false]
    · simp only [hj, if_false]
  | succ left ih =>
    simp only [fsStrncpyFrom, strlen]
    by_cases hz : src i = 0
    · simp only [hz, ne_eq, not_true_eq_false, if_false, if_true, update_fin]
      by_cases hj : j.val < i
      · simp only [hj, hj.ne, if_true, if_false]
      · simp only [hj, if_false]
    · obtain ⟨hle, _, _, _⟩ := strlen_spec src left (i + 1)
      simp only [hz, ne_eq, not_false_eq_true, if_true, if_false, ih, update_fin]
      -- index i itself was just written
      rcases Nat.lt_trichotomy j.val i with hj | hj | hj
      · rw [if_pos (by omega), if_neg (by omega), if_pos hj]
      · rw [if_pos (by omega), if_pos hj, if_neg (by omega), if_pos (by omega), hj]
      · simp only [show ¬ j.val < i + 1 by omega, show ¬ j.val < i by omega, hj.ne', if_false]

theorem fsStrncpyFrom_seen (src : View) (left i : ℕ) (h : i + left = 31) (dest : Fin 32 → Byte) :
    (fsStrncpyFrom src left i h dest).2 = min (strlen src left i + 1) 31 := by
  induction left generalizing i dest with
  | zero => simp only [fsStrncpyFrom, strlen]; omega
  | succ left ih =>
    simp only [fsStrncpyFrom, strlen]
    by_cases hz : src i = 0
    · simp only [hz, ne_eq, not_true_eq_false, if_false, if_true]; omega
    · simp only [hz, ne_eq, not_false_eq_true, if_true, if_false, ih]

theorem fsStrncpy_apply (dest : Fin 32 → Byte) (src : View) (j : Fin 32) :
    (fsStrncpy dest src).1 j = if j.val < strlen src 31 0 then src j.val
      else if j.val = strlen src 31 0 then 0 else dest j := by
  rw [fsStrncpy, fsStrncpyFrom_apply]
  simp

theorem fsStrncpy_seen (dest : Fin 32 → Byte) (src : View) :
    (fsStrncpy dest src).2 = min (strlen src 31 0 + 1) 31 := fsStrncpyFrom_seen src 31 0 rfl dest

theorem fsStrncpy_nul (dest : Fin 32 → Byte) (src : View) : ∃ i, (fsStrncpy dest src).1 i = 0 := by
  obtain ⟨_, h, _, _⟩ := strlen_spec src 31 0
  exact ⟨⟨strlen src 31 0, by omega⟩, by simp [fsStrncpy_apply]⟩

theorem copyIn_apply (buffer : View) (data : Fin 4096 → Byte) (n : ℕ) (h : n ≤ 4096)
    (j : Fin 4096) : copyIn buffer data n h j = if j.val < n then buffer j.val else data j := by
  induction n with
  | zero => simp [copyIn]
  | succ n ih =>
    simp only [copyIn, update_fin, ih]
    by_cases hj : j.val = n
    · rw [if_pos hj, if_pos (by omega), hj]
    · rw [if_neg hj]
      exact ite_congr (propext (by omega)) (fun _ => rfl) fun _ => rfl

/-! ### What the routines leave in a slot -/

namespace FrodfsEntry

def cleared (e : FrodfsEntry) : FrodfsEntry where
  name := Function.update e.name 0 0
  size := 0
  data := e.data
  used := false
  name_nul := ⟨0, by simp⟩
  size_le := by simp

def created (e : FrodfsEntry) (name : View) : FrodfsEntry where
  name := (fsStrncpy e.name name).1
  size := 0
  data := e.data
  used := true
  name_nul := fsStrncpy_nul e.name name
  size_le := by simp

def written (e : FrodfsEntry) (buffer : View) (size : U32) (h : size.toNat ≤ 4096) : FrodfsEntry :=
  { e with data := copyIn buffer e.data size.toNat h, size := size, size_le := h }

end FrodfsEntry

def bootStorage : Storage := fun _ => ⟨fun _ => 0, 0, fun _ => 0, false, ⟨0, rfl⟩, by decide⟩

/-! ### The routines -/

def frodfsInit (s : Storage) : Storage := fun i => (s i).cleared

/-- `frodfs_create`: the return code, the table, and how far `name` was read. -/
def frodfsCreate (s : Storage) : Option View → ℤ × Storage × ℕ
  | none => (-1, s, 0)
  | some name =>
    if name 0 = 0 then (-1, s, 1)
    else
      let f := findName s name slots
      match f.1 with
      | some _ => (-2, s, max 1 f.2)
      | none =>
        match findFree s with
        | some i => (0, Function.update s i ((s i).created name),
            max (max 1 f.2) (fsStrncpy (s i).name name).2)
        | none => (-3, s, max 1 f.2)

/-- `frodfs_write`: the return code, the table, and how far `name` and `buffer` were read. -/
def frodfsWrite (s : Storage) (name buffer : Option View) (size : U32) : ℤ × Storage × ℕ × ℕ :=
  match name, buffer with
  | some name, some buffer =>
    if h : size.toNat ≤ 4096 then
      let f := findName s name slots
      match f.1 with
      | some i => (0, Function.update s i ((s i).written buffer size h), f.2, size.toNat)
      | none => (-2, s, f.2, 0)
    else (-1, s, 0, 0)
  | _, _ => (-1, s, 0, 0)

theorem readBytes_toNat (size max_size : U32) :
    (if size > max_size then max_size else size).toNat = min size.toNat max_size.toNat := by
  split_ifs with hgt
  · have hlt : max_size.toNat < size.toNat := hgt
    omega
  · have hle : size.toNat ≤ max_size.toNat := BitVec.not_lt.mp hgt
    omega

/-- `frodfs_read`: the return code, memory, how far `name` was read and how many
bytes went to `buffer`; `*out_size` is set when the code is 0. -/
def frodfsRead (s : Storage) (m : Ram) (name : Option View) (buffer max_size out_size : U32) :
    ℤ × Ram × ℕ × ℕ :=
  match name with
  | some name =>
    if buffer = 0 ∨ out_size = 0 then (-1, m, 0, 0)
    else
      let f := findName s name slots
      match f.1 with
      | some i =>
        let readBytes := if (s i).size > max_size then max_size else (s i).size
        let m₁ := writeBytes m buffer (s i).dataView readBytes.toNat
        (0, store32 m₁ out_size readBytes, f.2, readBytes.toNat)
      | none => (-2, m, f.2, 0)
  | none => (-1, m, 0, 0)

/-- The loop of `frodfs_list`: index and memory after the slots in turn. The
index and the lengths stay far below `2 ^ 32`. -/
def frodfsListFrom (s : Storage) (out max_bytes : U32) : List (Fin 32) → ℕ → Ram → ℕ × Ram
  | [], idx, m => (idx, m)
  | i :: is, idx, m =>
    if (s i).used then
      let len := strlen (s i).nameView 31 0
      if idx + len + 2 ≥ max_bytes.toNat then (idx, m)
      else
        let m₁ := writeBytes m (off out idx) (s i).nameView len
        let m₂ := Function.update m₁ (off out (idx + len)) 10
        frodfsListFrom s out max_bytes is (idx + len + 1) m₂
    else frodfsListFrom s out max_bytes is idx m

/-- `frodfs_list`: the return code, memory, and how many bytes of the buffer were written. -/
def frodfsList (s : Storage) (m : Ram) (out max_bytes : U32) : ℤ × Ram × ℕ :=
  if out = 0 ∨ max_bytes = 0 then (-1, m, 0)
  else
    let r := frodfsListFrom s out max_bytes slots 0 (Function.update m out 0)
    (0, Function.update r.2 (off out r.1) 0, r.1 + 1)

end FrodOS
