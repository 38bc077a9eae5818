import FrodOS.Frodfs.Storage

/-!
# Slots

What the scans of frodfs.c find in the array, and the name and content of a slot after a
routine.
-/

namespace FrodOS
open Lib

/-! ### The scans -/

theorem fsStrcmp_eq_zero_iff (e : FrodfsEntry) (name : View) :
    (fsStrcmp e.nameView name).1 = 0 ↔ IsCStr name e.nameStr :=
  strcmp_eq_zero_iff e.isCStr_nameStr (by have := e.nameStr_length; omega)

open Classical in
theorem findName_cons (s : Storage) (name : View) (j : Fin 32) (l : List (Fin 32)) :
    (findName s name (j :: l)).1 =
      if (s j).used = true ∧ IsCStr name (s j).nameStr then some j else (findName s name l).1 := by
  by_cases hu : (s j).used = true
  · by_cases hc : IsCStr name (s j).nameStr
    · simp only [findName, hu, if_true, (fsStrcmp_eq_zero_iff _ _).mpr hc, hc, and_self]
    · have hz : (fsStrcmp (s j).nameView name).1 ≠ 0 := fun h => hc ((fsStrcmp_eq_zero_iff _ _).mp h)
      simp only [findName, hu, if_true, hz, if_false, hc, and_false]
  · simp only [findName, hu, if_false, false_and, Bool.false_eq_true]

theorem findName_some (s : Storage) (name : View) {l : List (Fin 32)} {i : Fin 32}
    (h : (findName s name l).1 = some i) :
    i ∈ l ∧ (s i).used = true ∧ IsCStr name (s i).nameStr := by
  induction l with
  | nil => cases h
  | cons j l ih =>
    rw [findName_cons] at h
    split_ifs at h with hc
    · obtain rfl : j = i := Option.some.inj h
      exact ⟨List.mem_cons_self .., hc⟩
    · obtain ⟨hm, hr⟩ := ih h
      exact ⟨List.mem_cons_of_mem _ hm, hr⟩

theorem findName_none_iff (s : Storage) (name : View) (l : List (Fin 32)) :
    (findName s name l).1 = none ↔
      ∀ i ∈ l, (s i).used = true → ¬ IsCStr name (s i).nameStr := by
  induction l with
  | nil => simp [findName]
  | cons j l ih =>
    rw [findName_cons, List.forall_mem_cons, ← ih]
    split_ifs with hc
    · simp [hc]
    · simp only [not_and] at hc
      simp only [iff_and_self]
      exact fun _ => hc

theorem findFree_none_iff (s : Storage) : findFree s = none ↔ ∀ i, (s i).used = true := by
  simp [findFree, List.find?_eq_none]

theorem findFree_some (s : Storage) {i : Fin 32} (h : findFree s = some i) :
    (s i).used = false ∧ ∀ j < i, (s j).used = true := by
  obtain ⟨hi, k, hk, hki, hj⟩ := List.find?_eq_some_iff_getElem.mp h
  obtain rfl : k = i.val := by simpa using congrArg Fin.val hki
  exact ⟨by simpa using hi, fun j hlt => by simpa using hj j.val hlt⟩

/-! ### Slots after a routine -/

namespace FrodfsEntry

theorem created_nameStr (e : FrodfsEntry) (name : View) :
    (e.created name).nameStr = leading name 31 := by
  obtain ⟨_, hle, _, _⟩ := strlen_spec name 31 0
  have hv : IsCStr (e.created name).nameView (leading name 31) := by
    refine ⟨leading_nonzero name 31, fun i hi => ?_, ?_⟩
    · rw [leading_getElem]
      rw [leading_length] at hi
      simp [nameView, created, fsStrncpy_apply, show i < 32 by omega, hi]
    · simp [nameView, created, fsStrncpy_apply, leading_length, show strlen name 31 0 < 32 by omega]
  exact ((e.created name).isCStr_nameStr.unique hv)

theorem created_bytes (e : FrodfsEntry) (name : View) : (e.created name).bytes = [] := by
  simp [bytes, created]

theorem written_nameStr (e : FrodfsEntry) (buffer : View) (size : U32) (h : size.toNat ≤ 4096) :
    (e.written buffer size h).nameStr = e.nameStr := rfl

theorem written_bytes (e : FrodfsEntry) (buffer : View) (size : U32) (h : size.toNat ≤ 4096) :
    (e.written buffer size h).bytes = (List.range size.toNat).map buffer := by
  apply List.ext_getElem (by simp [written])
  intro j hj _
  have hjs : j < size.toNat := by simpa [written] using hj
  rw [bytes_getElem]
  simp [written, copyIn_apply, hjs]

def contents (e : FrodfsEntry) : Option (List Byte × List Byte) :=
  if e.used then some (e.nameStr, e.bytes) else none

theorem contents_eq_some_iff (e : FrodfsEntry) {file : List Byte × List Byte} :
    e.contents = some file ↔ e.used = true ∧ (e.nameStr, e.bytes) = file := by
  unfold contents
  by_cases hu : e.used = true
  · rw [if_pos hu, Option.some.injEq]
    exact ⟨fun he => ⟨hu, he⟩, fun he => he.2⟩
  · rw [if_neg hu]
    exact ⟨fun he => (by cases he), fun he => absurd he.1 hu⟩

end FrodfsEntry

/-- The files of an array that holds a list are those of the list. -/
theorem mem_of_contents {s : Storage} {files : List (List Byte × List Byte)} (hroom : files.length ≤ 32)
    (h : ∀ i : Fin 32, (s i).contents = files[i.val]?) {file : List Byte × List Byte} :
    file ∈ files ↔ ∃ i, (s i).used = true ∧ ((s i).nameStr, (s i).bytes) = file := by
  simp only [← FrodfsEntry.contents_eq_some_iff, h]
  constructor
  · intro hm
    obtain ⟨k, hk, he⟩ := List.getElem_of_mem hm
    exact ⟨⟨k, hk.trans_le hroom⟩, List.getElem?_eq_some_iff.mpr ⟨hk, he⟩⟩
  · intro hc
    obtain ⟨i, hi⟩ := hc
    exact List.mem_of_getElem? hi

end FrodOS
