import FrodOS.Frodfs.Extent
import FrodOS.Frodfs.Naming
import Mathlib.Data.List.GetD

/-!
# A file of its own name

A slot whose name no other one has is what every call with that name finds. It keeps its
content until it is written, and no name of more than 31 bytes finds anything.
-/

namespace FrodOS
open Lib

structure FreshName (s : Storage) (n : List Byte) : Prop where
  pos : n ≠ []
  short : n.length ≤ 31
  fresh : ∀ i, (s i).used = true → (s i).nameStr ≠ n
  room : ∃ i, (s i).used = false

/-- Slot `i` is the only one of its name, and holds this file. -/
structure HoldsFile (s : Storage) (n file : List Byte) (i : Fin 32) : Prop where
  used : (s i).used = true
  name : (s i).nameStr = n
  bytes : (s i).bytes = file
  only : ∀ j, j ≠ i → (s j).used = true → (s j).nameStr ≠ n

theorem HoldsFile.firstNamed {s : Storage} {n file : List Byte} {i : Fin 32} (h : HoldsFile s n file i)
    {name : View} (hn : IsCStr name n) : FirstNamed s name i := by
  refine ⟨⟨h.used, h.name ▸ hn⟩, fun j hj hc => ?_⟩
  exact h.only j hj.ne hc.1 (hc.2.unique hn)

theorem frodfsCreate_fresh {s : Storage} {n : List Byte} (hf : FreshName s n) {name : View}
    (hn : IsCStr name n) : ∃ i, (frodfsCreate s (some name)).1 = 0 ∧
      HoldsFile (frodfsCreate s (some name)).2.1 n [] i := by
  have h0 : name 0 ≠ 0 := hn.ne_zero (List.length_pos_of_ne_nil hf.pos)
  have hnone : (findName s name slots).1 = none := (findName_none_iff s name slots).mpr
    fun i _ hu hc => hf.fresh i hu (hc.unique hn)
  cases hr : findFree s with
  | none =>
    obtain ⟨i, hi⟩ := hf.room
    rw [(findFree_none_iff s).mp hr i] at hi
    cases hi
  | some i =>
    have hfree := (findFree_some s hr).1
    simp only [frodfsCreate, h0, if_false, hnone, hr, true_and]
    refine ⟨i, ?_, ?_, ?_, fun j hj hu => ?_⟩
    · rw [Function.update_self]
      rfl
    · rw [Function.update_self, FrodfsEntry.created_nameStr, hn.leading_eq hf.short]
    · rw [Function.update_self, FrodfsEntry.created_bytes]
    · rw [Function.update_of_ne hj] at hu ⊢
      exact hf.fresh j hu

theorem frodfsWrite_file {s : Storage} {n old file : List Byte} {i : Fin 32} (h : HoldsFile s n old i)
    (hlen : file.length ≤ 4096) {name source : View} (hn : IsCStr name n)
    (hs : ∀ j < file.length, source j = file.getD j 0) :
    let w := frodfsWrite s (some name) (some source) (BitVec.ofNat 32 file.length)
    w.1 = 0 ∧ HoldsFile w.2.1 n file i := by
  have hsize : (BitVec.ofNat 32 file.length).toNat = file.length := by
    rw [BitVec.toNat_ofNat, Nat.mod_eq_of_lt (by omega)]
  have hfind := (findName_eq_some_iff i).mpr (h.firstNamed hn)
  have hle : (BitVec.ofNat 32 file.length).toNat ≤ 4096 := by omega
  simp only [frodfsWrite, hle, dite_true, hfind, true_and]
  refine ⟨?_, ?_, ?_, fun j hj hu => ?_⟩
  · rw [Function.update_self]
    exact h.used
  · rw [Function.update_self, FrodfsEntry.written_nameStr, h.name]
  · rw [Function.update_self, FrodfsEntry.written_bytes, hsize]
    apply List.ext_getElem (by simp)
    intro j hj hj'
    simp [hs j hj', hj']
  · rw [Function.update_of_ne hj] at hu ⊢
    exact h.only j hj hu

/-- A creation that succeeds leaves an empty file of its own name, if the name fits. -/
theorem frodfsCreate_held {s : Storage} {n : List Byte} {name : View} (hn : IsCStr name n) (hpos : n ≠ [])
    (hshort : n.length ≤ 31) (h : (frodfsCreate s (some name)).1 = 0) :
    ∃ i, HoldsFile (frodfsCreate s (some name)).2.1 n [] i := by
  have h0 : name 0 ≠ 0 := hn.ne_zero (List.length_pos_of_ne_nil hpos)
  simp only [frodfsCreate, h0, if_false] at h
  cases hf : (findName s name slots).1 with
  | some i =>
    rw [hf] at h
    dsimp only at h
    omega
  | none =>
    rw [hf] at h
    have hfresh : ∀ i, (s i).used = true → (s i).nameStr ≠ n := fun i hu he =>
      (findName_none_iff s name slots).mp hf i (List.mem_finRange i) hu (by rwa [he])
    cases hr : findFree s with
    | none =>
      rw [hr] at h
      dsimp only at h
      omega
    | some i =>
      obtain ⟨j, -, hheld⟩ := frodfsCreate_fresh
        ⟨hpos, hshort, hfresh, i, (findFree_some s hr).1⟩ hn
      exact ⟨j, hheld⟩

theorem HoldsFile.write_other {s : Storage} {n file : List Byte} {i : Fin 32} (h : HoldsFile s n file i)
    {w : List Byte} {name : View} (hw : IsCStr name w) (hne : w ≠ n) (source : View) (size : U32) :
    HoldsFile (frodfsWrite s (some name) (some source) size).2.1 n file i := by
  unfold frodfsWrite
  dsimp only
  split_ifs with hs
  · cases hf : (findName s name slots).1 with
    | none => exact h
    | some j =>
      have hj := (findName_some s name hf).2
      have hji : i ≠ j := fun he => hne (by
        rw [← h.name, he]
        exact hw.unique hj.2)
      dsimp only
      refine ⟨?_, ?_, ?_, fun l hl hu => ?_⟩
      · rw [Function.update_of_ne hji]
        exact h.used
      · rw [Function.update_of_ne hji]
        exact h.name
      · rw [Function.update_of_ne hji]
        exact h.bytes
      · by_cases hlj : l = j
        · subst hlj
          rw [Function.update_self, FrodfsEntry.written_nameStr]
          exact h.only l hl hj.1
        · rw [Function.update_of_ne hlj] at hu ⊢
          exact h.only l hl hu
  · exact h

theorem dataView_eq_getD (e : FrodfsEntry) {j : ℕ} (hj : j < e.size.toNat) :
    e.dataView j = e.bytes.getD j 0 := by
  have hle := e.size_le
  have hlen := e.bytes_length
  rw [List.getD_eq_getElem _ _ (by omega), e.bytes_getElem]
  simp only [FrodfsEntry.dataView, show j < 4096 by omega, dite_true]

theorem findName_long (s : Storage) {n : List Byte} {name : View} (hn : IsCStr name n)
    (hlong : 31 < n.length) : (findName s name slots).1 = none := by
  rw [findName_none_iff]
  intro i _ _ hi
  exact nameStr_ne_long s hlong i (hi.unique hn)

theorem frodfsRead_none {s : Storage} {name : View} (h : (findName s name slots).1 = none) (m : Ram)
    {buffer out_size : U32} (max_size : U32) (hb : buffer ≠ 0) (ho : out_size ≠ 0) :
    (frodfsRead s m (some name) buffer max_size out_size).1 = -2 := by
  simp only [frodfsRead, hb, ho, or_self, if_false, h]

theorem HoldsFile.read {s : Storage} {n file : List Byte} {i : Fin 32} (h : HoldsFile s n file i)
    {name : View} (hn : IsCStr name n) (m : Ram) {buffer out_size : U32} (max_size : U32) (hb : buffer ≠ 0)
    (ho : out_size ≠ 0) (hmax : file.length ≤ max_size.toNat) :
    let r := frodfsRead s m (some name) buffer max_size out_size
    r.1 = 0 ∧ r.2.1 = store32 (writeBytes m buffer (cstr file) file.length) out_size
      (BitVec.ofNat 32 file.length) := by
  have hfind := (findName_eq_some_iff i).mpr (h.firstNamed hn)
  have hsize : (s i).size.toNat = file.length := by
    rw [← h.bytes, FrodfsEntry.bytes_length]
  have hread : (if (s i).size > max_size then max_size else (s i).size) = BitVec.ofNat 32 file.length := by
    apply BitVec.eq_of_toNat_eq
    rw [readBytes_toNat, hsize, Nat.min_eq_left hmax, BitVec.toNat_ofNat,
      Nat.mod_eq_of_lt (by rw [← hsize]; exact (s i).size.isLt)]
  simp only [frodfsRead, hb, ho, or_self, if_false, hfind, hread, true_and]
  congr 1
  rw [BitVec.toNat_ofNat, Nat.mod_eq_of_lt (by omega)]
  apply writeBytes_congr
  intro j hj
  rw [dataView_eq_getD _ (by omega), h.bytes]
  rfl

end FrodOS
