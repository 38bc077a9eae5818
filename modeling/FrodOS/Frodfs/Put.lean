import FrodOS.Frodfs.FileTable

/-!
# Create, then write

The boot import calls `frodfs_create` and `frodfs_write` one after the other and
looks at neither return code. On the map that is `put`, which has five outcomes;
in one of them an empty file is left behind.
-/

namespace FrodOS
open Lib

namespace FileTable

def put (M : FileTable) (n d : List Byte) : FileTable := ((M.create n).2.write n d).2

variable {M : FileTable} {n d : List Byte}

theorem put_of_mem (hk : n ∈ M.keys) :
    M.put n d = if d.length ≤ 4096 then M.replace n d else M := by
  by_cases hd : d.length ≤ 4096
  · simp only [put, create, hk, dite_true, write, show ¬ 4096 < d.length by omega, if_false, if_true, hd]
  · simp only [put, create, hk, dite_true, write, show 4096 < d.length by omega, if_true, hd, if_false]

theorem put_of_full (hk : n ∉ M.keys) (hr : ¬ M.entries.length < 32) : M.put n d = M := by
  simp only [put, create, hk, hr, dite_false, write, if_false]
  split_ifs <;> rfl

/-- With room the name is added, with no contents if they are too long. -/
theorem put_of_room (hk : n ∉ M.keys) (hr : M.entries.length < 32) :
    (M.put n d).entries = M.entries ++ [(n, if d.length ≤ 4096 then d else [])] := by
  have hmem : n ∈ (M.append n [] hk hr).keys := by simp
  have hold : M.entries.map (BoundedMap.setEntry n d) = M.entries :=
    congrArg BoundedMap.entries (M.replace_of_not_mem d hk)
  by_cases hd : d.length ≤ 4096
  · simp only [put, create, hk, hr, dite_true, dite_false, write, show ¬ 4096 < d.length by omega,
      if_false, hmem, if_true, hd, BoundedMap.replace_entries, BoundedMap.append_entries, List.map_append,
      hold]
    simp [BoundedMap.setEntry]
  · simp only [put, create, hk, hr, dite_true, dite_false, write, show 4096 < d.length by omega,
      if_true, hd, if_false, BoundedMap.append_entries]

theorem put_eq_self_iff : M.put n d = M ↔
    if n ∈ M.keys then 4096 < d.length ∨ M.find? n = some d else ¬ M.entries.length < 32 := by
  by_cases hk : n ∈ M.keys
  · rw [put_of_mem hk, if_pos hk]
    by_cases hd : d.length ≤ 4096
    · rw [if_pos hd, M.replace_eq_self_iff hk]
      simp only [show ¬ 4096 < d.length by omega, false_or]
    · simp only [hd, if_false, true_iff]
      exact Or.inl (by omega)
  · rw [if_neg hk]
    constructor
    · intro h hr
      have hlen := congrArg (fun M : FileTable => M.entries.length) h
      simp only [put_of_room hk hr, List.length_append, List.length_singleton] at hlen
      omega
    · exact put_of_full hk

theorem mem_keys_put {n' : List Byte} (h : n' ∈ (M.put n d).keys) : n' ∈ M.keys ∨ n' = n := by
  by_cases hk : n ∈ M.keys
  · rw [put_of_mem hk] at h
    split_ifs at h
    · rw [BoundedMap.keys_replace] at h
      exact Or.inl h
    · exact Or.inl h
  · by_cases hr : M.entries.length < 32
    · rw [BoundedMap.keys, put_of_room hk hr, List.map_append] at h
      exact (List.mem_append.mp h).imp_right List.mem_singleton.mp
    · rw [put_of_full hk hr] at h
      exact Or.inl h

end FileTable

/-! ### On the slots -/

theorem frodfsCreate_failed {s : Storage} {name : Option View} (h : (frodfsCreate s name).1 ≠ 0) :
    (frodfsCreate s name).2.1 = s := by
  cases name with
  | none => rfl
  | some name =>
    simp only [frodfsCreate] at h ⊢
    split_ifs at h ⊢
    · rfl
    · cases hf : (findName s name slots).1 with
      | some i => rfl
      | none =>
        cases hr : findFree s with
        | some i => simp only [hf, hr] at h; exact absurd rfl h
        | none => rfl

theorem frodfsWrite_failed {s : Storage} {name buffer : Option View} {size : U32}
    (h : (frodfsWrite s name buffer size).1 ≠ 0) : (frodfsWrite s name buffer size).2.1 = s := by
  cases name with
  | none => rfl
  | some name =>
    cases buffer with
    | none => rfl
    | some buffer =>
      by_cases hs : size.toNat ≤ 4096
      · cases hf : (findName s name slots).1 with
        | some i =>
          simp only [frodfsWrite, hs, dite_true, hf] at h
          exact absurd rfl h
        | none => simp only [frodfsWrite, hs, dite_true, hf]
      · simp only [frodfsWrite, hs, dite_false]

theorem FrodfsEntry.written_self (e : FrodfsEntry) (buffer : View) (size : U32)
    (hs : size.toNat ≤ 4096) (h : e.bytes = (List.range size.toNat).map buffer) :
    e.written buffer size hs = e := by
  have hlen : e.size.toNat = size.toNat := by simpa using congrArg List.length h
  obtain rfl : e.size = size := BitVec.eq_of_toNat_eq hlen
  have hdata : copyIn buffer e.data e.size.toNat hs = e.data := by
    funext j
    rw [copyIn_apply]
    split_ifs with hj
    · have hget := List.getElem_of_eq h (show j.val < e.bytes.length by rw [e.bytes_length]; exact hj)
      rw [e.bytes_getElem] at hget
      simpa using hget.symm
    · rfl
  simp only [written, hdata]

def createWrite (s : Storage) (name : View) (buffer : Option View) (size : U32) : Storage :=
  (frodfsWrite (frodfsCreate s (some name)).2.1 (some name) buffer size).2.1

namespace Represents

variable {s s' : Storage} {M M' : FileTable} {n : List Byte} {name : View}

theorem unique (h : Represents s M) (h' : Represents s M') : M = M' := by
  refine BoundedMap.ext (List.ext_getElem? fun i => ?_)
  by_cases hi : i < 32
  · exact (h ⟨i, hi⟩).symm.trans (h' ⟨i, hi⟩)
  · have hb := M.bounded
    have hb' := M'.bounded
    rw [List.getElem?_eq_none (by omega), List.getElem?_eq_none (by omega)]

theorem put (h : Represents s M) (hc : IsCStr name n) (hpos : n ≠ []) (hlen : n.length ≤ 31)
    (buffer : View) (size : U32) : Represents (createWrite s name (some buffer) size)
      (M.put n ((List.range size.toNat).map buffer)) :=
  ((h.create hc hpos hlen).2.write hc hlen buffer size).2

theorem createWrite_nil (h : Represents s M) (hM : [] ∉ M.keys) (hc : IsCStr name [])
    (buffer : Option View) (size : U32) : createWrite s name buffer size = s := by
  have hcreate : (frodfsCreate s (some name)).2.1 = s := by
    have h0 : name 0 = 0 := hc.nul
    simp only [frodfsCreate, h0, if_true]
  rw [createWrite, hcreate]
  cases buffer with
  | none => rfl
  | some buffer =>
    apply frodfsWrite_failed
    rw [(h.write hc (Nat.zero_le _) buffer size).1]
    simp only [FileTable.write, hM, if_false]
    split_ifs <;> simp

theorem createWrite_eq_iff (h : Represents s M) (hc : IsCStr name n) (hpos : n ≠ [])
    (hlen : n.length ≤ 31) (buffer : View) (size : U32) :
    createWrite s name (some buffer) size = s ↔
      M.put n ((List.range size.toNat).map buffer) = M := by
  have hput := h.put hc hpos hlen buffer size
  constructor
  · intro he
    rw [he] at hput
    exact hput.unique h
  · intro he
    rw [FileTable.put_eq_self_iff] at he
    have hcode := (h.create hc hpos hlen).1
    have hcreate : (frodfsCreate s (some name)).2.1 = s := by
      apply frodfsCreate_failed
      rw [hcode]
      by_cases hk : n ∈ M.keys
      · simp only [FileTable.create, hk, dite_true]
        decide
      · rw [if_neg hk] at he
        simp only [FileTable.create, hk, he, dite_false]
        decide
    rw [createWrite, hcreate]
    by_cases hk : n ∈ M.keys
    · rw [if_pos hk, List.length_map, List.length_range] at he
      by_cases hs : size.toNat ≤ 4096
      · obtain ⟨i, hi, hu, hn⟩ := h.find_some hc hk
        have hd : M.find? n = some (s i).bytes :=
          (M.find?_eq_some_iff n _).mpr ((h.mem_entries_iff _).mpr ⟨i, hu, hn, rfl⟩)
        have hbytes : (s i).bytes = (List.range size.toNat).map buffer := by
          rcases he with he | he
          · omega
          · rw [hd] at he
            exact Option.some.inj he
        simp only [frodfsWrite, hs, dite_true, hi, (s i).written_self buffer size hs hbytes,
          Function.update_eq_self]
      · simp only [frodfsWrite, hs, dite_false]
    · apply frodfsWrite_failed
      rw [(h.write hc hlen buffer size).1]
      simp only [FileTable.write, hk, if_false]
      split_ifs <;> simp

end Represents
end FrodOS
