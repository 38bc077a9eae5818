import FrodOS.Lib.FirstMatch
import Mathlib.Data.List.Nodup

/-!
# Insertion-ordered maps of bounded size

The entries of a map in the order in which their keys were added, at most `cap`
of them and no key twice.
-/

namespace Lib

@[ext] structure BoundedMap (κ ν : Type) (cap : ℕ) where
  entries : List (κ × ν)
  nodup : (entries.map Prod.fst).Nodup
  bounded : entries.length ≤ cap

namespace BoundedMap

variable {κ ν : Type} {cap : ℕ}

def empty : BoundedMap κ ν cap := ⟨[], List.nodup_nil, Nat.zero_le _⟩

def keys (M : BoundedMap κ ν cap) : List κ := M.entries.map Prod.fst

def append (M : BoundedMap κ ν cap) (k : κ) (v : ν) (hk : k ∉ M.keys)
    (hroom : M.entries.length < cap) : BoundedMap κ ν cap where
  entries := M.entries ++ [(k, v)]
  nodup := by
    have hd : List.Disjoint M.keys [k] := by simpa using hk
    simpa [keys] using M.nodup.append (List.nodup_singleton k) hd
  bounded := by simpa using Nat.succ_le_of_lt hroom

@[simp] theorem append_entries (M : BoundedMap κ ν cap) (k : κ) (v : ν) (hk : k ∉ M.keys)
    (hroom : M.entries.length < cap) : (M.append k v hk hroom).entries = M.entries ++ [(k, v)] := rfl

@[simp] theorem keys_append (M : BoundedMap κ ν cap) (k : κ) (v : ν) (hk : k ∉ M.keys)
    (hroom : M.entries.length < cap) : (M.append k v hk hroom).keys = M.keys ++ [k] :=
  List.map_append ..

section
variable [DecidableEq κ]

instance decidableMemKeys (M : BoundedMap κ ν cap) (k : κ) : Decidable (k ∈ M.keys) :=
  inferInstanceAs (Decidable (k ∈ M.entries.map Prod.fst))

def find? (M : BoundedMap κ ν cap) (k : κ) : Option ν :=
  (M.entries.find? fun e => e.1 = k).map Prod.snd

def setEntry (k : κ) (v : ν) (e : κ × ν) : κ × ν := if e.1 = k then (e.1, v) else e

theorem map_fst_setEntry (k : κ) (v : ν) (l : List (κ × ν)) :
    (l.map (setEntry k v)).map Prod.fst = l.map Prod.fst := by
  have hfst : Prod.fst ∘ setEntry k v = (Prod.fst : κ × ν → κ) := by
    funext e
    simp only [Function.comp_apply, setEntry]
    split_ifs <;> rfl
  rw [List.map_map, hfst]

/-- A new value for a key that is there; nothing for one that is not. -/
def replace (M : BoundedMap κ ν cap) (k : κ) (v : ν) : BoundedMap κ ν cap where
  entries := M.entries.map (setEntry k v)
  nodup := by
    rw [map_fst_setEntry]
    exact M.nodup
  bounded := by simpa using M.bounded

@[simp] theorem replace_entries (M : BoundedMap κ ν cap) (k : κ) (v : ν) :
    (M.replace k v).entries = M.entries.map (setEntry k v) := rfl

@[simp] theorem keys_replace (M : BoundedMap κ ν cap) (k : κ) (v : ν) : (M.replace k v).keys = M.keys :=
  map_fst_setEntry k v M.entries

theorem replace_of_not_mem (M : BoundedMap κ ν cap) {k : κ} (v : ν) (hk : k ∉ M.keys) :
    M.replace k v = M := by
  refine BoundedMap.ext ((List.map_congr_left fun e he => ?_).trans (List.map_id _))
  exact if_neg fun hn => hk (List.mem_map.mpr ⟨e, he, hn⟩)

theorem mem_replace_iff (M : BoundedMap κ ν cap) {k k' : κ} {v v' : ν} (hk : k ∈ M.keys) :
    (k', v') ∈ (M.replace k v).entries ↔ if k' = k then v' = v else (k', v') ∈ M.entries := by
  rw [replace_entries, List.mem_map]
  by_cases he : k' = k
  · rw [if_pos he, he]
    constructor
    · intro h
      obtain ⟨e, _, hs⟩ := h
      unfold setEntry at hs
      split_ifs at hs with hn
      · exact (congrArg Prod.snd hs).symm
      · exact absurd (congrArg Prod.fst hs) hn
    · rintro rfl
      obtain ⟨e, hm, rfl⟩ := List.mem_map.mp hk
      exact ⟨e, hm, if_pos rfl⟩
  · rw [if_neg he]
    constructor
    · intro h
      obtain ⟨e, hm, hs⟩ := h
      unfold setEntry at hs
      split_ifs at hs with hn
      · exact absurd ((congrArg Prod.fst hs).symm.trans hn) he
      · rwa [← hs]
    · intro hm
      exact ⟨_, hm, if_neg he⟩

theorem find?_eq_some_iff (M : BoundedMap κ ν cap) (k : κ) (v : ν) :
    M.find? k = some v ↔ (k, v) ∈ M.entries := by
  have hinj : ∀ e ∈ M.entries, ∀ e' ∈ M.entries, e.1 = e'.1 → e = e' :=
    List.inj_on_of_nodup_map M.nodup
  constructor
  · intro h
    obtain ⟨e, he, rfl⟩ := Option.map_eq_some_iff.mp h
    have hk : e.1 = k := by simpa using List.find?_some he
    subst hk
    exact List.mem_of_find?_eq_some he
  · intro h
    cases hf : M.entries.find? fun e => e.1 = k with
    | none => exact absurd (List.find?_eq_none.mp hf _ h) (by simp)
    | some e =>
      have hk : e.1 = k := by simpa using List.find?_some hf
      have he := hinj e (List.mem_of_find?_eq_some hf) _ h hk
      simp [find?, hf, he]

/-! ### The entries as a list -/

theorem lookup_entries (M : BoundedMap κ ν cap) (k : κ) : lookup k M.entries = M.find? k := lookup_eq_find?

/-- Where no key is there twice the first entry of a key is the only one. -/
theorem assign_eq_map {k : κ} {v : ν} {l : List (κ × ν)} (h : (l.map Prod.fst).Nodup) :
    assign k v l = l.map (setEntry k v) := by
  induction l with
  | nil => rfl
  | cons e l ih =>
    obtain ⟨hfresh, hrest⟩ := List.nodup_cons.mp h
    rw [assign, List.map_cons, setEntry]
    by_cases he : e.1 = k
    · have hothers : l.map (setEntry k v) = l.map id := List.map_congr_left fun f hf =>
        if_neg fun hk => hfresh (he.symm ▸ List.mem_map.mpr ⟨f, hf, hk⟩)
      rw [if_pos he, if_pos he, hothers, List.map_id]
    · rw [if_neg he, if_neg he, ih hrest]

theorem assign_entries (M : BoundedMap κ ν cap) (k : κ) (v : ν) :
    assign k v M.entries = (M.replace k v).entries := assign_eq_map M.nodup

theorem find?_append_of_ne (M : BoundedMap κ ν cap) {k k' : κ} (v : ν) (hk : k ∉ M.keys)
    (hroom : M.entries.length < cap) (hne : k' ≠ k) :
    (M.append k v hk hroom).find? k' = M.find? k' := by
  ext u
  rw [find?_eq_some_iff, find?_eq_some_iff, append_entries, List.mem_append]
  simp [hne]

theorem find?_replace_of_ne (M : BoundedMap κ ν cap) {k k' : κ} (v : ν) (hne : k' ≠ k) :
    (M.replace k v).find? k' = M.find? k' := by
  by_cases hk : k ∈ M.keys
  · ext u
    rw [find?_eq_some_iff, find?_eq_some_iff, mem_replace_iff M hk, if_neg hne]
  · rw [replace_of_not_mem M v hk]

theorem find?_replace_self (M : BoundedMap κ ν cap) {k : κ} (v : ν) (hk : k ∈ M.keys) :
    (M.replace k v).find? k = some v := by
  rw [find?_eq_some_iff, mem_replace_iff M hk, if_pos rfl]

theorem replace_eq_self_iff (M : BoundedMap κ ν cap) {k : κ} {v : ν} (hk : k ∈ M.keys) :
    M.replace k v = M ↔ M.find? k = some v := by
  constructor
  · intro h
    rw [← h]
    exact M.find?_replace_self v hk
  · intro h
    refine BoundedMap.ext ((List.map_congr_left (g := id) fun e he => ?_).trans (List.map_id _))
    unfold setEntry
    split_ifs with hn
    · have hv : M.find? k = some e.2 := (M.find?_eq_some_iff k e.2).mpr (by rwa [← hn])
      rw [h] at hv
      rw [Option.some.inj hv]
      rfl
    · rfl

end

end BoundedMap
end Lib
