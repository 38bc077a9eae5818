import Mathlib.Data.List.Basic

/-!
# Lists searched from the front

Entries under keys that need not be distinct. A search takes the first entry with its key,
a new value goes to that entry, and entries are added at the end.
-/

namespace Lib

variable {κ ν : Type} [DecidableEq κ]

def lookup (k : κ) : List (κ × ν) → Option ν
  | [] => none
  | e :: l => if e.1 = k then some e.2 else lookup k l

def assign (k : κ) (v : ν) : List (κ × ν) → List (κ × ν)
  | [] => []
  | e :: l => if e.1 = k then (e.1, v) :: l else e :: assign k v l

/-- Entry `i` is the first one with the key `k`. -/
def FirstAt (k : κ) (i : ℕ) (l : List (κ × ν)) : Prop :=
  (∃ v, l[i]? = some (k, v)) ∧ ∀ j < i, ∀ e, l[j]? = some e → e.1 ≠ k

variable {k k' : κ} {v v' : ν} {l : List (κ × ν)} {i : ℕ}

@[simp] theorem keys_assign : (assign k v l).map Prod.fst = l.map Prod.fst := by
  induction l with
  | nil => rfl
  | cons e l ih =>
    rw [assign]
    split_ifs
    · rfl
    · rw [List.map_cons, List.map_cons, ih]

@[simp] theorem length_assign : (assign k v l).length = l.length := by
  have hkeys := congrArg List.length (keys_assign (k := k) (v := v) (l := l))
  rwa [List.length_map, List.length_map] at hkeys

theorem value_of_mem_assign {e : κ × ν} (h : e ∈ assign k v l) : e ∈ l ∨ e.2 = v := by
  induction l with
  | nil => cases h
  | cons f l ih =>
    rw [assign] at h
    split_ifs at h
    · rcases List.mem_cons.mp h with rfl | h
      · exact Or.inr rfl
      · exact Or.inl (List.mem_cons_of_mem _ h)
    · rcases List.mem_cons.mp h with rfl | h
      · exact Or.inl List.mem_cons_self
      · exact (ih h).imp_left (List.mem_cons_of_mem _)

theorem lookup_eq_find? : lookup k l = (l.find? fun e => e.1 = k).map Prod.snd := by
  induction l with
  | nil => rfl
  | cons e l ih =>
    rw [lookup, List.find?_cons]
    by_cases he : e.1 = k
    · rw [if_pos he, decide_eq_true he, Option.map_some]
    · rw [if_neg he, decide_eq_false he, ih]

theorem lookup_eq_none_iff : lookup k l = none ↔ k ∉ l.map Prod.fst := by
  induction l with
  | nil => exact ⟨fun _ => List.not_mem_nil, fun _ => rfl⟩
  | cons e l ih =>
    rw [lookup, List.map_cons, List.mem_cons, not_or, ← ih]
    split_ifs with he
    · exact ⟨nofun, fun h => absurd he.symm h.1⟩
    · exact ⟨fun h => ⟨fun h' => he h'.symm, h⟩, fun h => h.2⟩

theorem lookup_assign_self (h : k ∈ l.map Prod.fst) : lookup k (assign k v l) = some v := by
  induction l with
  | nil => cases h
  | cons e l ih =>
    rw [assign]
    split_ifs with he
    · exact if_pos he
    · rw [List.map_cons, List.mem_cons] at h
      rw [lookup, if_neg he]
      exact ih (h.resolve_left fun h' => he h'.symm)

theorem lookup_assign_of_ne (h : k' ≠ k) : lookup k' (assign k v l) = lookup k' l := by
  induction l with
  | nil => rfl
  | cons e l ih =>
    rw [assign]
    split_ifs with he
    · have hne : e.1 ≠ k' := fun h' => h (h'.symm.trans he)
      rw [lookup, if_neg hne, lookup, if_neg hne]
    · rw [lookup, lookup, ih]

theorem lookup_concat : lookup k (l ++ [(k', v)]) = (lookup k l).or (if k' = k then some v else none) := by
  induction l with
  | nil => rfl
  | cons e l ih =>
    rw [List.cons_append, lookup, lookup]
    by_cases he : e.1 = k
    · rw [if_pos he, if_pos he, Option.some_or]
    · rw [if_neg he, if_neg he, ih]

/-! ### By index -/

omit [DecidableEq κ] in
theorem FirstAt.tail {e : κ × ν} (h : FirstAt k (i + 1) (e :: l)) : e.1 ≠ k ∧ FirstAt k i l := by
  obtain ⟨⟨v, hv⟩, hbefore⟩ := h
  refine ⟨hbefore 0 (Nat.succ_pos i) e rfl, ⟨v, hv⟩, fun j hj e' he' => ?_⟩
  exact hbefore (j + 1) (Nat.succ_lt_succ hj) e' he'

theorem FirstAt.lookup_eq (h : FirstAt k i l) : lookup k l = l[i]?.map Prod.snd := by
  induction l generalizing i with
  | nil =>
    obtain ⟨⟨v, hv⟩, -⟩ := h
    cases hv
  | cons e l ih =>
    cases i with
    | zero =>
      obtain ⟨⟨v, hv⟩, -⟩ := h
      obtain rfl := Option.some.inj hv
      exact if_pos rfl
    | succ i =>
      obtain ⟨hne, hrest⟩ := h.tail
      rw [lookup, if_neg hne, ih hrest]
      rfl

theorem FirstAt.assign_eq (h : FirstAt k i l) : assign k v l = l.set i (k, v) := by
  induction l generalizing i with
  | nil => rfl
  | cons e l ih =>
    cases i with
    | zero =>
      obtain ⟨⟨w, hw⟩, -⟩ := h
      obtain rfl := Option.some.inj hw
      exact if_pos rfl
    | succ i =>
      obtain ⟨hne, hrest⟩ := h.tail
      rw [assign, if_neg hne, ih hrest]
      rfl

end Lib
