import Mathlib.Logic.Function.Basic
import Mathlib.Data.Int.Init
import Mathlib.Tactic.Common

/-!
# Circular buffers

A ring of `n` slots with the index of the next free slot, the head, and of the oldest
full one, the tail. One slot stays free, so that equal indices mean an empty ring.
`Holds` says which queue a ring stands for; pushing appends to it and popping takes
its front.
-/

namespace Lib

variable {α : Type} {n : ℕ} {buf : ℤ → α} {head tail : ℤ} {q : List α} {c : α}

structure Holds (n : ℕ) (buf : ℤ → α) (head tail : ℤ) (q : List α) : Prop where
  nonneg : 0 ≤ tail
  lt : tail < n
  room : q.length < n
  head_eq : head = (tail + q.length) % n
  slots : ∀ i (h : i < q.length), buf ((tail + i) % n) = q[i]

/-- The slots from the tail up to the head. -/
def contents (n : ℕ) (buf : ℤ → α) (head tail : ℤ) : List α :=
  (List.range ((head - tail) % n).toNat).map fun i : ℕ => buf ((tail + (i : ℤ)) % n)

namespace Holds

theorem nil (buf : ℤ → α) (h0 : 0 ≤ tail) (hlt : tail < n) : Holds n buf tail tail [] where
  nonneg := h0
  lt := hlt
  room := by
    rw [List.length_nil]
    omega
  head_eq := by
    rw [List.length_nil, Int.natCast_zero, Int.add_zero, Int.emod_eq_of_lt h0 hlt]
  slots i h := absurd h (Nat.not_lt_zero i)

theorem head_nonneg (h : Holds n buf head tail q) : 0 ≤ head := by
  have hn := h.nonneg
  have hlt := h.lt
  rw [h.head_eq]
  exact Int.emod_nonneg _ (by omega)

theorem head_lt (h : Holds n buf head tail q) : head < n := by
  have hn := h.nonneg
  have hlt := h.lt
  rw [h.head_eq]
  exact Int.emod_lt_of_pos _ (by omega)

theorem mod_cases (h : Holds n buf head tail q) {k : ℕ} (hk : k ≤ n) :
    (tail + k) % n = if tail + k < n then tail + k else tail + k - n := by
  have hn := h.nonneg
  have hlt := h.lt
  split_ifs with hc
  · exact Int.emod_eq_of_lt (by omega) hc
  · rw [← Int.sub_emod_right]
    exact Int.emod_eq_of_lt (by omega) (by omega)

theorem contents_eq (h : Holds n buf head tail q) : contents n buf head tail = q := by
  have hroom := h.room
  have hlen : ((head - tail) % n).toNat = q.length := by
    have hsub : (tail + q.length) % n - tail = (tail + q.length) % n - tail % n := by
      rw [Int.emod_eq_of_lt h.nonneg h.lt]
    have hcancel : tail + q.length - tail = q.length := by omega
    rw [h.head_eq, hsub, ← Int.sub_emod, hcancel, Int.emod_eq_of_lt (by omega) (by omega),
      Int.toNat_natCast]
  apply List.ext_getElem
  · rw [contents, List.length_map, List.length_range, hlen]
  · intro i _ hi
    simp only [contents, List.getElem_map, List.getElem_range]
    exact h.slots i hi

theorem empty_iff (h : Holds n buf head tail q) : head = tail ↔ q = [] := by
  have hroom := h.room
  have hlt := h.lt
  rw [← List.length_eq_zero_iff, h.head_eq, h.mod_cases (by omega)]
  split_ifs <;> omega

theorem full_iff (h : Holds n buf head tail q) : (head + 1) % n = tail ↔ q.length + 1 = n := by
  have hroom := h.room
  have hlt := h.lt
  have hn := h.nonneg
  have hnext : (head + 1) % n = (tail + (q.length + 1 : ℕ)) % n := by
    rw [h.head_eq, Int.emod_add_emod, Int.natCast_add, Int.natCast_one, Int.add_assoc]
  rw [hnext, h.mod_cases (by omega)]
  split_ifs <;> omega

theorem front (h : Holds n buf head tail (c :: q)) : buf tail = c := by
  have hslot := h.slots 0 (by simp)
  rw [Int.natCast_zero, Int.add_zero, Int.emod_eq_of_lt h.nonneg h.lt] at hslot
  exact hslot

theorem push (h : Holds n buf head tail q) (hroom : q.length + 1 < n) (c : α) :
    Holds n (Function.update buf head c) ((head + 1) % n) tail (q ++ [c]) where
  nonneg := h.nonneg
  lt := h.lt
  room := by
    rw [List.length_append]
    exact hroom
  head_eq := by
    rw [h.head_eq, Int.emod_add_emod, List.length_append, List.length_singleton, Int.natCast_add,
      Int.natCast_one, Int.add_assoc]
  slots i hi := by
    rw [List.length_append, List.length_singleton] at hi
    have hn := h.nonneg
    have hlt := h.lt
    by_cases hlast : i = q.length
    · subst hlast
      rw [← h.head_eq, Function.update_self, List.getElem_append_right (Nat.le_refl _)]
      simp
    · -- an older slot is not the one that the head names
      have hne : (tail + i) % n ≠ head := by
        rw [h.head_eq, h.mod_cases (by omega), h.mod_cases (by omega)]
        split_ifs <;> omega
      rw [Function.update_of_ne hne, List.getElem_append_left (by omega)]
      exact h.slots i (by omega)

theorem pop (h : Holds n buf head tail (c :: q)) : Holds n buf head ((tail + 1) % n) q := by
  have hn := h.nonneg
  have hlt := h.lt
  have hroom := h.room
  rw [List.length_cons] at hroom
  have hmod : ∀ k : ℕ, ((tail + 1) % n + k) % n = (tail + (k + 1 : ℕ)) % n := fun k => by
    rw [Int.emod_add_emod, Int.natCast_add, Int.natCast_one, Int.add_assoc, Int.add_comm 1]
  refine ⟨Int.emod_nonneg _ (by omega), Int.emod_lt_of_pos _ (by omega), by omega, ?_, fun i hi => ?_⟩
  · rw [hmod, h.head_eq, List.length_cons]
  · rw [hmod, h.slots (i + 1) (by rw [List.length_cons]; omega), List.getElem_cons_succ]

end Holds

end Lib
