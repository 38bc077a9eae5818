import FrodOS.Lib.Run
import Mathlib.Data.Finset.Card

/-!
# A supply that only shrinks

Cells are taken from a finite supply and never given back. What is taken step by step is
taken once, and what is left is the supply less all of it.
-/

namespace Lib

variable {α σ ι ο : Type} [DecidableEq α]

structure Takes (free : Finset α) (cells : List α) (free' : Finset α) : Prop where
  nodup : cells.Nodup
  subset : ∀ a ∈ cells, a ∈ free
  left : free' = free \ cells.toFinset

namespace Takes

variable {free free' free'' : Finset α} {cells cells' : List α}

theorem nil (free : Finset α) : Takes free [] free :=
  ⟨.nil, nofun, by rw [List.toFinset_nil, Finset.sdiff_empty]⟩

theorem one {a : α} (h : a ∈ free) : Takes free [a] (free.erase a) where
  nodup := List.nodup_singleton a
  subset b hb := by
    rw [List.mem_singleton.mp hb]
    exact h
  left := by rw [List.toFinset_cons, List.toFinset_nil, insert_empty_eq, Finset.sdiff_singleton_eq_erase]

theorem append (h : Takes free cells free') (h' : Takes free' cells' free'') :
    Takes free (cells ++ cells') free'' where
  nodup := by
    refine h.nodup.append h'.nodup fun a ha ha' => ?_
    have hleft := h'.subset a ha'
    rw [h.left, Finset.mem_sdiff] at hleft
    exact hleft.2 (List.mem_toFinset.mpr ha)
  subset a ha := by
    rcases List.mem_append.mp ha with ha | ha
    · exact h.subset a ha
    · have hleft := h'.subset a ha
      rw [h.left, Finset.mem_sdiff] at hleft
      exact hleft.1
  left := by
    rw [h'.left, h.left, List.toFinset_append, Finset.sdiff_sdiff_left']
    ext a
    simp only [Finset.mem_sdiff, Finset.mem_inter, Finset.mem_union, not_or]
    tauto

theorem card (h : Takes free cells free') : free'.card + cells.length = free.card := by
  have hsub : cells.toFinset ⊆ free := fun a ha => h.subset a (List.mem_toFinset.mp ha)
  have hle := Finset.card_le_card hsub
  rw [h.left, Finset.card_sdiff_of_subset hsub, ← List.toFinset_card_of_nodup h.nodup]
  omega

/-- What the steps of a run take adds up, if each step that `P` holds of takes. -/
theorem run {step : σ → ι → σ × ο} {P : σ → ι → Prop} (supply : σ → Finset α) (taken : ο → List α)
    (hstep : ∀ s i, P s i → Takes (supply s) (taken (step s i).2) (supply (step s i).1)) {s : σ} {is : List ι}
    (h : Along step P s is) :
    Takes (supply s) ((trace step s is).flatMap fun x => taken x.2) (supply (final step s is)) := by
  induction is generalizing s with
  | nil => exact nil (supply s)
  | cons i is ih => exact (hstep s i h.1).append (ih h.2)

end Takes

end Lib
