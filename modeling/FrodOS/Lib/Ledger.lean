import Mathlib.Data.Set.Lattice
import Mathlib.Order.CompletePartialOrder
import Mathlib.Data.List.Perm.Basic
import Mathlib.Data.List.Pairwise

/-!
# Ownership of resources

Cells of type `α` are handed out in blocks. A ledger lists the live blocks; no
two of them share a cell and none has a cell of the `base`, which is never
handed out. `taken` is what may not be handed out now.
-/

namespace Lib

variable {α β : Type}

structure Ledger (cells : β → Set α) (base : Set α) where
  live : List β
  disjoint : live.Pairwise fun x y => Disjoint (cells x) (cells y)
  fresh : ∀ x ∈ live, Disjoint (cells x) base

namespace Ledger

variable {cells : β → Set α} {base : Set α}

def empty : Ledger cells base := ⟨[], .nil, fun _ h => by cases h⟩

def taken (L : Ledger cells base) : Set α := base ∪ {a | ∃ x ∈ L.live, a ∈ cells x}

@[simp] theorem taken_empty : (empty : Ledger cells base).taken = base := by
  simp [taken, empty]

def grant (L : Ledger cells base) (x : β) (h : Disjoint (cells x) L.taken) : Ledger cells base where
  live := x :: L.live
  disjoint := by
    refine List.pairwise_cons.mpr ⟨fun y hy => ?_, L.disjoint⟩
    exact h.mono_right fun a ha => Or.inr ⟨y, hy, ha⟩
  fresh := by
    intro y hy
    rcases List.mem_cons.mp hy with rfl | hy
    · exact h.mono_right fun a ha => Or.inl ha
    · exact L.fresh y hy

theorem taken_grant (L : Ledger cells base) (x : β) (h : Disjoint (cells x) L.taken) :
    (L.grant x h).taken = cells x ∪ L.taken := by
  ext a
  simp only [taken, grant, List.mem_cons, exists_eq_or_imp, Set.mem_union, Set.mem_ofPred_eq]
  tauto

variable [DecidableEq β]

def release (L : Ledger cells base) (x : β) : Ledger cells base where
  live := L.live.erase x
  disjoint := L.disjoint.sublist List.erase_sublist
  fresh y hy := L.fresh y (List.mem_of_mem_erase hy)

theorem disjoint_of_mem_erase (L : Ledger cells base) {x y : β} (hx : x ∈ L.live)
    (hy : y ∈ L.live.erase x) : Disjoint (cells x) (cells y) := by
  have hp : (x :: L.live.erase x).Pairwise fun x y => Disjoint (cells x) (cells y) :=
    ((List.perm_cons_erase hx).pairwise_iff fun {_ _} h => h.symm).mp L.disjoint
  exact (List.pairwise_cons.mp hp).1 y hy

theorem taken_release (L : Ledger cells base) {x : β} (hx : x ∈ L.live) :
    (L.release x).taken = L.taken \ cells x := by
  ext a
  simp only [taken, release, Set.mem_sdiff, Set.mem_union, Set.mem_ofPred_eq]
  constructor
  · rintro (hb | ⟨y, hy, ha⟩)
    · exact ⟨Or.inl hb, fun hax => Set.disjoint_left.mp (L.fresh x hx) hax hb⟩
    · exact ⟨Or.inr ⟨y, List.mem_of_mem_erase hy, ha⟩,
        fun hax => Set.disjoint_left.mp (L.disjoint_of_mem_erase hx hy) hax ha⟩
  · rintro ⟨hb | ⟨y, hy, ha⟩, hax⟩
    · exact Or.inl hb
    · refine Or.inr ⟨y, (List.mem_erase_of_ne ?_).mpr hy, ha⟩
      rintro rfl
      exact hax ha

omit [DecidableEq β] in
/-- A cell outside the base is taken exactly when one live block, and only one, has it. -/
theorem mem_taken_iff (L : Ledger cells base) (a : α) :
    a ∈ L.taken ↔ a ∈ base ∨ ∃! i : Fin L.live.length, a ∈ cells L.live[i] := by
  constructor
  · rintro (hb | ⟨x, hx, ha⟩)
    · exact Or.inl hb
    · obtain ⟨k, hk, rfl⟩ := List.getElem_of_mem hx
      refine Or.inr ⟨⟨k, hk⟩, ha, fun j hj => ?_⟩
      by_contra hne
      have hpw := List.pairwise_iff_getElem.mp L.disjoint
      rcases Nat.lt_or_gt_of_ne fun he => hne (Fin.ext he) with hlt | hlt
      · exact Set.disjoint_left.mp (hpw j.val k j.isLt hk hlt) hj ha
      · exact Set.disjoint_left.mp (hpw k j.val hk j.isLt hlt) ha hj
  · rintro (hb | ⟨i, hi, _⟩)
    · exact Or.inl hb
    · exact Or.inr ⟨_, List.getElem_mem i.isLt, hi⟩

end Ledger
end Lib
