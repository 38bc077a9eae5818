import Mathlib.Logic.Function.Basic
import Mathlib.Tactic.Common

/-!
# Runs of updates

A loop over the indices of a table, and a sequence of writes of which the last one to a
key counts.
-/

namespace Lib

variable {σ α β γ : Type}

/-- An invariant of a bounded loop, indexed by the passes done. -/
theorem fin_foldl_invariant {n : ℕ} (P : ℕ → σ → Prop) {f : σ → Fin n → σ} {s : σ} (h0 : P 0 s)
    (hstep : ∀ (i : Fin n) (s : σ), P i s → P (i + 1) (f s i)) : P n (Fin.foldl n f s) := by
  induction n with
  | zero => exact h0
  | succ n ih =>
    have hbefore := ih fun i s hi => hstep i.castSucc s hi
    rw [Fin.foldl_succ_last]
    exact hstep (Fin.last n) _ hbefore

theorem fin_foldl_update {n : ℕ} (f g : Fin n → α) :
    Fin.foldl n (fun g i => Function.update g i (f i)) g = f := by
  have hdone := fin_foldl_invariant (fun m (g : Fin n → α) => ∀ j : Fin n, j < m → g j = f j)
    (f := fun g i => Function.update g i (f i)) (s := g) (fun j hj => absurd hj (Nat.not_lt_zero j))
    fun i g hi j hj => by
      by_cases he : j = i
      · rw [he, Function.update_self]
      · have hne : j.val ≠ i.val := fun hv => he (Fin.ext hv)
        rw [Function.update_of_ne he]
        exact hi j (by omega)
  funext j
  exact hdone j j.isLt

/-- The last write to a key is what is found there. -/
theorem foldl_update_eq [DecidableEq β] (key : α → β) (val : α → γ) (ws : List α) (f : β → γ) (b : β) :
    ws.foldl (fun g w => Function.update g (key w) (val w)) f b =
      ((ws.reverse.find? fun w => key w = b).map val).getD (f b) := by
  induction ws generalizing f with
  | nil => rfl
  | cons w ws ih =>
    rw [List.foldl_cons, ih, List.reverse_cons, List.find?_append]
    cases ws.reverse.find? fun w => key w = b with
    | some w' => rfl
    | none =>
      by_cases he : key w = b
      · simp [he]
      · simp [he, Function.update_of_ne (Ne.symm he)]

end Lib
