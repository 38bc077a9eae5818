import Mathlib.Data.List.Forall2

/-!
# Machines that answer

A machine takes an input, moves and answers. `trace` pairs the inputs of a run
with the answers; `final` is the state after it. A step lemma about two machines
lifts to runs by `simulates`, one about two properties by `along_iff_of_invariant`.
-/

namespace Lib

variable {σ τ ι κ ο π : Type}

def final (step : σ → ι → σ × ο) : σ → List ι → σ
  | s, [] => s
  | s, i :: is => final step (step s i).1 is

def trace (step : σ → ι → σ × ο) : σ → List ι → List (ι × ο)
  | _, [] => []
  | s, i :: is => (i, (step s i).2) :: trace step (step s i).1 is

theorem final_append (step : σ → ι → σ × ο) (s : σ) (is js : List ι) :
    final step s (is ++ js) = final step (final step s is) js := by
  induction is generalizing s with
  | nil => rfl
  | cons i is ih => exact ih _

/-- Forward simulation: related states and matching inputs give matching answers
and related states, step by step and hence over a run. -/
theorem simulates (step : σ → ι → σ × ο) (step' : τ → κ → τ × π) (R : σ → τ → Prop)
    (Q : ι → κ → Prop) (A : ι × ο → κ × π → Prop)
    (hstep : ∀ s t i k, R s t → Q i k →
      R (step s i).1 (step' t k).1 ∧ A (i, (step s i).2) (k, (step' t k).2))
    (s : σ) (t : τ) (is : List ι) (ks : List κ) (hR : R s t) (hQ : List.Forall₂ Q is ks) :
    R (final step s is) (final step' t ks) ∧
      List.Forall₂ A (trace step s is) (trace step' t ks) := by
  induction hQ generalizing s t with
  | nil => exact ⟨hR, .nil⟩
  | cons hq _ ih =>
    obtain ⟨hR', hA⟩ := hstep s t _ _ hR hq
    obtain ⟨hF, hT⟩ := ih _ _ hR'
    exact ⟨hF, .cons hA hT⟩

/-! ### Steps of a run -/

/-- Every step of the run is taken from a state and with an input that `P` holds of. -/
def Along (step : σ → ι → σ × ο) (P : σ → ι → Prop) : σ → List ι → Prop
  | _, [] => True
  | s, i :: is => P s i ∧ Along step P (step s i).1 is

/-- Two properties of steps that agree wherever an invariant holds agree along a run,
if the steps with the first of them keep the invariant. -/
theorem along_iff_of_invariant {step : σ → ι → σ × ο} {V P Q : σ → ι → Prop} (Inv : σ → Prop)
    (hiff : ∀ s i, Inv s → V s i → (P s i ↔ Q s i))
    (hkeep : ∀ s i, Inv s → V s i → P s i → Inv (step s i).1) {s : σ} {is : List ι} (hs : Inv s)
    (hV : Along step V s is) : Along step P s is ↔ Along step Q s is := by
  induction is generalizing s with
  | nil => exact Iff.rfl
  | cons i is ih =>
    obtain ⟨hv, hV⟩ := hV
    constructor
    · intro h
      exact ⟨(hiff s i hs hv).mp h.1, (ih (hkeep s i hs hv h.1) hV).mp h.2⟩
    · intro h
      have hp := (hiff s i hs hv).mpr h.1
      exact ⟨hp, (ih (hkeep s i hs hv hp) hV).mpr h.2⟩

theorem along_append (step : σ → ι → σ × ο) (P : σ → ι → Prop) (s : σ) (is js : List ι) :
    Along step P s (is ++ js) ↔ Along step P s is ∧ Along step P (final step s is) js := by
  induction is generalizing s with
  | nil => exact iff_of_eq (true_and _).symm
  | cons i is ih => exact (and_congr_right fun _ => ih _).trans and_assoc.symm

theorem along_congr {step : σ → ι → σ × ο} {P Q : σ → ι → Prop} (h : ∀ s i, P s i ↔ Q s i) (s : σ)
    (is : List ι) : Along step P s is ↔ Along step Q s is := by
  induction is generalizing s with
  | nil => exact Iff.rfl
  | cons i is ih => exact and_congr (h s i) (ih _)

/-- What every step changes by some updates, a run changes by updates. -/
theorem final_updates (step : σ → ι → σ × ο) (P : σ → ι → Prop) (view : σ → τ) (f : τ → κ → τ)
    (hstep : ∀ s i, P s i → ∃ ks : List κ, view (step s i).1 = ks.foldl f (view s)) {s : σ} {is : List ι}
    (h : Along step P s is) : ∃ ks : List κ, view (final step s is) = ks.foldl f (view s) := by
  induction is generalizing s with
  | nil => exact ⟨[], rfl⟩
  | cons i is ih =>
    obtain ⟨ks, hone⟩ := hstep s i h.1
    obtain ⟨more, hrest⟩ := ih h.2
    refine ⟨ks ++ more, ?_⟩
    rw [final, hrest, hone, List.foldl_append]

/-- Inputs that leave related states related may come or not. -/
theorem final_filter (step : σ → ι → σ × ο) (R : σ → σ → Prop) (Allowed : ι → Prop) (seen : ι → Bool)
    (hskip : ∀ s t i, R s t → Allowed i → seen i = false → R (step s i).1 t)
    (hkeep : ∀ s t i, R s t → Allowed i → seen i = true → R (step s i).1 (step t i).1) {s t : σ}
    (h : R s t) {is : List ι} (his : ∀ i ∈ is, Allowed i) :
    R (final step s is) (final step t (is.filter seen)) := by
  induction is generalizing s t with
  | nil => exact h
  | cons i is ih =>
    obtain ⟨hone, hrest⟩ := List.forall_mem_cons.mp his
    cases hi : seen i with
    | true =>
      rw [List.filter_cons_of_pos hi]
      exact ih (hkeep s t i h hone hi) hrest
    | false =>
      rw [List.filter_cons_of_neg (by rw [hi]; exact Bool.false_ne_true)]
      exact ih (hskip s t i h hone hi) hrest

end Lib
