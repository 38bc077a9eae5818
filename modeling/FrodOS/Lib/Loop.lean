import Mathlib.Data.Fintype.EquivFin
import Mathlib.Logic.Relation

/-!
# Loops

A C loop as a body that is passed through again and again. A pass goes round
once more, leaves with a result, or never ends itself (`none`, an inner loop
that runs for ever). `loop` makes at most `fuel` passes; `Returns` says that
some number of passes is enough, and `Reached` collects the states at the loop
head.
-/

namespace Lib

inductive Ctl (σ ρ : Type) where
  | next (s : σ)
  | done (r : ρ)

variable {σ ρ : Type}

def loop (body : σ → Option (Ctl σ ρ)) : ℕ → σ → Option ρ
  | 0, _ => none
  | fuel + 1, s =>
    match body s with
    | none => none
    | some (.next s') => loop body fuel s'
    | some (.done r) => some r

def Returns (body : σ → Option (Ctl σ ρ)) (s : σ) (r : ρ) : Prop := ∃ fuel, loop body fuel s = some r

inductive Reached (body : σ → Option (Ctl σ ρ)) (s₀ : σ) : σ → Prop where
  | start : Reached body s₀ s₀
  | pass {s s' : σ} (h : Reached body s₀ s) (hb : body s = some (.next s')) : Reached body s₀ s'

/-- The states at the loop head in at most `fuel` passes, in their order. -/
def visited (body : σ → Option (Ctl σ ρ)) : ℕ → σ → List σ
  | 0, _ => []
  | fuel + 1, s =>
    match body s with
    | some (.next s') => s :: visited body fuel s'
    | _ => [s]

variable {body : σ → Option (Ctl σ ρ)} {s s' s₀ : σ} {r r' : ρ}

theorem loop_mono {m n : ℕ} (h : m ≤ n) (hr : loop body m s = some r) : loop body n s = some r := by
  induction m generalizing n s with
  | zero => cases hr
  | succ m ih =>
    obtain ⟨k, rfl⟩ : ∃ k, n = k + 1 := ⟨n - 1, by omega⟩
    rw [loop] at hr ⊢
    cases hb : body s with
    | none => simp only [hb] at hr; cases hr
    | some c =>
      cases c with
      | next t =>
        simp only [hb] at hr ⊢
        exact ih (by omega) hr
      | done q =>
        simp only [hb] at hr ⊢
        exact hr

/-- A body that gets further wherever another ends a pass returns what the other does. -/
theorem loop_mono_body {body' : σ → Option (Ctl σ ρ)} (h : ∀ s c, body s = some c → body' s = some c)
    {n : ℕ} (hr : loop body n s = some r) : loop body' n s = some r := by
  induction n generalizing s with
  | zero => cases hr
  | succ n ih =>
    rw [loop] at hr ⊢
    cases hb : body s with
    | none => simp only [hb] at hr; cases hr
    | some c =>
      cases c with
      | next t =>
        simp only [hb, h s _ hb] at hr ⊢
        exact ih hr
      | done q =>
        simp only [hb, h s _ hb] at hr ⊢
        exact hr

theorem Reached.trans (h : Reached body s₀ s) (h' : Reached body s s') : Reached body s₀ s' := by
  induction h' with
  | start => exact h
  | pass _ hb ih => exact ih.pass hb

/-- Bodies that agree wherever the loop comes do the same. -/
theorem loop_congr_reached {body' : σ → Option (Ctl σ ρ)} (h : ∀ t, Reached body s t → body' t = body t)
    (n : ℕ) : loop body' n s = loop body n s := by
  induction n generalizing s with
  | zero => rfl
  | succ n ih =>
    rw [loop, loop, h s .start]
    cases hb : body s with
    | none => rfl
    | some c =>
      cases c with
      | next t => exact ih fun u hu => h u ((Reached.start.pass hb).trans hu)
      | done q => rfl

theorem Returns.unique (h : Returns body s r) (h' : Returns body s r') : r = r' := by
  obtain ⟨m, hm⟩ := h
  obtain ⟨n, hn⟩ := h'
  have hm' := loop_mono (Nat.le_max_left m n) hm
  have hn' := loop_mono (Nat.le_max_right m n) hn
  exact Option.some.inj (hm'.symm.trans hn')

theorem Returns.of_done (hb : body s = some (.done r)) : Returns body s r :=
  ⟨1, by simp only [loop, hb]⟩

theorem Returns.of_next (hb : body s = some (.next s')) (h : Returns body s' r) :
    Returns body s r := by
  obtain ⟨n, hn⟩ := h
  exact ⟨n + 1, by simp only [loop, hb, hn]⟩

theorem Reached.invariant (h : Reached body s₀ s) (Inv : σ → Prop) (h₀ : Inv s₀)
    (hpass : ∀ s s', Inv s → body s = some (.next s') → Inv s') : Inv s := by
  induction h with
  | start => exact h₀
  | pass _ hb ih => exact hpass _ _ ih hb

theorem Reached.eq_of_done (h : Reached body s₀ s) (hd : body s₀ = some (.done r)) : s = s₀ := by
  induction h with
  | start => rfl
  | pass _ hb ih =>
    rw [ih, hd] at hb
    cases hb

theorem Reached.of_next (h : Reached body s₀ s) (hb : body s₀ = some (.next s')) : s = s₀ ∨ Reached body s' s := by
  induction h with
  | start => exact Or.inl rfl
  | pass h hp ih =>
    rcases ih with rfl | hreached
    · rw [hp] at hb
      obtain rfl := Ctl.next.inj (Option.some.inj hb)
      exact Or.inr .start
    · exact Or.inr (hreached.pass hp)

theorem Reached.returns (h : Reached body s₀ s) (hr : Returns body s r) : Returns body s₀ r := by
  induction h with
  | start => exact hr
  | pass _ hb ih => exact ih (.of_next hb hr)

theorem Returns.exit (h : Returns body s r) :
    ∃ t, Reached body s t ∧ body t = some (.done r) := by
  obtain ⟨n, hn⟩ := h
  induction n generalizing s with
  | zero => cases hn
  | succ n ih =>
    rw [loop] at hn
    cases hb : body s with
    | none => simp only [hb] at hn; cases hn
    | some c =>
      cases c with
      | next t =>
        simp only [hb] at hn
        obtain ⟨u, hu, hd⟩ := ih hn
        exact ⟨u, (Reached.start.pass hb).trans hu, hd⟩
      | done q =>
        simp only [hb, Option.some.injEq] at hn
        exact ⟨s, .start, by rw [hb, hn]⟩

/-- What every pass keeps holds of the result, by way of the state it leaves from. -/
theorem Returns.invariant (h : Returns body s₀ r) (Inv : σ → Prop) (Q : ρ → Prop) (h₀ : Inv s₀)
    (hpass : ∀ s s', Inv s → body s = some (.next s') → Inv s')
    (hdone : ∀ s, Inv s → body s = some (.done r) → Q r) : Q r := by
  obtain ⟨t, ht, hd⟩ := h.exit
  exact hdone t (ht.invariant Inv h₀ hpass) hd

/-- A loop whose invariant makes every pass end and come closer to the end returns,
with as many passes as the measure bounds. -/
theorem loop_of_measure (body : σ → Option (Ctl σ ρ)) (Inv : σ → Prop) (μ : σ → ℕ)
    (hpass : ∀ s, Inv s → ∃ c, body s = some c ∧ ∀ s', c = .next s' → Inv s' ∧ μ s' < μ s)
    (h₀ : Inv s₀) {n : ℕ} (hn : μ s₀ < n) : ∃ r, loop body n s₀ = some r := by
  induction n generalizing s₀ with
  | zero => omega
  | succ n ih =>
    obtain ⟨c, hb, hc⟩ := hpass s₀ h₀
    rw [loop, hb]
    cases c with
    | done r => exact ⟨r, rfl⟩
    | next t =>
      obtain ⟨ht, hlt⟩ := hc t rfl
      exact ih ht (by omega)

/-- A loop that goes on by a stride or more up to a limit makes no more passes than strides
fit below the limit, and one to leave. -/
theorem loop_of_advance (body : σ → Option (Ctl σ ρ)) (pos : σ → ℕ) {limit stride : ℕ} (hs : 0 < stride)
    (hsome : ∀ s, pos s ≤ limit → ∃ c, body s = some c)
    (hnext : ∀ s s', pos s ≤ limit → body s = some (.next s') → pos s + stride ≤ pos s' ∧ pos s' ≤ limit)
    (h₀ : pos s₀ ≤ limit) {n : ℕ} (hn : (limit - pos s₀) / stride < n) : ∃ r, loop body n s₀ = some r := by
  refine loop_of_measure body (fun s => pos s ≤ limit) (fun s => (limit - pos s) / stride)
    (fun s hle => ?_) h₀ hn
  obtain ⟨c, hc⟩ := hsome s hle
  refine ⟨c, hc, fun s' he => ?_⟩
  obtain ⟨hadv, hle'⟩ := hnext s s' hle (he ▸ hc)
  have hless : (limit - pos s' + stride) / stride ≤ (limit - pos s) / stride :=
    Nat.div_le_div_right (by omega)
  rw [Nat.add_div_right _ hs] at hless
  exact ⟨hle', hless⟩

theorem returns_of_measure (body : σ → Option (Ctl σ ρ)) (Inv : σ → Prop) (μ : σ → ℕ)
    (hpass : ∀ s, Inv s → ∃ c, body s = some c ∧ ∀ s', c = .next s' → Inv s' ∧ μ s' < μ s)
    (h₀ : Inv s₀) : ∃ r, Returns body s₀ r := by
  obtain ⟨r, hr⟩ := loop_of_measure body Inv μ hpass h₀ (Nat.lt_succ_self (μ s₀))
  exact ⟨r, _, hr⟩

open Classical Relation in
/-- A loop that goes from key to key along a relation without cycles, in a finite space
of keys, returns. -/
theorem returns_of_acyclic {κ : Type} [Finite κ] (body : σ → Option (Ctl σ ρ)) (key : σ → κ)
    (R : κ → κ → Prop) (Inv : σ → Prop) (hacyclic : ∀ s, Inv s → ¬ TransGen R (key s) (key s))
    (hpass : ∀ s, Inv s → ∃ c, body s = some c ∧ ∀ s', c = .next s' → Inv s' ∧ R (key s) (key s'))
    (h₀ : Inv s₀) : ∃ r, Returns body s₀ r := by
  have := Fintype.ofFinite κ
  let ahead (s : σ) : Finset κ := Finset.univ.filter fun a => TransGen R (key s) a
  have hmem : ∀ s a, a ∈ ahead s ↔ TransGen R (key s) a := fun s a => Finset.mem_filter_univ a
  refine returns_of_measure body Inv (fun s => (ahead s).card) (fun s hs => ?_) h₀
  obtain ⟨c, hb, hc⟩ := hpass s hs
  refine ⟨c, hb, fun s' he => ?_⟩
  obtain ⟨hs', hstep⟩ := hc s' he
  have hsub : ahead s' ⊆ ahead s := fun a ha => (hmem s a).mpr (.head hstep ((hmem s' a).mp ha))
  have hnew : key s' ∈ ahead s := (hmem s _).mpr (.single hstep)
  have hold : key s' ∉ ahead s' := fun ha => hacyclic s' hs' ((hmem s' _).mp ha)
  exact ⟨hs', Finset.card_lt_card (hsub.ssubset_of_mem_notMem hnew hold)⟩

theorem visited_of_next (hb : body s = some (.next s')) (fuel : ℕ) :
    visited body (fuel + 1) s = s :: visited body fuel s' := by simp only [visited, hb]

theorem visited_of_done (hb : body s = some (.done r)) (fuel : ℕ) : visited body (fuel + 1) s = [s] := by
  simp only [visited, hb]

/-- A loop that returns leaves no reached state stuck and none for ever behind:
from each one it returns the same. -/
theorem Returns.of_reached (h : Returns body s₀ r) (hs : Reached body s₀ s) : Returns body s r := by
  induction hs with
  | start => exact h
  | pass _ hb ih =>
    obtain ⟨n, hn⟩ := ih
    cases n with
    | zero => cases hn
    | succ n =>
      rw [loop] at hn
      simp only [hb] at hn
      exact ⟨n, hn⟩

end Lib
