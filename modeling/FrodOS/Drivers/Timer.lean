import FrodOS.Lib.Memory

/-!
# The timer driver (timer.c)

IRQ 0 counts ticks of 10 ms. A call of `sleep` reads the counter once, for its target,
and then once in each test of its loop; any number of interrupts may come between two
tests.
-/

namespace FrodOS
open Lib

/-- `timer_callback`, on `system_ticks` -/
def timerCallback (system_ticks : BitVec 32) : BitVec 32 := system_ticks + 1

def ticksToWait (ms : BitVec 32) : BitVec 32 :=
  let ticks_to_wait := ms / 10
  if ticks_to_wait = 0 ∧ 0 < ms then 1 else ticks_to_wait

/-- A call of `sleep` that has its target. -/
structure SleepCall where
  (system_ticks target_ticks : BitVec 32)
  returned : Bool

inductive SleepEvent where
  | interrupt
  /-- `system_ticks < target_ticks` -/
  | test
  deriving DecidableEq

namespace SleepCall

def enter (system_ticks ms : BitVec 32) : SleepCall :=
  ⟨system_ticks, system_ticks + ticksToWait ms, false⟩

def step (s : SleepCall) : SleepEvent → SleepCall
  | .interrupt => { s with system_ticks := timerCallback s.system_ticks }
  | .test => if s.system_ticks < s.target_ticks then s else { s with returned := true }

def run (s : SleepCall) (es : List SleepEvent) : SleepCall := es.foldl step s

/-- The call returns after `n` ticks and not before. -/
def Waits (s : SleepCall) (n : ℕ) : Prop :=
  (∀ es, (s.run es).returned = true → n ≤ es.count .interrupt) ∧
    ∀ es, es.count .interrupt = n → (s.run (es ++ [.test])).returned = true

theorem run_append (s : SleepCall) (es fs : List SleepEvent) : s.run (es ++ fs) = (s.run es).run fs :=
  List.foldl_append ..

theorem ticksToWait_toNat {ms : BitVec 32} (h : 0 < ms) : (ticksToWait ms).toNat = max 1 (ms.toNat / 10) := by
  have hdiv : (ms / 10).toNat = ms.toNat / 10 := BitVec.toNat_udiv
  have hzero : ms / 10 = 0 ↔ ms.toNat / 10 = 0 := by
    rw [← BitVec.toNat_inj, hdiv]
    rfl
  rw [ticksToWait]
  by_cases hshort : ms / 10 = 0
  · rw [if_pos ⟨hshort, h⟩, hzero.mp hshort]
    rfl
  · rw [if_neg fun hc => hshort hc.1, hdiv]
    have hne : ms.toNat / 10 ≠ 0 := fun he => hshort (hzero.mpr he)
    omega

/-- After `k` ticks of a call that waits for `n` from the counter value `start`. -/
structure Counted (start n k : ℕ) (s : SleepCall) : Prop where
  counter : s.system_ticks.toNat = (start + k) % 2 ^ 32
  target : s.target_ticks.toNat = start + n
  waited : s.returned = true → n ≤ k

variable {start n k : ℕ} {s : SleepCall}

theorem Counted.step (h : s.Counted start n k) (e : SleepEvent) :
    (s.step e).Counted start n (k + [e].count .interrupt) := by
  have hcounter := h.counter
  have htarget := h.target
  have hlt := s.target_ticks.isLt
  cases e with
  | interrupt =>
    refine ⟨?_, htarget, fun hr => Nat.le_succ_of_le (h.waited hr)⟩
    change (s.system_ticks + 1).toNat = (start + (k + 1)) % 2 ^ 32
    rw [BitVec.toNat_add, hcounter, ← Nat.add_assoc]
    exact Nat.mod_add_mod ..
  | test =>
    unfold SleepCall.step
    split_ifs with hless
    · exact h
    · -- below the target the counter has not wrapped
      have hge : s.target_ticks.toNat ≤ s.system_ticks.toNat := BitVec.not_lt.mp hless
      exact ⟨hcounter, htarget, fun _ => show n ≤ k by omega⟩

theorem Counted.run (es : List SleepEvent) (h : s.Counted start n k) :
    (s.run es).Counted start n (k + es.count .interrupt) := by
  induction es generalizing s k with
  | nil => exact h
  | cons e es ih =>
    have hrest := ih (h.step e)
    rwa [Nat.add_assoc, ← List.count_append, List.singleton_append] at hrest

theorem enter_counted {system_ticks ms : BitVec 32} (hms : 0 < ms)
    (hfit : system_ticks.toNat + max 1 (ms.toNat / 10) < 2 ^ 32) :
    (enter system_ticks ms).Counted system_ticks.toNat (max 1 (ms.toNat / 10)) 0 where
  counter := by
    rw [Nat.add_zero, Nat.mod_eq_of_lt system_ticks.isLt]
    rfl
  target := by
    change (system_ticks + ticksToWait ms).toNat = _
    rw [BitVec.toNat_add, ticksToWait_toNat hms, Nat.mod_eq_of_lt hfit]
  waited hr := by cases hr

/-- A target past the top of the counter is below it at once. -/
theorem enter_returns {system_ticks ms : BitVec 32} (hms : 0 < ms)
    (hwrap : 2 ^ 32 ≤ system_ticks.toNat + max 1 (ms.toNat / 10)) :
    ((enter system_ticks ms).run [.test]).returned = true := by
  have hlt := system_ticks.isLt
  have hms_lt := ms.isLt
  have htarget : (system_ticks + ticksToWait ms).toNat =
      system_ticks.toNat + max 1 (ms.toNat / 10) - 2 ^ 32 := by
    rw [BitVec.toNat_add, ticksToWait_toNat hms]
    omega
  have hless : ¬system_ticks < system_ticks + ticksToWait ms := by
    rw [BitVec.lt_def, htarget]
    omega
  change ((enter system_ticks ms).step .test).returned = true
  rw [step, enter, if_neg hless]

/-- `sleep` waits for its ticks exactly when the counter does not pass its top before the
target. -/
theorem sleep_waits_iff (system_ticks ms : BitVec 32) (hms : 0 < ms) :
    (enter system_ticks ms).Waits (max 1 (ms.toNat / 10)) ↔
      system_ticks.toNat + max 1 (ms.toNat / 10) < 2 ^ 32 := by
  constructor
  · intro h
    by_contra hwrap
    have hearly := h.1 [.test] (enter_returns hms (Nat.le_of_not_lt hwrap))
    have hnone : [SleepEvent.test].count .interrupt = 0 := rfl
    omega
  · intro hfit
    have hstart := enter_counted hms hfit
    refine ⟨fun es hr => ?_, fun es hes => ?_⟩
    · have hend := (hstart.run es).waited hr
      rwa [Nat.zero_add] at hend
    · have hend := hstart.run es
      rw [Nat.zero_add, hes] at hend
      have hcounter := hend.counter
      have htarget := hend.target
      rw [Nat.mod_eq_of_lt hfit, ← htarget] at hcounter
      have hreached : ¬((enter system_ticks ms).run es).system_ticks <
          ((enter system_ticks ms).run es).target_ticks := by
        rw [BitVec.lt_def, hcounter]
        exact Nat.lt_irrefl _
      rw [run_append]
      change (((enter system_ticks ms).run es).step .test).returned = true
      rw [step, if_neg hreached]

theorem sleep_waits_boot : (0 : BitVec 32) < 25 ∧ (enter 0 25).Waits 2 :=
  ⟨by decide, (sleep_waits_iff 0 25 (by decide)).mpr (by decide)⟩

theorem sleep_returns_early : ¬(enter 0xFFFFFFFF 10).Waits (max 1 ((10 : BitVec 32).toNat / 10)) := by
  intro h
  exact absurd (h.1 [.test] (by decide)) (by decide)

end SleepCall

end FrodOS
