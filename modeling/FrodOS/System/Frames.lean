import FrodOS.Kernel.Loading
import FrodOS.System.Machine

/-!
# Page frames over a run of the machine

Programs and shells come and go, and each takes frames. While they spare the kernel's memory
none is ever handed out twice.
-/

namespace FrodOS
open Lib

theorem fsCall_loads (k : Kernel) (regs : SyscallRegs) :
    (fsCall k regs).mapped = [] ∧ (fsCall k regs).kernel.bitmap = k.bitmap := by
  unfold fsCall
  split
  · unfold sysFsCreate
    dsimp only
    split_ifs <;> exact ⟨rfl, rfl⟩
  · unfold sysFsWrite
    dsimp only
    split_ifs <;> exact ⟨rfl, rfl⟩
  · unfold sysFsRead
    dsimp only
    split_ifs <;> exact ⟨rfl, rfl⟩
  · unfold sysFsList
    dsimp only
    split_ifs <;> exact ⟨rfl, rfl⟩
  · exact ⟨rfl, rfl⟩

namespace Machine

variable {km : KernelMemory} {m : Machine} {e : MachineEvent} {es : List MachineEvent}

theorem step_takes (h : m.strays km.own e = false) :
    Takes (supply m.kernel.bitmap) (framesOf (m.step km e).2.mapped) (supply (m.step km e).1.kernel.bitmap) ∧
      ∀ p ∈ (m.step km e).2.mapped, p.2.toNat % 4096 = 0 := by
  rw [step_of_spared h]
  cases ho : m.outcome e with
  | some o =>
    rw [handle_of_outcome ho]
    change Takes (supply m.kernel.bitmap) (framesOf o.mapped) (supply o.kernel.bitmap) ∧ ∀ p ∈ o.mapped, _
    obtain ⟨frame, regs, rfl, -, hkind⟩ := outcome_cases ho
    rcases hkind with ⟨-, rfl⟩ | ⟨-, rfl⟩ | ⟨-, hexit⟩
    · obtain ⟨hmapped, hbitmap⟩ := fsCall_loads m.kernel regs
      rw [hmapped, hbitmap]
      exact ⟨.nil _, nofun⟩
    · have hloads := sysExec_loads frame m.kernel regs
      exact ⟨hloads.takes, hloads.aligned⟩
    · have hloads := sysExit_loads hexit
      exact ⟨hloads.takes, hloads.aligned⟩
  | none =>
    obtain ⟨⟨mem, hkernel, -⟩, hmapped⟩ := handle_of_no_outcome ho
    rw [hkernel, hmapped]
    exact ⟨.nil _, nofun⟩

/-- The pages handed to `map_page` in a run, in order. -/
def handed (km : KernelMemory) (m : Machine) (es : List MachineEvent) : List (U32 × U32) :=
  (trace (step km) m es).flatMap fun x => x.2.mapped

theorem run_takes (h : m.Spared km es) :
    Takes (supply m.kernel.bitmap) (framesOf (m.handed km es)) (supply (final (step km) m es).kernel.bitmap) := by
  have htakes := Takes.run (fun m : Machine => supply m.kernel.bitmap) (fun r : Response => framesOf r.mapped)
    (fun _ _ he => (step_takes he).1) h
  rwa [handed, framesOf, List.map_flatMap]

theorem run_aligned (h : m.Spared km es) : ∀ p ∈ m.handed km es, p.2.toNat % 4096 = 0 := by
  induction es generalizing m with
  | nil => exact nofun
  | cons e es ih =>
    intro p hp
    rcases List.mem_append.mp hp with hp | hp
    · exact (step_takes h.1).2 p hp
    · exact ih h.2 p hp

end Machine

end FrodOS
