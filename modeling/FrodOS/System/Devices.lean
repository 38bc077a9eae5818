import FrodOS.Lib.Run
import FrodOS.System.Machine

/-!
# The devices over a run of the machine

Each device hears from its own routines only, whatever else goes on: what a run that spares
the kernel's memory does to it is a run of its driver.
-/

namespace FrodOS
open Lib

inductive KeyStep : Keyboard → Keyboard → Option KeyObs → Prop where
  | none (k : Keyboard) : KeyStep k k none
  | interrupt (k : Keyboard) (sc : Byte) : KeyStep k (k.handlerMain sc).1 (k.handlerMain sc).2
  | getChar (k : Keyboard) : KeyStep k k.getChar.1 (some (.returned k.getChar.2))

/-- Whether the event is a timer interrupt that the processor takes. -/
def Machine.ticks (m : Machine) : MachineEvent → Bool
  | .irq0 => m.mode.enabled
  | _ => false

/-- What an event does to the devices. -/
structure Drives (m : Machine) (e : MachineEvent) (r : Machine × Response) : Prop where
  screen : ∃ calls, r.1.screen = m.screen.run calls
  keyboard : KeyStep m.keyboard r.1.keyboard r.2.key
  ports : ∃ calls : List SoundCall, r.1.ports = calls.foldl SoundCall.run m.ports
  system_ticks : r.1.system_ticks = if m.ticks e then timerCallback m.system_ticks else m.system_ticks

namespace Machine

/-! ### One step -/

variable {m : Machine} {e : MachineEvent}

theorem drives_nothing {r : Machine × Response} (hs : r.1.screen = m.screen) (hk : r.1.keyboard = m.keyboard)
    (hp : r.1.ports = m.ports) (ht : r.1.system_ticks = m.system_ticks) (hkey : r.2.key = none)
    (he : m.ticks e = false) : Drives m e r where
  screen := ⟨[], hs⟩
  keyboard := by
    rw [hk, hkey]
    exact .none _
  ports := ⟨[], hp⟩
  system_ticks := by
    rw [he]
    exact ht

theorem drives_print {r : Machine × Response} (calls : List ConsoleCall) (hs : r.1.screen = m.screen.run calls)
    (hk : r.1.keyboard = m.keyboard) (hp : r.1.ports = m.ports) (ht : r.1.system_ticks = m.system_ticks)
    (hkey : r.2.key = none) (he : m.ticks e = false) : Drives m e r where
  screen := ⟨calls, hs⟩
  keyboard := by
    rw [hk, hkey]
    exact .none _
  ports := ⟨[], hp⟩
  system_ticks := by
    rw [he]
    exact ht

theorem flush_screen (m : Machine) (k : Kernel) :
    (m.flush k).screen = m.screen.run (k.console.map fun text => .kprint (ascii text)) := by
  change k.console.foldl _ m.screen = (k.console.map _).foldl Console.exec m.screen
  rw [List.foldl_map]
  rfl

theorem gpf_drives (m : Machine) (err eip cs : U32) : Drives m (.gpf err eip cs) (m.handle (.gpf err eip cs)) := by
  have hreport := gpfHandlerMain_eq m.screen err eip cs
  generalize gpfReport err eip cs = report at hreport
  unfold handle
  dsimp only
  split
  · exact drives_print [.kprint report] hreport rfl rfl rfl rfl rfl
  · exact drives_nothing rfl rfl rfl rfl rfl rfl

theorem irq0_drives (m : Machine) : Drives m .irq0 (m.handle .irq0) := by
  unfold handle
  dsimp only
  split_ifs with hon
  · refine ⟨⟨[], m.wake_screen⟩, ?_, ⟨[], m.wake_ports⟩, ?_⟩
    · change KeyStep m.keyboard m.wake.1.keyboard none
      rw [m.wake_keyboard]
      exact .none _
    · change timerCallback m.wake.1.system_ticks = if m.mode.enabled then _ else _
      rw [m.wake_ticks, if_pos hon]
  · exact drives_nothing rfl rfl rfl rfl rfl (Bool.not_eq_true _ ▸ hon)

theorem irq1_drives (m : Machine) (sc : Byte) : Drives m (.irq1 sc) (m.handle (.irq1 sc)) := by
  unfold handle
  dsimp only
  split_ifs with hon
  · refine ⟨⟨[], m.wake_screen⟩, ?_, ⟨[], m.wake_ports⟩, m.wake_ticks⟩
    change KeyStep m.keyboard (m.wake.1.keyboard.handlerMain sc).1 (m.wake.1.keyboard.handlerMain sc).2
    rw [m.wake_keyboard]
    exact .interrupt _ sc
  · exact drives_nothing rfl rfl rfl rfl rfl rfl

theorem syscall_drives (hmode : m.mode = .user) (frame : ExecFrame) (regs : SyscallRegs)
    (ho : m.outcome (.int80 frame regs) = none) :
    Drives m (.int80 frame regs) (m.syscallHandlerMain frame regs) := by
  simp only [outcome, hmode] at ho
  unfold syscallHandlerMain
  dsimp only
  split
  · split_ifs
    · split
      · exact drives_print [.kprint _] rfl rfl rfl rfl rfl rfl
      · exact drives_nothing rfl rfl rfl rfl rfl rfl
    · exact drives_nothing rfl rfl rfl rfl rfl rfl
  · exact drives_nothing rfl rfl rfl rfl rfl rfl
  · exact ⟨⟨[], rfl⟩, .getChar _, ⟨[], rfl⟩, rfl⟩
  · exact drives_print [.kclear] rfl rfl rfl rfl rfl rfl
  · split_ifs with hpos
    · exact ⟨⟨[], rfl⟩, .none _, ⟨[.playSound regs.ebx hpos], rfl⟩, rfl⟩
    · exact drives_nothing rfl rfl rfl rfl rfl rfl
  · exact ⟨⟨[], rfl⟩, .none _, ⟨[.nosound], rfl⟩, rfl⟩
  · split_ifs with hcall
    · rw [if_pos hcall] at ho
      rw [ho]
      exact drives_nothing rfl rfl rfl rfl rfl rfl
    · exact drives_print [.kprint _] rfl rfl rfl rfl rfl rfl

theorem handle_drives (m : Machine) (e : MachineEvent) : Drives m e (m.handle e) := by
  cases ho : m.outcome e with
  | some o =>
    obtain ⟨frame, regs, rfl, -, -⟩ := outcome_cases ho
    rw [handle_of_outcome ho]
    exact drives_print _ (m.flush_screen o.kernel) rfl rfl rfl rfl rfl
  | none =>
    cases e with
    | run mem =>
      unfold handle
      dsimp only
      split
      · exact drives_nothing rfl rfl rfl rfl rfl rfl
      · exact drives_nothing rfl rfl rfl rfl rfl rfl
    | stray => exact drives_nothing rfl rfl rfl rfl rfl rfl
    | irq0 => exact irq0_drives m
    | irq1 sc => exact irq1_drives m sc
    | int80 frame regs =>
      unfold handle
      dsimp only
      split
      · rename_i hmode
        exact syscall_drives hmode frame regs ho
      · exact drives_nothing rfl rfl rfl rfl rfl rfl
    | gpf err eip cs => exact gpf_drives m err eip cs

theorem step_drives {km : KernelMemory} (h : m.strays km.own e = false) : Drives m e (m.step km e) := by
  rw [step_of_spared h]
  exact handle_drives m e

end Machine

/-! ### The keyboard -/

theorem Keyboard.getChar_spec {k : Keyboard} {q : List Byte} (h : k.Queues q) :
    (q = [] ∧ k.getChar = (k, 0)) ∨ ∃ c rest, q = c :: rest ∧ k.getChar.2 = c ∧ k.getChar.1.Queues rest := by
  by_cases hempty : k.key_head = k.key_tail
  · exact Or.inl ⟨h.holds.empty_iff.mp hempty, if_pos hempty⟩
  · obtain ⟨c, rest, rfl⟩ := List.exists_cons_of_ne_nil (mt h.holds.empty_iff.mpr hempty)
    have hget : k.getChar = ({ k with key_tail := (k.key_tail + 1).tmod 256 }, k.key_buffer k.key_tail) :=
      if_neg hempty
    have hpop := h.holds.pop
    rw [← Keyboard.tmod_succ h.holds.nonneg] at hpop
    rw [hget]
    exact Or.inr ⟨c, rest, rfl, h.holds.front, hpop, fun x hx => h.nonzero x (List.mem_cons_of_mem c hx)⟩

theorem KeyStep.balances {k k' : Keyboard} {o : Option KeyObs} (h : KeyStep k k' o) {q : List Byte}
    (hq : k.Queues q) : ∃ q', k'.Queues q' ∧ q ++ acceptedChars o.toList = deliveredChars o.toList ++ q' := by
  cases h with
  | none => exact ⟨q, hq, by simp [deliveredChars, acceptedChars, returnedChars]⟩
  | interrupt sc =>
    obtain ⟨q', hinv, hbal⟩ := KeySystem.interrupt_balances (s := ⟨k, Option.none⟩) (q := q) ⟨hq, fun _ hc => by cases hc⟩ sc
    exact ⟨q', hinv.queues, hbal⟩
  | getChar =>
    rcases Keyboard.getChar_spec hq with ⟨rfl, hget⟩ | ⟨c, rest, rfl, hc, hrest⟩
    · rw [hget]
      exact ⟨[], hq, rfl⟩
    · have hdelivered : deliveredChars [.returned c] = [c] :=
        List.filter_cons_of_pos (decide_eq_true (hq.nonzero c List.mem_cons_self))
      rw [hc]
      refine ⟨rest, hrest, ?_⟩
      rw [Option.toList_some, hdelivered]
      simp [acceptedChars]

/-! ### Runs -/

def keysOf (t : List (MachineEvent × Response)) : List KeyObs := t.flatMap fun x => x.2.key.toList

namespace Machine

/-- The timer interrupts that the processor takes in a run. -/
def ticked (km : KernelMemory) : Machine → List MachineEvent → ℕ
  | _, [] => 0
  | m, e :: es => (if m.ticks e then 1 else 0) + ticked km (m.step km e).1 es

variable {km : KernelMemory} {m : Machine} {es : List MachineEvent}

theorem run_keys {q : List Byte} (h : m.keyboard.Queues q) (hs : m.Spared km es) :
    ∃ q', (final (step km) m es).keyboard.Queues q' ∧
      q ++ acceptedChars (keysOf (trace (step km) m es)) = deliveredChars (keysOf (trace (step km) m es)) ++ q' := by
  induction es generalizing m q with
  | nil => exact ⟨q, h, by simp [trace, keysOf, deliveredChars, acceptedChars, returnedChars]⟩
  | cons e es ih =>
    obtain ⟨mid, hmid, hstep⟩ := (step_drives hs.1).keyboard.balances h
    obtain ⟨last, hlast, hrest⟩ := ih hmid hs.2
    refine ⟨last, hlast, ?_⟩
    change q ++ acceptedChars ((m.step km e).2.key.toList ++ keysOf (trace (step km) (m.step km e).1 es)) =
      deliveredChars ((m.step km e).2.key.toList ++ keysOf (trace (step km) (m.step km e).1 es)) ++ last
    rw [acceptedChars_append, ← List.append_assoc, hstep, List.append_assoc, hrest, deliveredChars,
      deliveredChars, deliveredChars, returnedChars_append, List.filter_append, List.append_assoc]

theorem run_screen (hs : m.Spared km es) :
    ∃ calls, (final (step km) m es).screen = m.screen.run calls :=
  final_updates (step km) _ Machine.screen Console.exec (fun _ _ h => (step_drives h).screen) hs

theorem run_ports (hs : m.Spared km es) :
    ∃ calls : List SoundCall, (final (step km) m es).ports = calls.foldl SoundCall.run m.ports :=
  final_updates (step km) _ Machine.ports SoundCall.run (fun _ _ h => (step_drives h).ports) hs

theorem run_ticks (hs : m.Spared km es) :
    (final (step km) m es).system_ticks = m.system_ticks + BitVec.ofNat 32 (m.ticked km es) := by
  induction es generalizing m with
  | nil => exact (BitVec.add_zero _).symm
  | cons e es ih =>
    have hstep := (step_drives hs.1).system_ticks
    change (final (step km) (m.step km e).1 es).system_ticks = _
    rw [ih hs.2, hstep, ticked, BitVec.ofNat_add]
    split_ifs
    · rw [timerCallback, BitVec.add_assoc]
      rfl
    · rw [BitVec.zero_add]

/-- Whatever programs, launches, faults and interrupts a run is made of, if they spare the
kernel's memory and the ports: the cursor and every cell that was touched lie on the screen, the
keys come out as they went in, each taken timer interrupt is counted, and no sound call reaches
the ticks, the refresh or the other bits of port 0x61. -/
theorem devices_run (km : KernelMemory) (m : Machine) (hscreen : m.screen.OnScreen) {q : List Byte}
    (hkeys : m.keyboard.Queues q) (es : List MachineEvent) (hs : m.Spared km es) :
    let m' := final (step km) m es
    let keys := keysOf (trace (step km) m es)
    m'.screen.OnScreen ∧
      q ++ acceptedChars keys = deliveredChars keys ++ m'.keyboard.ringChars ∧
      m'.system_ticks = m.system_ticks + BitVec.ofNat 32 (m.ticked km es) ∧
      m'.ports.pit 0 = m.ports.pit 0 ∧ m'.ports.pit 1 = m.ports.pit 1 ∧
      m'.ports.port61 &&& 0xFC = m.ports.port61 &&& 0xFC := by
  intro m' keys
  obtain ⟨q', hq', hbalance⟩ := run_keys hkeys hs
  obtain ⟨calls, hprinted⟩ := run_screen hs
  obtain ⟨sounds, hports⟩ := run_ports hs
  have hsounding := (Sounding.start m.ports).calls sounds
  rw [← hports] at hsounding
  refine ⟨?_, ?_, run_ticks hs, hsounding.ticks, hsounding.refresh, hsounding.others⟩
  · change (final (step km) m es).screen.OnScreen
    rw [hprinted]
    exact (Console.run_invariant (fun _ b h => h.putChar b) (fun _ h => h.kclear)
      (fun _ _ h => ⟨h.nonneg, h.le, h.used⟩) hscreen calls).1
  · change _ = _ ++ (final (step km) m es).keyboard.ringChars
    rw [Keyboard.ringChars, hq'.holds.contents_eq]
    exact hbalance

theorem machineA_keys : machineA.keyboard.Queues [] :=
  ⟨Holds.nil _ (by decide) (by decide), fun _ hc => absurd hc List.not_mem_nil⟩

/-- A key, a tick, the launch of a program, and the key again out of the ring. -/
def launchRun : List MachineEvent :=
  [.irq1 0x1E, .irq0, .int80 demoFrame execA, .int80 demoFrame ⟨0, 0, 0, 0, 0, 0, 0, 3⟩]

theorem launchRun_spared : machineA.Spared lowKernel launchRun := by
  unfold Spared
  refine ⟨?_, ?_, ?_, ?_, trivial⟩
  · rfl
  · rfl
  · decide +kernel
  · decide +kernel

theorem devices_run_once :
    let m' := final (step lowKernel) machineA launchRun
    m'.screen.OnScreen ∧ m'.system_ticks = 1 := by
  intro m'
  obtain ⟨hscreen, -, hticks, -⟩ := devices_run lowKernel machineA
    ⟨by decide, by decide, fun _ hi => absurd hi List.not_mem_nil⟩ machineA_keys launchRun launchRun_spared
  refine ⟨hscreen, hticks.trans ?_⟩
  decide +kernel

end Machine

end FrodOS
