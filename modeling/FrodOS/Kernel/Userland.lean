import FrodOS.Kernel.Exec
import FrodOS.Kernel.Tar
import Mathlib.Algebra.BigOperators.Group.List.Basic

/-!
# Launch and exit cycles

Exec takes frames for a program, exit takes frames for a fresh copy of the shell,
and nothing in kernel.c gives one back. Over a run of cycles the free frames are
what the first shell had left less what all the cycles asked for.
-/

namespace FrodOS
open Lib

def shellPages (size : U32) : U32 := (size + 4096 - 1) / 4096

/-- `launch_userland`; no result if the walk of the archive does not end. -/
def launchUserland (fuel : ℕ) (k : Kernel) : Option Outcome :=
  match ramfsRead fuel k.mem k.ramfs_start k.ramfs_end shellBin with
  | none => none
  | some none => some (kernelPanic k "RAMFS shell.bin missing from TAR stream!" [])
  | some (some (image, size)) =>
    let k₁ := kprint k "Mapping virtual isolation memory windows for userland image...\n"
    let r := allocAndMap userBase (shellPages size).toNat 0 k₁
    if r.ok then
      let k₂ := kprint r.kernel "Copying application instructions safely into mapped pages...\n"
      let c := kernelMemmove k₂.mem userBase image size
      some ⟨kprint { k₂ with mem := c.1 }
        "Passing control to Ring 3 via virtual page layout pointers...\n",
        .userMode userBase userStack, [], r.mapped, c.2⟩
    else
      some (kernelPanic r.kernel "OOM: Out of physical memory frames for shell allocation!" r.mapped)

/-- `case 21` -/
def sysExit (fuel : ℕ) (k : Kernel) : Option Outcome :=
  launchUserland fuel
    (kprint k "\nFrodFS: Application terminated cleanly. Returning to user shell...\n")

/-! ### Cycles -/

/-- A launch of a valid file and the exit from it. User mode may have changed memory and
the file table before the launch, and memory before the exit, where the shell is
still found in the archive. -/
structure Cycle (ramfs_start ramfs_end : U32) where
  frame : ExecFrame
  mem : Ram
  storage : Storage
  regs : SyscallRegs
  slot : Fin 32
  valid : Executable storage mem regs.ebx slot
  exitMem : Ram
  fuel : ℕ
  image : U32
  size : U32
  shell : ramfsRead fuel exitMem ramfs_start ramfs_end shellBin = some (some (image, size))

inductive CycleEnd where
  | shell (k : Kernel)
  | stopped (c : Control)
  | lost

def oomMessages : List String :=
  ["OOM allocating space for custom FXE image segments.", "OOM allocating app stack pages.",
    "OOM: Out of physical memory frames for shell allocation!"]

def CycleEnd.OutOfMemory : CycleEnd → Prop
  | .stopped (.panic msg) => msg ∈ oomMessages
  | _ => False

namespace Cycle

variable {ramfs_start ramfs_end : U32}

def header (c : Cycle ramfs_start ramfs_end) : FxeHeader := fxeHeader (c.storage c.slot).dataView

def frames (c : Cycle ramfs_start ramfs_end) : ℕ := c.header.frames + (shellPages c.size).toNat

def run (c : Cycle ramfs_start ramfs_end) (k : Kernel) : CycleEnd :=
  let o := sysExec c.frame { k with mem := c.mem, storage := c.storage } c.regs
  match o.control with
  | .userMode _ _ =>
    match sysExit c.fuel { o.kernel with mem := c.exitMem } with
    | some o' =>
      match o'.control with
      | .userMode _ _ => .shell o'.kernel
      | stop => .stopped stop
    | none => .lost
  | stop => .stopped stop

end Cycle

def freeCount (k : Kernel) : ℕ := (freePages k.bitmap).card

structure Spent (k : Kernel) (n : ℕ) (k' : Kernel) : Prop where
  count : freeCount k' + n = freeCount k
  available : available k'.bitmap + n = available k.bitmap
  ramfs_start : k'.ramfs_start = k.ramfs_start
  ramfs_end : k'.ramfs_end = k.ramfs_end

theorem Spent.trans {k k' k'' : Kernel} {m n : ℕ} (h : Spent k m k') (h' : Spent k' n k'') :
    Spent k (m + n) k'' where
  count := by rw [← h.count, ← h'.count]; omega
  available := by rw [← h.available, ← h'.available]; omega
  ramfs_start := h'.ramfs_start.trans h.ramfs_start
  ramfs_end := h'.ramfs_end.trans h.ramfs_end

theorem launchUserland_cases {fuel : ℕ} {k : Kernel} {image size : U32}
    (h : ramfsRead fuel k.mem k.ramfs_start k.ramfs_end shellBin = some (some (image, size))) :
    ∃ o, launchUserland fuel k = some o ∧
      ((available k.bitmap < (shellPages size).toNat ∧
          o.control = .panic "OOM: Out of physical memory frames for shell allocation!") ∨
        (o.control = .userMode userBase userStack ∧ Spent k (shellPages size).toNat o.kernel)) := by
  let k₁ := kprint k "Mapping virtual isolation memory windows for userland image...\n"
  obtain ⟨hok, _, hleft⟩ := allocAndMap_spec userBase (shellPages size).toNat 0 k₁
  have hsame := allocAndMap_same userBase (shellPages size).toNat 0 k₁
  simp only [launchUserland, h]
  by_cases hr : (allocAndMap userBase (shellPages size).toNat 0 k₁).ok = true
  · obtain ⟨hav, hcard⟩ := hleft hr
    rw [if_pos hr]
    exact ⟨_, rfl, Or.inr ⟨rfl, hcard, hav, hsame.ramfs_start, hsame.ramfs_end⟩⟩
  · have hshort : ¬ (shellPages size).toNat ≤ available k.bitmap := fun hle => hr (hok.mpr hle)
    rw [if_neg hr]
    exact ⟨_, rfl, Or.inl ⟨by omega, rfl⟩⟩

theorem sysExec_cases (frame : ExecFrame) (k : Kernel) (regs : SyscallRegs) {i : Fin 32}
    (h : Executable k.storage k.mem regs.ebx i) :
    (available k.bitmap < (fxeHeader (k.storage i).dataView).frames ∧
      ∃ msg ∈ oomMessages, (sysExec frame k regs).control = .panic msg) ∨
    ((∃ entry, (sysExec frame k regs).control = .userMode entry userStack) ∧
      Spent k (fxeHeader (k.storage i).dataView).frames (sysExec frame k regs).kernel) := by
  rw [sysExec_valid frame k regs h]
  rcases execImage_cases frame { k with mem := execLoaded frame k i }
    (fxeHeader (k.storage i).dataView) with ⟨hshort, he⟩ | ⟨hav, hcard, hsame, he⟩
  · refine Or.inl ⟨hshort, ?_⟩
    rcases he with he | he
    · exact ⟨_, by simp [oomMessages], congrArg Outcome.control he⟩
    · exact ⟨_, by simp [oomMessages], congrArg Outcome.control he⟩
  · rw [he]
    exact Or.inr ⟨⟨_, rfl⟩, hcard, hav, hsame.ramfs_start, hsame.ramfs_end⟩

theorem Cycle.run_cases {ramfs_start ramfs_end : U32} (c : Cycle ramfs_start ramfs_end) {k : Kernel}
    (hs : k.ramfs_start = ramfs_start) (he : k.ramfs_end = ramfs_end) :
    (available k.bitmap < c.frames ∧ (c.run k).OutOfMemory) ∨
      ∃ k', c.run k = .shell k' ∧ Spent k c.frames k' := by
  have hframes : c.frames = c.header.frames + (shellPages c.size).toNat := rfl
  let k₀ : Kernel := { k with mem := c.mem, storage := c.storage }
  rcases sysExec_cases c.frame k₀ c.regs c.valid with ⟨hshort, msg, hmem, hc⟩ | ⟨⟨entry, hc⟩, hspent⟩
  · refine Or.inl ⟨by change available k.bitmap < c.header.frames at hshort; omega, ?_⟩
    simp only [run]
    rw [hc]
    exact hmem
  · have hspent₀ : Spent k c.header.frames (sysExec c.frame k₀ c.regs).kernel :=
      ⟨hspent.count, hspent.available, hspent.ramfs_start, hspent.ramfs_end⟩
    let k₁ : Kernel := kprint { (sysExec c.frame k₀ c.regs).kernel with mem := c.exitMem }
      "\nFrodFS: Application terminated cleanly. Returning to user shell...\n"
    have hshell : ramfsRead c.fuel k₁.mem k₁.ramfs_start k₁.ramfs_end shellBin =
        some (some (c.image, c.size)) := by
      have hs₁ : k₁.ramfs_start = ramfs_start := hspent₀.ramfs_start.trans hs
      have he₁ : k₁.ramfs_end = ramfs_end := hspent₀.ramfs_end.trans he
      rw [hs₁, he₁]
      exact c.shell
    obtain ⟨o, ho, hend⟩ := launchUserland_cases hshell
    have hexit : sysExit c.fuel { (sysExec c.frame k₀ c.regs).kernel with mem := c.exitMem } = some o := ho
    have hrun : c.run k = match o.control with
        | .userMode _ _ => .shell o.kernel
        | stop => .stopped stop := by
      simp only [run]
      rw [hc]
      simp only
      rw [hexit]
    rcases hend with ⟨hshort, hpanic⟩ | ⟨huser, hspent₁⟩
    · change available (sysExec c.frame k₀ c.regs).kernel.bitmap < _ at hshort
      have hav := hspent₀.available
      refine Or.inl ⟨by omega, ?_⟩
      rw [hrun, hpanic]
      simp [CycleEnd.OutOfMemory, oomMessages]
    · refine Or.inr ⟨o.kernel, by rw [hrun, huser], ?_⟩
      have hall : Spent k₁ (shellPages c.size).toNat o.kernel := hspent₁
      exact hspent₀.trans ⟨hall.count, hall.available, hall.ramfs_start, hall.ramfs_end⟩

/-! ### Runs of cycles -/

/-- Whenever the shell runs in a run of cycles from `k`, `n` frames are free, and no
cycle runs out of memory. -/
def Conserved {ramfs_start ramfs_end : U32} (n : ℕ) :
    Kernel → List (Cycle ramfs_start ramfs_end) → Prop
  | k, [] => freeCount k = n
  | k, c :: cs => freeCount k = n ∧
    match c.run k with
    | .shell k' => Conserved n k' cs
    | stop => ¬ stop.OutOfMemory

def afterCycles {ramfs_start ramfs_end : U32} :
    Kernel → List (Cycle ramfs_start ramfs_end) → Option Kernel
  | k, [] => some k
  | k, c :: cs =>
    match c.run k with
    | .shell k' => afterCycles k' cs
    | _ => none

theorem conserved_iff {ramfs_start ramfs_end : U32} (cs : List (Cycle ramfs_start ramfs_end))
    {k : Kernel} (hs : k.ramfs_start = ramfs_start) (he : k.ramfs_end = ramfs_end) :
    Conserved (freeCount k) k cs ↔ ∀ c ∈ cs, c.frames = 0 := by
  induction cs generalizing k with
  | nil => simp [Conserved]
  | cons c cs ih =>
    rw [List.forall_mem_cons, Conserved]
    simp only [true_and]
    rcases c.run_cases hs he with ⟨hshort, hoom⟩ | ⟨k', hrun, hspent⟩
    · have hne : ¬ c.frames = 0 := by omega
      simp only [hne, false_and, iff_false]
      cases hr : c.run k with
      | shell k' => rw [hr] at hoom; cases hoom
      | stopped _ => rw [hr] at hoom; exact not_not_intro hoom
      | lost => rw [hr] at hoom; cases hoom
    · have ih' := ih (hspent.ramfs_start.trans hs) (hspent.ramfs_end.trans he)
      have hcount := hspent.count
      simp only [hrun]
      constructor
      · intro h
        -- the shell runs in k', so the count there is the old one
        have heq : freeCount k' = freeCount k := by
          cases cs with
          | nil => exact h
          | cons _ _ => exact h.1
        rw [← heq] at h
        exact ⟨by omega, ih'.mp h⟩
      · intro hc
        obtain ⟨hzero, hrest⟩ := hc
        have heq : freeCount k' = freeCount k := by omega
        rw [← heq]
        exact ih'.mpr hrest

/-- Launch and exit cycles conserve the free frames, and never run out of them,
exactly when no cycle asks for a frame. -/
theorem cycles_conserve_iff (k : Kernel) (cs : List (Cycle k.ramfs_start k.ramfs_end)) :
    Conserved (freeCount k) k cs ↔ ∀ c ∈ cs, c.frames = 0 := conserved_iff cs rfl rfl

/-! ### One cycle of a small program -/

def shellArchive : Ram := fun a =>
  if a = 0x300000 then 97
  else (shellBin ++ List.replicate 115 0 ++ List.replicate 10 48 ++ [49, 0] ++ List.replicate 20 0
    ++ [48]).getD (a - 0x400000).toNat 0

def smallCycle : Cycle 0x400000 0x400800 where
  frame := demoFrame
  mem := (kernelA oneByteProgram (by decide)).mem
  storage := (kernelA oneByteProgram (by decide)).storage
  regs := execA
  slot := 0
  valid := oneByteProgram_executable
  exitMem := shellArchive
  fuel := 1
  image := 0x400200
  size := 1
  shell := by decide

theorem cycles_not_conserved_once :
    ¬ ∀ (k : Kernel) (cs : List (Cycle k.ramfs_start k.ramfs_end)), Conserved (freeCount k) k cs := by
  intro h
  let k : Kernel :=
    { kernelA oneByteProgram (by decide) with ramfs_start := 0x400000, ramfs_end := 0x400800 }
  have hone : smallCycle.frames = 0 :=
    (conserved_iff (k := k) [smallCycle] rfl rfl).mp (h k [smallCycle]) smallCycle
      (List.mem_singleton_self _)
  exact absurd hone (by decide)

end FrodOS
