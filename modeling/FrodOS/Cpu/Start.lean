import FrodOS.Cpu.Interrupts

/-!
# The start of the kernel (boot.s)

`_start` gives the kernel a stack and hands on what the bootloader left in two registers. The
segments are still the bootloader's until `gdt_flush` has them all read from the new table.
-/

namespace FrodOS
open Lib

/-- `_start`, up to `.hang` -/
def start (stack_top ret : U32) (f : Cpu → Cpu) : List Instr :=
  [.cli, .cld, .movImm .esp stack_top, .push .eax, .push .ebx, .call ret f]

def gdtFlush (gp : Gdt) (flush2 : U32) : List Instr :=
  .lgdt gp :: (kernelData .eax ++ [.movSs .eax, .jmpFar 0x08 flush2, .ret])

namespace Cpu

variable {c : Cpu}

theorem started_flags (v : U32) : v &&& ~~~flagIf &&& ~~~flagDf &&& (flagIf ||| flagDf) = 0 := by
  have hnone : ~~~flagIf &&& (~~~flagDf &&& (flagIf ||| flagDf)) = 0#32 := rfl
  rw [BitVec.and_assoc, BitVec.and_assoc, hnone, BitVec.and_zero]
  rfl

/-- `kernel_main` is called with the address of the boot information and the magic number, on the
stack of the kernel and with interrupts off. -/
theorem start_calls (c : Cpu) {stack_top : U32} (hroom : 12 ≤ stack_top.toNat) (ret : U32) :
    ∃ d, (∀ f, c.run (start stack_top ret f) = some (f d)) ∧ d.word 1 = c.regs.ebx ∧ d.word 2 = c.regs.eax ∧
      d.regs.esp.toNat + 12 = stack_top.toNat ∧ d.sel = c.sel ∧ d.eflags &&& (flagIf ||| flagDf) = 0 ∧
      ∀ a : U32, a.toNat < d.regs.esp.toNat ∨ stack_top.toNat ≤ a.toNat → d.mem a = c.mem a := by
  let c₁ : Cpu :=
    { c with regs := { c.regs with esp := stack_top }, eflags := c.eflags &&& ~~~flagIf &&& ~~~flagDf }
  obtain ⟨m, sp, hpushes, hpushed⟩ := c₁.pushes_eq [ret, c.regs.ebx, c.regs.eax] hroom
  have hword : ∀ i : Fin 3, load32 m (off sp (4 * i.val)) = [ret, c.regs.ebx, c.regs.eax].get i :=
    fun i => hpushed.stack.words i.val i.isLt
  refine ⟨{ c₁ with regs := { c₁.regs with esp := sp }, mem := m }, fun f => ?_, hword 1, hword 2, hpushed.depth, rfl,
    started_flags c.eflags, hpushed.outside⟩
  rw [← hpushes]
  rfl

/-- Whatever the old segments were, it comes back with those of the table that `gdt_install` made,
and nothing else of the processor but `eax` is different. -/
theorem gdtFlush_returns (hlevel : c.cpl = 0) (tss : U32) (gdt : Gdt) (flush2 : U32) :
    let g := gdtInstall tss gdt
    ∃ eax, c.run (gdtFlush g flush2) =
      some { c with
        regs := { c.regs with eax := eax, esp := off c.regs.esp 4 }
        sel := ⟨0x08, kernDataSel, kernDataSel, kernDataSel, kernDataSel, kernDataSel⟩
        eip := c.word 0
        tables := { c.tables with gdt := g } } := by
  intro g
  let c₁ : Cpu := { c with tables := { c.tables with gdt := g } }
  let eax := c.regs.eax &&& 0xFFFF0000 ||| kernDataSel.setWidth 32
  have hcpl : c₁.cpl = 0 := hlevel
  have hload : c₁.tables.gdt.loadsData c₁.cpl kernDataSel = true := by
    rw [hcpl, Gdt.loadsData]
    change (_ || g.admits (mayRead 0) kernDataSel) = true
    rw [gdtInstall_admits tss gdt (mayRead_absent 0)]
    rfl
  have hdata := run_kernelData c₁ .eax hload
  let c₂ : Cpu :=
    { c₁ with
      regs := { c.regs with eax := eax }
      sel := { c.sel with ds := kernDataSel, es := kernDataSel, fs := kernDataSel, gs := kernDataSel } }
  have hcpl₂ : c₂.cpl = 0 := hlevel
  have hss : c₂.exec (.movSs .eax) = some { c₂ with sel := { c₂.sel with ss := kernDataSel } } := by
    have hlow : eax.setWidth 16 = kernDataSel := low_half c.regs.eax kernDataSel
    have hstack : g.loadsStack 0 kernDataSel = true := gdtInstall_admits tss gdt (mayStack_absent 0) kernDataSel
    change (if g.loadsStack c₂.cpl (eax.setWidth 16) then
      some { c₂ with sel := { c₂.sel with ss := eax.setWidth 16 } } else none) = _
    rw [hlow, hcpl₂, if_pos hstack]
  have hjump : ({ c₂ with sel := { c₂.sel with ss := kernDataSel } } : Cpu).exec (.jmpFar 0x08 flush2) =
      some { c₂ with eip := flush2, sel := { c₂.sel with cs := 0x08, ss := kernDataSel } } := by
    have hcode : g.loadsCode 0 0x08 = true := gdtInstall_admits tss gdt (mayRun_absent 0) 0x08
    have hrpl : rpl 0x08 = 0 := by decide
    change (if decide (rpl 0x08 = c₂.cpl) && g.loadsCode c₂.cpl 0x08 then _ else none) = _
    rw [hcpl₂, hrpl, hcode]
    rfl
  refine ⟨eax, ?_⟩
  unfold gdtFlush
  rw [run_step rfl, run_then hdata]
  change c₂.run _ = _
  rw [run_step hss, run_step hjump, run_single]
  rfl

/-- Under whatever segments `_start` runs: `kernel_main` gets the registers of the bootloader as its
arguments, and where it has `gdt_flush` called, with interrupts still off, C code goes on with
all that the handlers rely on. -/
theorem kernel_set_up {low : ℕ} {stack_top : U32} (hlevel : c.cpl = 0) (hroom : low + 12 ≤ stack_top.toNat)
    (tss ret flush2 : U32) (gdt : Gdt) :
    ∃ d, (∀ f, c.run (start stack_top ret f) = some (f d)) ∧ d.word 1 = c.regs.ebx ∧ d.word 2 = c.regs.eax ∧
      low ≤ d.regs.esp.toNat ∧ d.eflags &&& (flagIf ||| flagDf) = 0 ∧
      (∀ a : U32, a.toNat < low ∨ stack_top.toNat ≤ a.toNat → d.mem a = c.mem a) ∧
      ∀ e : Cpu, e.sel = d.sel → e.eflags &&& (flagIf ||| flagDf) = 0 → low ≤ e.regs.esp.toNat →
        e.regs.esp.toNat + 4 ≤ stack_top.toNat →
        ∃ e', e.run (gdtFlush (gdtInstall tss gdt) flush2) = some e' ∧ Ready low e' ∧
          e'.sel = ⟨0x08, kernDataSel, kernDataSel, kernDataSel, kernDataSel, kernDataSel⟩ ∧ e'.eip = e.word 0 ∧
          e'.regs.esp = off e.regs.esp 4 ∧ e'.mem = e.mem ∧ e'.tables.gdt = gdtInstall tss gdt := by
  have hstack : 12 ≤ stack_top.toNat := by omega
  obtain ⟨d, hrun, hmboot, hmagic, hdepth, hsel, hflags, hothers⟩ := c.start_calls hstack ret
  refine ⟨d, hrun, hmboot, hmagic, by omega, hflags, fun a ha => hothers a (by omega),
    fun e hsel' hflags' hlow htop => ?_⟩
  have hzero : e.cpl = 0 := by
    rw [cpl, hsel', hsel]
    exact hlevel
  obtain ⟨eax, hflush⟩ := gdtFlush_returns hzero tss gdt flush2
  have hkernel : rpl 0x08 = 0 := by decide
  refine ⟨_, hflush, ⟨hkernel, fun s => ?_, hflags', ?_⟩, rfl, rfl, rfl, rfl, rfl⟩
  · cases s <;> rfl
  · have hlimit := stack_top.isLt
    change low ≤ (off e.regs.esp 4).toNat
    rw [off_toNat _ _ (by omega)]
    omega

def bootedA : Cpu where
  regs := ⟨0, 0, 0, 0, 0x9500, 0, 0, 0x2BADB002⟩
  sel := ⟨0x10, 0x18, 0x18, 0x18, 0x18, 0x18⟩
  eip := 0x100000
  eflags := 2
  mem := fun _ => 0
  out := []
  tables := ⟨fun _ => ⟨0, 0, 0, 0, 0, 0⟩, kernelTss, fun _ => ⟨0, 0, 0, 0, 0⟩⟩

theorem kernel_set_up_once :
    ∃ d, (∀ f, bootedA.run (start 0x104000 0x100020 f) = some (f d)) ∧ d.word 1 = 0x9500 ∧ d.word 2 = 0x2BADB002 := by
  have hroom : 0x100000 + 12 ≤ BitVec.toNat (0x104000 : U32) := by decide
  have hlevel : bootedA.cpl = 0 := by decide
  obtain ⟨d, hrun, hmboot, hmagic, -⟩ :=
    kernel_set_up hlevel hroom 0x100500 0x100020 0x100040 fun _ => ⟨0, 0, 0, 0, 0, 0⟩
  exact ⟨d, hrun, hmboot, hmagic⟩

end Cpu

end FrodOS
