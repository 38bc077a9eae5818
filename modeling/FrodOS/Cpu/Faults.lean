import FrodOS.Cpu.Programs
import FrodOS.Kernel.Fault

/-!
# Faults at the processor (boot.s)

`exception13_handler` saves nothing, since nobody comes back from a fault. It copies what the
processor pushed into the arguments of the report.
-/

namespace FrodOS
open Lib

namespace Cpu

variable {l : Labels} {c : Cpu} {low : ℕ}

/-- The stub copies the three words on top of the stack for its call. -/
theorem run_exception13 {err eip cs : U32} {ws : List U32} (h : Stack c.mem c.regs.esp (err :: eip :: cs :: ws))
    (hroom : 16 ≤ c.regs.esp.toNat) (hload : c.tables.gdt.loadsData c.cpl kernDataSel = true) (ret : U32) :
    ∃ d, Pushed c.mem c.regs.esp [ret, err, eip, cs] d.mem d.regs.esp ∧
      d.sel = { c.sel with ds := kernDataSel, es := kernDataSel, fs := kernDataSel, gs := kernDataSel } ∧
      d.eflags = c.eflags &&& ~~~flagIf &&& ~~~flagDf ∧ d.out = c.out ∧
      ∀ f, c.run (exception13Handler ret f) = some (f d) := by
  have herr : load32 c.mem (off c.regs.esp 0) = err := h.words 0 (Nat.zero_lt_succ _)
  have heip : load32 c.mem (off c.regs.esp 4) = eip :=
    h.words 1 (by rw [List.length_cons, List.length_cons]; omega)
  have hcs : load32 c.mem (off c.regs.esp 8) = cs := h.words 2 (by simp only [List.length_cons]; omega)
  let c₁ : Cpu :=
    { c with regs := { c.regs with eax := err, ebx := eip, ecx := cs }, eflags := c.eflags &&& ~~~flagIf }
  have hstart : ∀ code, c.run (.cli :: .load .eax 0 :: .load .ebx 4 :: .load .ecx 8 :: code) = c₁.run code := by
    intro code
    rw [run_step rfl, run_step rfl, run_step rfl, run_step rfl]
    change run { c with
      regs :=
        { c.regs with
          eax := load32 c.mem (off c.regs.esp 0)
          ebx := load32 c.mem (off c.regs.esp 4)
          ecx := load32 c.mem (off c.regs.esp 8) }
      eflags := c.eflags &&& ~~~flagIf } code = _
    rw [herr, heip, hcs]
  have hdata := run_kernelData c₁ .edx hload
  let c₂ : Cpu :=
    { c₁ with
      regs := c₁.regs.set (c₁.regs.edx &&& 0xFFFF0000 ||| kernDataSel.setWidth 32) .edx
      sel := { c.sel with ds := kernDataSel, es := kernDataSel, fs := kernDataSel, gs := kernDataSel }
      eflags := c.eflags &&& ~~~flagIf &&& ~~~flagDf }
  obtain ⟨m, sp, hpushes, hpushed⟩ := c₂.pushes_eq [ret, err, eip, cs] hroom
  refine ⟨{ c₂ with regs := { c₂.regs with esp := sp }, mem := m }, hpushed, rfl, rfl, rfl, fun f => ?_⟩
  unfold exception13Handler
  rw [hstart, run_then hdata, ← hpushes]
  rfl

/-- A fault calls `gpf_handler_main` with the error code and with the place of the instruction,
and the report that it prints belongs to no other fault. -/
theorem fault_reported (hruns : c.Runs l) (hroom : low + 40 ≤ c.base.toNat) (err ret : U32) :
    ∃ c₁ d, c.interrupt 13 (some err) = some c₁ ∧ c₁.eip = l.exception13_handler ∧
      (∀ f, c₁.run (exception13Handler ret f) = some (f d)) ∧ Ready low d ∧ d.out = c.out ∧
      (∀ a : U32, a.toNat < low ∨ c.base.toNat ≤ a.toNat → d.mem a = c.mem a) ∧
      (∀ con, gpfHandlerMain con (d.word 1) (d.word 2) (d.word 3) =
        con.kprint (gpfReport err c.eip (c.sel.cs.setWidth 32))) ∧
      ∀ err' eip' cs', gpfReport err' eip' (BitVec.setWidth 32 cs') = gpfReport err c.eip (c.sel.cs.setWidth 32) →
        err' = err ∧ eip' = c.eip ∧ cs' = c.sel.cs := by
  have hlength := c.frame_length
  have hlimit := c.base.isLt
  obtain ⟨m, sp, hframe, henter⟩ := c.enter_eq ⟨l.exception13_handler, 0x08, 0⟩ (some err) (by
    change 4 * (c.frame.length + 1) ≤ _
    omega)
  have hdepth : sp.toNat + 4 * (c.frame.length + 1) = c.base.toNat := hframe.depth
  let c₁ : Cpu :=
    { c with
      regs := { c.regs with esp := sp }
      sel := { c.sel with cs := 0x08, ss := c.kernelSs }
      eip := l.exception13_handler
      eflags := c.eflags &&& ~~~flagsEntry
      mem := m }
  have hlevel : rpl 0x08 = 0 := by decide
  have hload : c₁.tables.gdt.loadsData c₁.cpl kernDataSel = true := by
    change c.tables.gdt.loadsData (rpl 0x08) kernDataSel = true
    rw [hlevel]
    exact hruns.tables.kernel_data
  have hsaved : 16 ≤ sp.toNat := by omega
  obtain ⟨d, hargs, hsel, hflags, hout, hrun⟩ := run_exception13 (c := c₁) hframe.stack hsaved hload ret
  have hstack := hargs.stack
  have hpushed := hframe.append hargs
  have hesp : d.regs.esp.toNat + 4 * 4 = sp.toNat := hargs.depth
  refine ⟨c₁, d, ?_, rfl, hrun, ⟨?_, fun s => ?_, ?_, by omega⟩, hout, fun a ha => hpushed.outside a (by omega),
    fun con => ?_, fun err' eip' cs' h => ?_⟩
  · exact (interrupt_eq hruns rfl rfl (some err)).trans (congrArg some henter)
  · rw [cpl, hsel]
    exact hlevel
  · rw [hsel]
    cases s <;> rfl
  · rw [hflags]
    change c.eflags &&& ~~~flagsEntry &&& ~~~flagIf &&& ~~~flagDf &&& (flagIf ||| flagDf) = 0
    rw [entry_cli]
    exact entry_flags c.eflags
  · have hword : ∀ i : Fin 4, d.word i.val = [ret, err, c.eip, c.sel.cs.setWidth 32].get i :=
      fun i => hstack.words i.val i.isLt
    have herr : d.word 1 = err := hword 1
    have heip : d.word 2 = c.eip := hword 2
    have hcs : d.word 3 = c.sel.cs.setWidth 32 := hword 3
    rw [herr, heip, hcs]
    exact gpfHandlerMain_eq con err c.eip _
  · obtain ⟨herr, heip, hcs⟩ := gpfReport_injective h
    refine ⟨herr, heip, ?_⟩
    rw [← low_word cs', hcs, low_word]

theorem fault_reported_once :
    ∃ c₁ d, Station.cpuA.interrupt 13 (some 0x18) = some c₁ ∧
      (∀ f, c₁.run (exception13Handler 0x100900 f) = some (f d)) ∧
      ∀ con, gpfHandlerMain con (d.word 1) (d.word 2) (d.word 3) = con.kprint (gpfReport 0x18 userBase 0x1B) := by
  have hroom : 0x80000 + 40 ≤ Station.cpuA.base.toNat := by decide
  obtain ⟨c₁, d, hint, -, hrun, -, -, -, hreport, -⟩ :=
    fault_reported Station.cpuA_user.runs hroom 0x18 0x100900
  exact ⟨c₁, d, hint, hrun, hreport⟩

end Cpu

end FrodOS
