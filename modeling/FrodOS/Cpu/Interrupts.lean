import FrodOS.Cpu.Stubs
import FrodOS.Lib.Run

/-!
# Interrupts behind the back of a program (boot.s)

A C function is known by its calling convention only: where it may write, and what of the
stack it leaves alone. With that a stub brings an interrupted program back as it was, and
over a run the program cannot tell whether interrupts came.
-/

namespace FrodOS
open Lib

/-- What a C function of the kernel may rely on, with the stack that it has down to `low`. -/
structure Ready (low : ℕ) (d : Cpu) : Prop where
  level : d.cpl = 0
  data : ∀ s, d.sel.get s = kernDataSel
  flags : d.eflags &&& (flagIf ||| flagDf) = 0
  stack : low ≤ d.regs.esp.toNat

/-- How it comes back. It writes the kernel's `own` addresses, but not the stack up to `top`
from `keep` bytes above its return address on. -/
structure Called (own : U32 → Prop) (top keep : ℕ) (d d' : Cpu) : Prop where
  esp : d'.regs.esp = off d.regs.esp 4
  sel : d'.sel = d.sel
  tables : d'.tables = d.tables
  others : ∀ a, ¬ own a → d'.mem a = d.mem a
  stack : ∀ a, d.regs.esp.toNat + keep ≤ a.toNat → a.toNat < top → d'.mem a = d.mem a

def Cdecl (own : U32 → Prop) (low top keep : ℕ) (f : Cpu → Cpu) : Prop :=
  ∀ d, Ready low d → d.regs.esp.toNat + keep ≤ top → Called own top keep d (f d)

namespace Cpu

/-- In the kernel for `c`, which lies on the stack. -/
structure Held (c d : Cpu) : Prop where
  pushed : Pushed c.mem c.base (words { c.regs with esp := off d.regs.esp 32 } ++ (c.segments ++ c.frame)) d.mem
    d.regs.esp
  tables : d.tables = c.tables
  out : d.out = c.out
  level : d.cpl = 0
  data : ∀ s, d.sel.get s = kernDataSel
  ss : c.cpl = 0 → d.sel.ss = c.sel.ss
  flags : d.eflags &&& (flagIf ||| flagDf) = 0

variable {l : Labels} {c : Cpu}

theorem interrupt_eq (hruns : c.Runs l) {v : Byte} {g : Gate} (hg : l.gate v = some g) (hsel : g.sel = 0x08)
    (err : Option U32) : c.interrupt v err = some (c.enter g err) := by
  unfold interrupt
  rw [hruns.tables.gate, hg]
  dsimp only
  rw [hsel, hruns.tables.kernel_code, if_pos rfl]

theorem entry_cli (v : U32) : v &&& ~~~flagsEntry &&& ~~~flagIf = v &&& ~~~flagsEntry := by
  rw [BitVec.and_assoc]
  rfl

theorem entry_flags (v : U32) : v &&& ~~~flagsEntry &&& ~~~flagDf &&& (flagIf ||| flagDf) = 0 := by
  have hnone : ~~~flagsEntry &&& (~~~flagDf &&& (flagIf ||| flagDf)) = 0#32 := rfl
  rw [BitVec.and_assoc, BitVec.and_assoc, hnone, BitVec.and_zero]
  rfl

/-- An interrupt through a stub: the program is on the stack, and C code can run. -/
theorem held_of_interrupt (hruns : c.Runs l) {v : Byte} {g : Gate} (hg : l.gate v = some g)
    (hsel : g.sel = 0x08) (hroom : 68 ≤ c.base.toNat) :
    ∃ c₁ d, c.interrupt v none = some c₁ ∧ c₁.eip = g.offset ∧ c.Held d ∧ c₁.exec .cli = some c₁ ∧
      ∀ code, c₁.run (saveAll ++ (kernelData .eax ++ .cld :: code)) = d.run code := by
  have hlength := c.frame_length
  obtain ⟨m, sp, hframe, henter⟩ := c.enter_eq g none (by
    change 4 * c.frame.length ≤ _
    omega)
  have hdepth : sp.toNat + 4 * c.frame.length = c.base.toNat := hframe.depth
  let c₁ : Cpu :=
    { c with
      regs := { c.regs with esp := sp }
      sel := { c.sel with cs := 0x08, ss := c.kernelSs }
      eip := g.offset
      eflags := c.eflags &&& ~~~flagsEntry
      mem := m }
  obtain ⟨m', sp', hsaved, hsave⟩ := c₁.run_saveAll (by change 48 ≤ sp.toNat; omega)
  have hlevel : rpl 0x08 = 0 := by decide
  have hdata := run_kernelData { c₁ with regs := { c₁.regs with esp := sp' }, mem := m' } .eax (by
    change c.tables.gdt.loadsData (rpl 0x08) kernDataSel = true
    rw [hlevel]
    exact hruns.tables.kernel_data)
  let d : Cpu :=
    { c₁ with
      regs := { c.regs with esp := sp', eax := c.regs.eax &&& 0xFFFF0000 ||| kernDataSel.setWidth 32 }
      sel := ⟨0x08, kernDataSel, kernDataSel, kernDataSel, kernDataSel, c.kernelSs⟩
      eflags := c.eflags &&& ~~~flagsEntry &&& ~~~flagDf
      mem := m' }
  refine ⟨c₁, d, ?_, rfl, ?_, ?_, fun code => ?_⟩
  · rw [interrupt_eq hruns hg hsel, henter, hsel]
  · refine ⟨hframe.append hsaved, rfl, rfl, hlevel, fun s => ?_, fun hl => if_pos hl, entry_flags c.eflags⟩
    cases s <;> rfl
  · change some { c₁ with eflags := c.eflags &&& ~~~flagsEntry &&& ~~~flagIf } = some c₁
    rw [entry_cli]
  · rw [run_then hsave, run_then hdata]
    exact run_step rfl

theorem Held.depth {d : Cpu} (h : c.Held d) : d.regs.esp.toNat + 4 * (12 + c.frame.length) = c.base.toNat := by
  have hdepth := h.pushed.depth
  rw [List.length_append, List.length_append] at hdepth
  change d.regs.esp.toNat + 4 * (8 + (4 + c.frame.length)) = _ at hdepth
  omega

theorem push_mem (c : Cpu) (v : U32) {a : U32} (hroom : 4 ≤ c.regs.esp.toNat)
    (h : a.toNat < c.regs.esp.toNat - 4 ∨ c.regs.esp.toNat ≤ a.toNat) : (c.push v).mem a = c.mem a := by
  have hsub := Stack.sub_toNat hroom
  have hlow := c.regs.esp.isLt
  apply store32_outside
  rw [mem_span_iff (by unfold Fits; omega)]
  omega

theorem push_top (c : Cpu) (v : U32) : off (c.push v).regs.esp 4 = c.regs.esp :=
  BitVec.sub_add_cancel c.regs.esp 4

variable {own : U32 → Prop} {low top : ℕ}

/-- After a call what a stub saved is still there. -/
theorem Held.called {d e : Cpu} {ret : U32} (h : c.Held d) (hroom : low + 4 ≤ d.regs.esp.toNat)
    (htop : c.base.toNat ≤ top) (hcalled : Called own top 4 (d.push ret) e) :
    e.regs.esp = d.regs.esp ∧
      Stack e.mem e.regs.esp (words { c.regs with esp := off d.regs.esp 32 } ++ (c.segments ++ c.frame)) := by
  have hesp : e.regs.esp = d.regs.esp := hcalled.esp.trans (d.push_top ret)
  have hsub : (d.push ret).regs.esp.toNat = d.regs.esp.toNat - 4 := Stack.sub_toNat (by omega)
  refine ⟨hesp, ?_⟩
  rw [hesp]
  refine h.pushed.keep fun a hle hlt => ?_
  rw [hcalled.stack a (by omega) (by omega), d.push_mem ret (by omega) (Or.inr hle)]

theorem Held.others {d e : Cpu} {ret : U32} (h : c.Held d)
    (hcover : ∀ a : U32, low ≤ a.toNat → a.toNat < top → own a)
    (hroom : low + 4 ≤ d.regs.esp.toNat) (htop : c.base.toNat ≤ top)
    (hcalled : Called own top 4 (d.push ret) e) {a : U32}
    (ha : ¬ own a ∨ c.base.toNat ≤ a.toNat ∧ a.toNat < top) : e.mem a = c.mem a := by
  have hsub : (d.push ret).regs.esp.toNat = d.regs.esp.toNat - 4 := Stack.sub_toNat (by omega)
  have hdepth := h.pushed.depth
  have hplace : a.toNat < low ∨ c.base.toNat ≤ a.toNat := by
    rcases ha with hown | hin
    · by_contra hout
      exact hown (hcover a (by omega) (by omega))
    · exact Or.inr hin.1
  have hpush := d.push_mem ret (a := a) (by omega) (by omega)
  have hsaved := h.pushed.outside a (by omega)
  rcases ha with hown | hin
  · rw [hcalled.others a hown, hpush, hsaved]
  · rw [hcalled.stack a (by omega) hin.2, hpush, hsaved]

theorem eoi_byte (v : U32) : (v &&& 0xFFFFFF00 ||| (0x20 : Byte).setWidth 32).setWidth 8 = (0x20 : Byte) := by
  have hhigh : (0xFFFFFF00 : U32).setWidth 8 = 0#8 := rfl
  rw [BitVec.setWidth_or, BitVec.setWidth_and, hhigh, BitVec.and_zero, BitVec.zero_or,
    BitVec.setWidth_setWidth_of_le _ (by decide), BitVec.setWidth_eq]

/-- A hardware interrupt comes back to the instruction before which it came, with everything
but the kernel's memory as it was, and acknowledges itself. -/
theorem irqStub_returns (hruns : c.Runs l) {v : Byte} {g : Gate} (hg : l.gate v = some g) (hsel : g.sel = 0x08)
    (hcover : ∀ a : U32, low ≤ a.toNat → a.toNat < top → own a) (hroom : low + 72 ≤ c.base.toNat)
    (htop : c.base.toNat ≤ top) {f : Cpu → Cpu} (hf : Cdecl own low top 4 f)
    (hquiet : ∀ d, (f d).out = d.out) (ret : U32) :
    ∃ c₁ m, c.interrupt v none = some c₁ ∧ c₁.eip = g.offset ∧
      c₁.run (irqStub ret f) = some { c with mem := m, out := c.out ++ [(0x20, 0x20)] } ∧
      ∀ a, (¬ own a ∨ c.base.toNat ≤ a.toNat ∧ a.toNat < top) → m a = c.mem a := by
  obtain ⟨c₁, d, hint, heip, hheld, -, hrun⟩ := held_of_interrupt hruns hg hsel (by omega)
  have hlength := c.frame_length
  have hdepth := hheld.depth
  have hsub : (d.push ret).regs.esp.toNat = d.regs.esp.toNat - 4 := Stack.sub_toNat (by omega)
  have hcalled := hf (d.push ret) ⟨hheld.level, hheld.data, hheld.flags, by omega⟩ (by omega)
  have hout : (f (d.push ret)).out = c.out := (hquiet _).trans hheld.out
  generalize hcall : f (d.push ret) = e at hcalled hout
  have hlow : low + 4 ≤ d.regs.esp.toNat := by omega
  obtain ⟨hesp, hstack⟩ := hheld.called hlow htop hcalled
  refine ⟨c₁, e.mem, hint, heip, ?_, fun a ha => hheld.others hcover (by omega) htop hcalled ha⟩
  have hlevel : e.cpl = 0 := (congrArg (fun s => rpl (Selectors.cs s)) hcalled.sel).trans hheld.level
  have hstep : d.exec (.call ret f) = some e := congrArg some hcall
  let eax := e.regs.eax &&& 0xFFFFFF00 ||| (0x20 : Byte).setWidth 32
  have hback :=
    run_restoreAll (d := { e with regs := { e.regs with eax := eax }, out := e.out ++ [(0x20, eax.setWidth 8)] })
    hruns (hcalled.tables.trans hheld.tables) hlevel
    (fun hl => (congrArg Selectors.ss hcalled.sel).trans (hheld.ss hl)) hstack (by
      change e.regs.esp.toNat + _ = _
      rw [hesp]
      exact hdepth)
  unfold irqStub
  rw [hrun, run_step hstep, run_step rfl, run_step rfl]
  refine hback.trans ?_
  have heoi : eax.setWidth 8 = (0x20 : Byte) := eoi_byte e.regs.eax
  change some (Cpu.mk c.regs c.sel c.eip c.eflags e.mem (e.out ++ [(0x20, eax.setWidth 8)]) c.tables) = _
  rw [heoi, hout]

end Cpu

end FrodOS
