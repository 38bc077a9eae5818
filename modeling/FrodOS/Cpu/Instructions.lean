import FrodOS.Cpu.Gates
import FrodOS.Lib.Stack

/-!
# The instructions of the kernel's assembly (boot.s, user_jump.s)

As much of the processor as the assembly of the kernel uses: the general registers, the
selectors, the flags, memory, the bytes that go to ports, and the tables that the kernel
loaded. `call` runs a C function. A selector is pushed as a word with its upper half clear,
and an instruction that faults has no result.
-/

namespace FrodOS
open Lib

inductive Seg where
  | ds
  | es
  | fs
  | gs

structure Selectors where
  (cs ds es fs gs ss : BitVec 16)

namespace Selectors

def get (s : Selectors) : Seg → BitVec 16
  | .ds => s.ds
  | .es => s.es
  | .fs => s.fs
  | .gs => s.gs

def set (s : Selectors) (v : BitVec 16) : Seg → Selectors
  | .ds => { s with ds := v }
  | .es => { s with es := v }
  | .fs => { s with fs := v }
  | .gs => { s with gs := v }

end Selectors

inductive Reg where
  | eax
  | ebx
  | ecx
  | edx
  | esp

def SyscallRegs.get (r : SyscallRegs) : Reg → U32
  | .eax => r.eax
  | .ebx => r.ebx
  | .ecx => r.ecx
  | .edx => r.edx
  | .esp => r.esp

def SyscallRegs.set (r : SyscallRegs) (v : U32) : Reg → SyscallRegs
  | .eax => { r with eax := v }
  | .ebx => { r with ebx := v }
  | .ecx => { r with ecx := v }
  | .edx => { r with edx := v }
  | .esp => { r with esp := v }

structure Tables where
  gdt : Gdt
  tss : TssEntry
  idt : Idt

structure Cpu where
  regs : SyscallRegs
  sel : Selectors
  eip : U32
  eflags : U32
  mem : Ram
  /-- The bytes written to ports so far. -/
  out : List (Byte × Byte)
  tables : Tables

def flagIf : U32 := 0x200
def flagDf : U32 := 0x400
/-- TF, IF, NT, RF and VM -/
def flagsEntry : U32 := 0x34300

inductive Instr where
  | cli
  | cld
  | pushad
  | popad
  | pushSeg (s : Seg)
  | popSeg (s : Seg)
  /-- `mov` of a constant into the low half of a register -/
  | movLow (r : Reg) (imm : BitVec 16)
  | movAl (imm : Byte)
  | movImm (r : Reg) (imm : U32)
  /-- `mov` of the low half of a register into a selector -/
  | movSeg (s : Seg) (r : Reg)
  /-- `mov r, [esp + disp]` -/
  | load (r : Reg) (disp : ℕ)
  | push (r : Reg)
  | pushImm (imm : U32)
  | pushfd
  | pop (r : Reg)
  | orImm (r : Reg) (imm : U32)
  | addEsp (imm : U32)
  | outAl (port : Byte)
  | lgdt (g : Gdt)
  | movSs (r : Reg)
  /-- A far jump on the same level. -/
  | jmpFar (sel : BitVec 16) (eip : U32)
  | ret
  /-- A call of `f` from before the address `ret`. -/
  | call (ret : U32) (f : Cpu → Cpu)
  | iretd

namespace Cpu

def push (c : Cpu) (v : U32) : Cpu :=
  { c with regs := { c.regs with esp := c.regs.esp - 4 }, mem := store32 c.mem (c.regs.esp - 4) v }

def setEsp (c : Cpu) (v : U32) : Cpu := { c with regs := { c.regs with esp := v } }

def word (c : Cpu) (i : ℕ) : U32 := load32 c.mem (off c.regs.esp (4 * i))

def cpl (c : Cpu) : ℕ := rpl c.sel.cs

/-- `pushad` pushes the stack pointer that it starts with. -/
def pushad (c : Cpu) : Cpu :=
  let r := c.regs
  (((((((c.push r.eax).push r.ecx).push r.edx).push r.ebx).push r.esp).push r.ebp).push r.esi).push r.edi

/-- `popad` skips the stack pointer. -/
def popad (c : Cpu) : Cpu :=
  { c with
    regs :=
      { edi := c.word 0, esi := c.word 1, ebp := c.word 2, esp := off c.regs.esp 32,
        ebx := c.word 4, edx := c.word 5, ecx := c.word 6, eax := c.word 7 } }

def loadSeg (c : Cpu) (s : Seg) (v : BitVec 16) : Option Cpu :=
  if c.tables.gdt.loadsData c.cpl v then some { c with sel := c.sel.set v s } else none

def sheds (cpl : ℕ) (_rpl : ℕ) (access : Byte) : Bool :=
  ordinary access && !conforming access && decide (dpl access < cpl)

/-- A data selector on the way out to level `cpl`. -/
def shed (g : Gdt) (cpl : ℕ) (sel : BitVec 16) : BitVec 16 := if g.admits (sheds cpl) sel then 0 else sel

/-- `iretd`, with a change of stack when it lowers the privilege. -/
def iretd (c : Cpu) : Option Cpu :=
  let cs := (c.word 1).setWidth 16
  let ss := (c.word 4).setWidth 16
  let g := c.tables.gdt
  let c' := { c with eip := c.word 0, eflags := c.word 2 }
  if c.cpl < rpl cs then
    if g.loadsCode (rpl cs) cs && g.loadsStack (rpl cs) ss then
      let shed := shed g (rpl cs)
      some
        { c'.setEsp (c.word 3) with
          sel :=
            { cs := cs, ds := shed c.sel.ds, es := shed c.sel.es, fs := shed c.sel.fs, gs := shed c.sel.gs,
              ss := ss } }
    else none
  else if rpl cs = c.cpl && g.loadsCode c.cpl cs then
    some { c'.setEsp (off c.regs.esp 12) with sel := { c.sel with cs := cs } }
  else none

def exec (c : Cpu) : Instr → Option Cpu
  | .cli => some { c with eflags := c.eflags &&& ~~~flagIf }
  | .cld => some { c with eflags := c.eflags &&& ~~~flagDf }
  | .pushad => some c.pushad
  | .popad => some c.popad
  | .pushSeg s => some (c.push ((c.sel.get s).setWidth 32))
  | .popSeg s => (c.setEsp (off c.regs.esp 4)).loadSeg s ((c.word 0).setWidth 16)
  | .movLow r imm => some { c with regs := c.regs.set (c.regs.get r &&& 0xFFFF0000 ||| imm.setWidth 32) r }
  | .movAl imm => some { c with regs := { c.regs with eax := c.regs.eax &&& 0xFFFFFF00 ||| imm.setWidth 32 } }
  | .movImm r imm => some { c with regs := c.regs.set imm r }
  | .movSeg s r => c.loadSeg s ((c.regs.get r).setWidth 16)
  | .load r disp => some { c with regs := c.regs.set (load32 c.mem (off c.regs.esp disp)) r }
  | .push r => some (c.push (c.regs.get r))
  | .pushImm imm => some (c.push imm)
  | .pushfd => some (c.push (c.eflags &&& 0x00FCFFFF))
  | .pop r => some { c with regs := { c.regs with esp := off c.regs.esp 4 }.set (c.word 0) r }
  | .orImm r imm => some { c with regs := c.regs.set (c.regs.get r ||| imm) r }
  | .addEsp imm => some (c.setEsp (c.regs.esp + imm))
  | .outAl port => some { c with out := c.out ++ [(port, c.regs.eax.setWidth 8)] }
  | .lgdt g => some { c with tables := { c.tables with gdt := g } }
  | .movSs r =>
    let v := (c.regs.get r).setWidth 16
    if c.tables.gdt.loadsStack c.cpl v then some { c with sel := { c.sel with ss := v } } else none
  | .jmpFar sel eip =>
    if rpl sel = c.cpl && c.tables.gdt.loadsCode c.cpl sel then
      some { c with eip := eip, sel := { c.sel with cs := sel } }
    else none
  | .ret => some { c.setEsp (off c.regs.esp 4) with eip := c.word 0 }
  | .call ret f => some (f (c.push ret))
  | .iretd => c.iretd

def run (c : Cpu) (code : List Instr) : Option Cpu := code.foldlM exec c

/-! ### Interrupts -/

/-- The stack that an interrupt pushes on: a program leaves its own for that of the task state. -/
def kernelStack (c : Cpu) : Cpu :=
  if c.cpl = 0 then c
  else
    let c' :=
      { c with
        regs := { c.regs with esp := c.tables.tss.esp0 }
        sel := { c.sel with ss := c.tables.tss.ss0.setWidth 16 } }
    (c'.push (c.sel.ss.setWidth 32)).push c.regs.esp

/-- Through a gate to level 0, with an error code if there is one. -/
def enter (c : Cpu) (g : Gate) (err : Option U32) : Cpu :=
  let c' := ((c.kernelStack.push c.eflags).push (c.sel.cs.setWidth 32)).push c.eip
  let c' := match err with
    | some e => c'.push e
    | none => c'
  { c' with
    eip := g.offset
    eflags := c.eflags &&& ~~~flagsEntry
    sel := { c'.sel with cs := g.sel } }

/-- An interrupt that hardware raises. Without a gate, or one to code that is not of level 0,
there is a fault instead. -/
def interrupt (c : Cpu) (v : Byte) (err : Option U32) : Option Cpu :=
  match (c.tables.idt v).gate with
  | some g => if c.tables.gdt.loadsCode 0 g.sel then some (c.enter g err) else none
  | none => none

/-- `int v`, with `eip` behind the instruction. -/
def int (c : Cpu) (v : Byte) : Option Cpu :=
  match (c.tables.idt v).gate with
  | some g => if c.cpl ≤ g.dpl then c.interrupt v none else none
  | none => none

/-! ### Running code -/

variable {c c' : Cpu} {i : Instr} {code : List Instr}

theorem run_step (h : c.exec i = some c') : c.run (i :: code) = c'.run code := by
  change (c.exec i).bind (fun c => c.run code) = _
  rw [h]
  rfl

theorem run_append (c : Cpu) (code code' : List Instr) :
    c.run (code ++ code') = (c.run code).bind fun c => c.run code' := List.foldlM_append

theorem run_then {code' : List Instr} (h : c.run code = some c') : c.run (code ++ code') = c'.run code' := by
  rw [run_append, h]
  rfl

theorem run_single (c : Cpu) (i : Instr) : c.run [i] = c.exec i := Option.bind_fun_some (c.exec i)

theorem loadSeg_of {s : Seg} {v : BitVec 16} (h : c.tables.gdt.loadsData c.cpl v = true) :
    c.loadSeg s v = some { c with sel := c.sel.set v s } :=
  if_pos h

/-! ### The stack -/

/-- The words are pushed from the last to the first. -/
def pushes (c : Cpu) (ws : List U32) : Cpu := ws.foldr (fun w c => c.push w) c

theorem pushes_eq (c : Cpu) (ws : List U32) (hroom : 4 * ws.length ≤ c.regs.esp.toNat) :
    ∃ m sp, c.pushes ws = { c with regs := { c.regs with esp := sp }, mem := m } ∧
      Pushed c.mem c.regs.esp ws m sp := by
  induction ws with
  | nil => exact ⟨c.mem, c.regs.esp, rfl, .nil _ _⟩
  | cons w ws ih =>
    rw [List.length_cons] at hroom
    obtain ⟨m, sp, heq, hpushed⟩ := ih (by omega)
    have hdepth := hpushed.depth
    refine ⟨store32 m (sp - 4) w, sp - 4, ?_, hpushed.push (by omega) w⟩
    change (c.pushes ws).push w = _
    rw [heq]
    rfl

theorem word_eq {ws : List U32} (h : Stack c.mem c.regs.esp ws) {i : ℕ} (hi : i < ws.length) :
    c.word i = ws[i] :=
  h.words i hi

end Cpu

end FrodOS
