import FrodOS.Cpu.Programs
import FrodOS.Kernel.DiskCalls
import Mathlib.Tactic.IntervalCases

/-!
# System calls at the processor (user_jump.s)

`int 0x80` shows `syscall_handler_main` the registers of the program as a `syscall_regs_t`,
and the program goes on with what the handler leaves there.
-/

namespace FrodOS
open Lib

/-- The `syscall_regs_t` at `p`. -/
def regsAt (m : Ram) (p : U32) : SyscallRegs where
  edi := load32 m (off p 0)
  esi := load32 m (off p 4)
  ebp := load32 m (off p 8)
  esp := load32 m (off p 12)
  ebx := load32 m (off p 16)
  edx := load32 m (off p 20)
  ecx := load32 m (off p 24)
  eax := load32 m (off p 28)

variable {m : Ram} {p : U32}

theorem regsAt_of_stack {r : SyscallRegs} {ws : List U32} (h : Stack m p (Cpu.words r ++ ws)) :
    regsAt m p = r := by
  have hword := Cpu.stack_words h
  exact (SyscallRegs.mk.injEq ..).mpr
    ⟨hword 0, hword 1, hword 2, hword 3, hword 4, hword 5, hword 6, hword 7⟩

theorem stack_regsAt (h : Fits p 32) : Stack m p (Cpu.words (regsAt m p)) := by
  refine ⟨h, fun i hi => ?_⟩
  have hlt : i < 8 := hi
  interval_cases i
  all_goals rfl

theorem regsAt_congr {m' : Ram} (h : Fits p 32)
    (hsame : ∀ a : U32, p.toNat ≤ a.toNat → a.toNat < p.toNat + 32 → m' a = m a) : regsAt m' p = regsAt m p := by
  have hword : ∀ i : Fin 8, load32 m' (off p (4 * i.val)) = load32 m (off p (4 * i.val)) := by
    intro i
    have hi := i.isLt
    unfold Fits at h
    have haddr := off_toNat p (4 * i.val) (by omega)
    exact load32_congr (by unfold Fits; omega) fun a hle hlt => hsame a (by omega) (by omega)
  exact (SyscallRegs.mk.injEq ..).mpr
    ⟨hword 0, hword 1, hword 2, hword 3, hword 4, hword 5, hword 6, hword 7⟩

theorem regsAt_store_eax (h : Fits p 32) (v : U32) :
    regsAt (store32 m (off p 28) v) p = { regsAt m p with eax := v } := by
  unfold Fits at h
  have hlow : ∀ i : Fin 7,
      load32 (store32 m (off p 28) v) (off p (4 * i.val)) = load32 m (off p (4 * i.val)) := by
    intro i
    have hi := i.isLt
    have haddr := off_toNat p (4 * i.val) (by omega)
    have hslot := off_toNat p 28 (by omega)
    refine load32_congr (by unfold Fits; omega) fun a _ hlt => ?_
    apply store32_outside
    rw [mem_span_iff (by unfold Fits; omega)]
    omega
  have htop : load32 (store32 m (off p 28) v) (off p 28) = v := load32_store32 m _ v (by decide)
  exact (SyscallRegs.mk.injEq ..).mpr ⟨hlow 0, hlow 1, hlow 2, hlow 3, hlow 4, hlow 5, hlow 6, htop⟩

/-- The address that a stub pushes for its handler. -/
def Cpu.argument (d : Cpu) : U32 := load32 d.mem (off d.regs.esp 4)

/-- What `syscall_handler_main` is called with: the registers lie above its argument on the stack. -/
structure Asked (low top : ℕ) (d : Cpu) : Prop where
  ready : Ready low d
  argument : d.argument = off d.regs.esp 8
  room : d.regs.esp.toNat + 40 ≤ top

/-- It comes back from the calls that it answers, and may have written the registers. What it
answers may depend on the memory that it finds. -/
def Handles (calls : Ram → SyscallRegs → Prop) (low top : ℕ) (f : Cpu → Cpu) : Prop :=
  ∀ d, Asked low top d → calls d.mem (regsAt d.mem d.argument) → Called (fun _ => True) top 40 d (f d)

namespace Cpu

variable {l : Labels} {c : Cpu} {own : U32 → Prop} {low top : ℕ}

theorem int_eq (hruns : c.Runs l) {v : Byte} {g : Gate} (hg : l.gate v = some g) (hdpl : c.cpl ≤ g.dpl) :
    c.int v = c.interrupt v none := by
  unfold int
  rw [hruns.tables.gate, hg]
  exact if_pos hdpl

/-- Whatever the kernel's stack holds, the call that `c` makes is one of them. -/
def Makes (calls : Ram → SyscallRegs → Prop) (low top : ℕ) (c : Cpu) : Prop :=
  ∀ (m : Ram) (p : U32), (∀ a : U32, a.toNat < low ∨ top ≤ a.toNat → m a = c.mem a) →
    calls m { c.regs with esp := p }

/-- How the handler of system calls finds the program `c`. -/
structure Shown (low top : ℕ) (c d : Cpu) : Prop where
  asked : Asked low top d
  regs : regsAt d.mem d.argument = { c.regs with esp := off d.argument 32 }
  others : ∀ a : U32, a.toNat < low ∨ c.base.toNat ≤ a.toNat → d.mem a = c.mem a
  out : d.out = c.out

theorem Shown.makes {d : Cpu} (h : Shown low top c d) (htop : c.base.toNat ≤ top)
    {calls : Ram → SyscallRegs → Prop} (hcalls : Makes calls low top c) : calls d.mem (regsAt d.mem d.argument) := by
  rw [h.regs]
  exact hcalls d.mem _ fun a ha => h.others a (by omega)

theorem Held.shown {d : Cpu} (h : c.Held d) (hroom : low + 76 ≤ c.base.toNat) (htop : c.base.toNat ≤ top)
    (ret : U32) :
    let d' := (d.push d.regs.esp).push ret
    Shown low top c d' ∧ d'.argument = d.regs.esp ∧ off d'.regs.esp 8 = d.regs.esp ∧
      Stack d'.mem (off d.regs.esp 32) (c.segments ++ c.frame) := by
  intro d'
  have hlength := c.frame_length
  have hdepth := h.depth
  have hlimit := c.base.isLt
  have hpushed := (h.pushed.push (by omega) d.regs.esp).push (by rw [Stack.sub_toNat (by omega)]; omega) ret
  have hesp : d'.regs.esp.toNat = d.regs.esp.toNat - 8 := by
    change (d.regs.esp - 4 - 4).toNat = _
    rw [Stack.sub_toNat (by rw [Stack.sub_toNat (by omega)]; omega), Stack.sub_toNat (by omega)]
    omega
  have hstack : Stack d'.mem d'.regs.esp
      ([ret, d.regs.esp] ++ (words { c.regs with esp := off d.regs.esp 32 } ++ (c.segments ++ c.frame))) :=
    hpushed.stack
  have harg : d'.argument = d.regs.esp := hstack.words 1 (Nat.succ_lt_succ (Nat.zero_lt_succ _))
  have hskip : off d'.regs.esp 8 = d.regs.esp := by
    apply BitVec.eq_of_toNat_eq
    rw [off_toNat _ _ (by omega)]
    omega
  have hregs : Stack d'.mem d.regs.esp
      (words { c.regs with esp := off d.regs.esp 32 } ++ (c.segments ++ c.frame)) := by
    have hdrop : Stack d'.mem (off d'.regs.esp 8) _ := hstack.drop
    rwa [hskip] at hdrop
  have hothers : ∀ a : U32, a.toNat < d'.regs.esp.toNat ∨ c.base.toNat ≤ a.toNat → d'.mem a = c.mem a :=
    hpushed.outside
  refine ⟨⟨⟨⟨h.level, h.data, h.flags, by omega⟩, ?_, by omega⟩, ?_, fun a ha => hothers a (by omega), h.out⟩,
    harg, hskip, hregs.drop⟩
  · rw [harg, hskip]
  · rw [harg]
    exact regsAt_of_stack hregs

/-- After a call that may have written the registers what lies above them is still there. -/
theorem Held.answered {d e : Cpu} {ret : U32} (h : c.Held d) (hroom : 76 ≤ c.base.toNat)
    (htop : c.base.toNat ≤ top)
    (hskip : off ((d.push d.regs.esp).push ret).regs.esp 8 = d.regs.esp)
    (hsaved : Stack ((d.push d.regs.esp).push ret).mem (off d.regs.esp 32) (c.segments ++ c.frame))
    (hcalled : Called (fun _ => True) top 40 ((d.push d.regs.esp).push ret) e) :
    off e.regs.esp 4 = d.regs.esp ∧
      Stack e.mem d.regs.esp (words (regsAt e.mem d.regs.esp) ++ (c.segments ++ c.frame)) := by
  have hlength := c.frame_length
  have hdepth := h.depth
  have hlimit := c.base.isLt
  have hesp : ((d.push d.regs.esp).push ret).regs.esp.toNat + 8 = d.regs.esp.toNat := by
    change (d.regs.esp - 4 - 4).toNat + 8 = _
    rw [Stack.sub_toNat (by rw [Stack.sub_toNat (by omega)]; omega), Stack.sub_toNat (by omega)]
    omega
  have habove : (off d.regs.esp 32).toNat = d.regs.esp.toNat + 32 := off_toNat _ _ (by omega)
  refine ⟨by rw [hcalled.esp, off_off, hskip], (stack_regsAt (by unfold Fits; omega)).above ?_ ?_⟩
  · refine hsaved.congr fun a hle hlt => ?_
    rw [habove] at hlt
    change (off d.regs.esp 32).toNat ≤ a.toNat at hle
    rw [List.length_append] at hlt
    change a.toNat < _ + 4 * (4 + c.frame.length) at hlt
    exact hcalled.stack a (by omega) (by omega)
  · rw [List.length_append]
    change Fits _ (4 * (8 + (4 + c.frame.length)))
    unfold Fits
    omega

/-- `int 0x80` shows the handler the registers of the program, and the program goes on behind it
with those that the handler leaves there, its stack pointer apart. -/
theorem syscall_returns (hruns : c.Runs l) (hroom : low + 76 ≤ c.base.toNat) (htop : c.base.toNat ≤ top)
    {calls : Ram → SyscallRegs → Prop} (hcalls : Makes calls low top c) {f : Cpu → Cpu}
    (hf : Handles calls low top f) (ret : U32) :
    ∃ c₁ d, c.int 0x80 = some c₁ ∧ c₁.eip = l.syscall_asm_handler ∧ Shown low top c d ∧
      c₁.run (syscallAsmHandler ret f) =
        some { c with
          regs := { regsAt (f d).mem d.argument with esp := c.regs.esp }
          mem := (f d).mem
          out := (f d).out } := by
  have hlevel : c.cpl ≤ 3 := by
    rcases hruns.level with h | h
    · omega
    · omega
  obtain ⟨c₁, d, hint, heip, hheld, hcli, hrun⟩ :=
    held_of_interrupt (v := 0x80) (g := ⟨l.syscall_asm_handler, 0x08, 3⟩) hruns rfl rfl (by omega)
  obtain ⟨hshown, harg, hskip, hsaved⟩ := hheld.shown hroom htop ret
  have hcalled := hf _ hshown.asked (hshown.makes htop hcalls)
  refine ⟨c₁, _, (int_eq hruns rfl hlevel).trans hint, heip, hshown, ?_⟩
  generalize hcall : f ((d.push d.regs.esp).push ret) = e at hcalled
  obtain ⟨hback, hwords⟩ := hheld.answered (by omega) htop hskip hsaved hcalled
  have hkernel : e.cpl = 0 := (congrArg (fun s => rpl (Selectors.cs s)) hcalled.sel).trans hheld.level
  have hrest := run_restoreAll (d := e.setEsp d.regs.esp) hruns (hcalled.tables.trans hheld.tables) hkernel
    (fun hl => (congrArg Selectors.ss hcalled.sel).trans (hheld.ss hl)) hwords hheld.depth
  have hstep : (d.push (d.regs.get .esp)).exec (.call ret f) = some e := congrArg some hcall
  have hadd : e.exec (.addEsp 4) = some (e.setEsp d.regs.esp) := by
    change some (e.setEsp (off e.regs.esp 4)) = _
    rw [hback]
  unfold syscallAsmHandler
  rw [run_step hcli, hrun, run_step rfl, run_step hstep, run_step hadd, harg]
  exact hrest

/-- The objects of the kernel are not on its stack. -/
def OffStack (low top : ℕ) (view : Ram → Kernel) : Prop :=
  ∀ m m' : Ram, (∀ a : U32, a.toNat < low ∨ top ≤ a.toNat → m' a = m a) → view m' = view m

/-- `f` does what `fsCall` does. -/
def Serves (calls : Ram → SyscallRegs → Prop) (low top : ℕ) (view : Ram → Kernel) (f : Cpu → Cpu) : Prop :=
  ∀ d, Asked low top d → calls d.mem (regsAt d.mem d.argument) →
    (fsCall (view d.mem) (regsAt d.mem d.argument)).control = .iret (regsAt (f d).mem d.argument) ∧
      view (f d).mem = (fsCall (view d.mem) (regsAt d.mem d.argument)).kernel

/-- A program that makes a file call goes on with the answer of the list of files in `eax`, and
with everything else that the processor holds as it was. -/
theorem fileCall_answers (hruns : c.Runs l) (hroom : low + 76 ≤ c.base.toNat) (htop : c.base.toNat ≤ top)
    {calls : Ram → SyscallRegs → Prop} (hcalls : Makes calls low top c) {f : Cpu → Cpu}
    (hf : Handles calls low top f) {view : Ram → Kernel} (hview : OffStack low top view)
    (hserves : Serves calls low top view f) (hfile : c.regs.eax ∈ [10, 11, 12, 13]) {disk : Disk}
    (hdisk : Mirrors (view c.mem).storage disk) (ret : U32) :
    let a := disk.call (view c.mem) c.regs
    ∃ c₁ m out, c.int 0x80 = some c₁ ∧ c₁.eip = l.syscall_asm_handler ∧
      c₁.run (syscallAsmHandler ret f) =
        some { c with regs := { c.regs with eax := BitVec.ofInt 32 a.code }, mem := m, out := out } ∧
      view m = { view c.mem with mem := a.mem, storage := (view m).storage } ∧
      Mirrors (view m).storage a.disk := by
  obtain ⟨c₁, d, hint, heip, hshown, hrun⟩ := syscall_returns hruns hroom htop hcalls hf ret
  have hfound : view d.mem = view c.mem := hview c.mem d.mem fun a ha => hshown.others a (by omega)
  obtain ⟨hcontrol, hkernel⟩ := hserves d hshown.asked (hshown.makes htop hcalls)
  rw [hfound, hshown.regs] at hcontrol hkernel
  have hagrees : Agrees (view c.mem) { c.regs with esp := off d.argument 32 }
      (fsCall (view c.mem) { c.regs with esp := off d.argument 32 }) (disk.call (view c.mem) c.regs) :=
    fsCall_agrees hdisk hfile
  have hleft : regsAt (f d).mem d.argument =
      { c.regs with esp := off d.argument 32, eax := BitVec.ofInt 32 (disk.call (view c.mem) c.regs).code } :=
    Control.iret.inj (hcontrol.symm.trans hagrees.control)
  refine ⟨c₁, (f d).mem, (f d).out, hint, heip, ?_, ?_, ?_⟩
  · rw [hrun, hleft]
  · rw [hkernel]
    exact hagrees.kernel
  · rw [hkernel]
    exact hagrees.mirrors

end Cpu

/-! ### The kernel in memory -/

theorem Asked.slot {low : ℕ} {d : Cpu} (h : Asked low 0x90000 d) :
    (off d.argument 28).toNat = d.regs.esp.toNat + 36 := by
  have hroom := h.room
  rw [h.argument, off_off, off_toNat _ _ (by omega)]

/-- The `frodfs_entry_t` with these bytes: the size at 32, the data at 36, `used` at 4132. -/
def entryOf (f : View) : FrodfsEntry :=
  if h : (∃ i : Fin 32, f i = 0) ∧ (leWord fun i => f (32 + i)).toNat ≤ 4096 then
    { name := fun i => f i
      size := leWord fun i => f (32 + i)
      data := fun j => f (36 + j)
      used := f 4132 ≠ 0
      name_nul := h.1
      size_le := h.2 }
  else bootStorage 0

/-- The kernel's part of memory that lies behind its code: the stack, and its objects. -/
def Hidden (a : U32) : Prop := 0x80000 ≤ a.toNat ∧ a.toNat < 0x200000

instance (a : U32) : Decidable (Hidden a) := inferInstanceAs (Decidable (_ ∧ _))

/-- What programs see of `m'`, over the kernel's own part of `m`. -/
def overlay (m m' : Ram) : Ram := fun a => if Hidden a then m a else m' a

def Control.eax : Control → U32
  | .iret regs => regs.eax
  | _ => 0

/-- The table of files at 0x110000. -/
def tableAt (m : Ram) : Storage :=
  fun i => entryOf fun j => if j < 4136 then m (off 0x110000 (4136 * i.val + j)) else 0

def kernelAt (m : Ram) : Kernel :=
  { letterKernel with
    mem := overlay (fun _ => 0) m
    storage := tableAt m }

theorem kernelAt_eq {m m' : Ram} (h : ∀ a : U32, 0x110000 ≤ a.toNat → a.toNat < 0x200000 → m' a = m a) :
    kernelAt m' = { kernelAt m with mem := (kernelAt m').mem } := by
  have htable : tableAt m' = tableAt m := by
    funext i
    refine congrArg entryOf (funext fun j => ?_)
    have hi := i.isLt
    by_cases hj : j < 4136
    · rw [if_pos hj, if_pos hj]
      have haddr := off_toNat (0x110000 : U32) (4136 * i.val + j) (by change 0x110000 + _ < _; omega)
      change _ = 0x110000 + _ at haddr
      exact h _ (by omega) (by omega)
    · rw [if_neg hj, if_neg hj]
  exact congrArg (fun t => { letterKernel with mem := (kernelAt m').mem, storage := t }) htable

namespace Cpu

theorem kernelAt_offStack : OffStack 0x80000 0x90000 kernelAt := by
  intro m m' h
  have hmem : (kernelAt m').mem = (kernelAt m).mem := by
    funext a
    by_cases ha : Hidden a
    · exact (if_pos ha).trans (if_pos ha).symm
    · have hout : a.toNat < 0x80000 ∨ 0x90000 ≤ a.toNat := by
        unfold Hidden at ha
        omega
      exact (if_neg ha).trans ((h a hout).trans (if_neg ha).symm)
  rw [kernelAt_eq fun a hle _ => h a (Or.inr (by omega)), hmem]

/-- A read or a listing whose regions are the program's own. -/
def Looks (m : Ram) (r : SyscallRegs) : Prop := r.eax ∈ [12, 13] ∧ (fsCall (kernelAt m) r).Isolated

/-- `syscall_handler_main`, as far as it serves these calls; what it computes on its own stack
is gone when it returns. -/
def serveCall (d : Cpu) : Cpu :=
  let o := fsCall (kernelAt d.mem) (regsAt d.mem d.argument)
  { d.setEsp (off d.regs.esp 4) with
    mem := store32 (overlay d.mem o.kernel.mem) (off d.argument 28) o.control.eax }

theorem looks_outcome {k : Kernel} {r : SyscallRegs} (h : r.eax ∈ [12, 13]) :
    (fsCall k r).control = .iret { r with eax := (fsCall k r).control.eax } ∧
      (fsCall k r).kernel = { k with mem := (fsCall k r).kernel.mem } := by
  simp only [List.mem_cons, List.not_mem_nil, or_false] at h
  unfold fsCall
  rcases h with he | he
  all_goals rw [he]
  · change (sysFsRead k r).control = .iret { r with eax := (sysFsRead k r).control.eax } ∧
      (sysFsRead k r).kernel = { k with mem := (sysFsRead k r).kernel.mem }
    unfold sysFsRead
    dsimp only
    split_ifs
    all_goals exact ⟨rfl, rfl⟩
  · change (sysFsList k r).control = .iret { r with eax := (sysFsList k r).control.eax } ∧
      (sysFsList k r).kernel = { k with mem := (sysFsList k r).kernel.mem }
    unfold sysFsList
    dsimp only
    split_ifs
    all_goals exact ⟨rfl, rfl⟩

theorem serveCall_handles : Handles Looks 0x80000 0x90000 serveCall := by
  intro d hd _
  have hroom := hd.room
  have hlow := hd.ready.stack
  refine ⟨rfl, rfl, rfl, fun a ha => absurd trivial ha, fun a ha hlt => ?_⟩
  have hhidden : Hidden a := ⟨by omega, by omega⟩
  refine (store32_outside _ _ _ ?_).trans (if_pos hhidden)
  rw [mem_span_iff (by unfold Fits; rw [hd.slot]; omega), hd.slot]
  omega

theorem serveCall_serves : Serves Looks 0x80000 0x90000 kernelAt serveCall := by
  intro d hd ⟨hcall, hown⟩
  have hroom := hd.room
  have hlow := hd.ready.stack
  obtain ⟨hcontrol, hkernel⟩ := looks_outcome (k := kernelAt d.mem) hcall
  have hbase : d.argument.toNat = d.regs.esp.toNat + 8 := by
    rw [hd.argument, off_toNat _ _ (by omega)]
  have hfits : Fits d.argument 32 := by
    unfold Fits
    omega
  have hslot : ∀ a : U32, a.toNat < 0x80000 ∨ 0x90000 ≤ a.toNat → a ∉ span (off d.argument 28) 4 := by
    intro a ha
    rw [mem_span_iff (by unfold Fits; rw [hd.slot]; omega), hd.slot]
    omega
  have hobjects : ∀ a : U32, 0x110000 ≤ a.toNat → a.toNat < 0x200000 → (serveCall d).mem a = d.mem a := by
    intro a hle hlt
    exact (store32_outside _ _ _ (hslot a (Or.inr (by omega)))).trans (if_pos ⟨by omega, hlt⟩)
  have hseen : (kernelAt (serveCall d).mem).mem =
      (fsCall (kernelAt d.mem) (regsAt d.mem d.argument)).kernel.mem := by
    funext a
    by_cases ha : Hidden a
    · have hbelow : a.toNat < 0x200000 := ha.2
      have hkept := fsCall_outside (kernelAt d.mem) (regsAt d.mem d.argument) (a := a) fun hmem =>
        absurd (hown a hmem) (Nat.not_le.mpr hbelow)
      exact (if_pos ha).trans ((if_pos ha).symm.trans hkept.symm)
    · have hout : a.toNat < 0x80000 ∨ 0x90000 ≤ a.toNat := by
        unfold Hidden at ha
        omega
      exact (if_neg ha).trans ((store32_outside _ _ _ (hslot a hout)).trans (if_neg ha))
  refine ⟨hcontrol.trans (congrArg Control.iret ?_), ?_⟩
  · have hbehind (m : Ram) : regsAt (overlay d.mem m) d.argument = regsAt d.mem d.argument :=
      regsAt_congr hfits fun a hle hlt => if_pos ⟨by omega, by omega⟩
    have hleft : regsAt (serveCall d).mem d.argument = _ := regsAt_store_eax hfits _
    rw [hleft, hbehind]
  · rw [kernelAt_eq hobjects, hseen, ← hkernel]

/-- The file "a" of the bytes 7 and 8 in slot 0, and a parameter block for a read of it. -/
def readerMem : Ram := fun a =>
  ([(0x110000, 97), (0x110020, 2), (0x110024, 7), (0x110025, 8), (0x111024, 1), (0x400002, 0x30), (0x400006, 0x50),
    (0x400009, 0x10), (0x40000E, 0x60), (0x300000, 97)].lookup a).getD 0

def readerA : Cpu :=
  { Station.cpuA with
    regs := { Station.cpuA.regs with eax := 12, ebx := 0x400000 }
    mem := readerMem }

def diskSevenEight : Disk := ⟨[([97], [7, 8])], by decide, by decide, by decide⟩

theorem readerMem_mirrors : Mirrors (kernelAt readerMem).storage diskSevenEight := by
  unfold Mirrors
  decide +kernel

theorem readerA_makes : Makes Looks 0x80000 0x90000 readerA := by
  intro m p hm
  refine ⟨List.mem_cons_self, ?_⟩
  have hsame : kernelAt m = kernelAt readerMem := kernelAt_offStack readerMem m hm
  have hname : param (kernelAt readerMem) 0x400000 0 = 0x300000 := by decide +kernel
  have hbuffer : param (kernelAt readerMem) 0x400000 1 = 0x500000 := by decide +kernel
  have hcount : param (kernelAt readerMem) 0x400000 3 = 0x600000 := by decide +kernel
  have hfits : FsReadFits (kernelAt readerMem) 0x400000 := fun _ =>
    ⟨by decide, fun _ _ _ => by
      rw [hname, hbuffer, hcount]
      exact readFits_of_room _ _ _ (by decide) (by decide) (by decide)⟩
  rw [hsame]
  refine (fsCall_isolated_iff _ _).mpr ⟨fun h => ?_, fun h => ?_, fun _ => hfits, fun h => ?_⟩
  all_goals
    change (12 : U32) = _ at h
    exact absurd h (by decide)

/-- A program reads a file of two bytes, and finds them and their number in its memory. -/
theorem fileCall_answers_read :
    ∃ c₁ m out, readerA.int 0x80 = some c₁ ∧
      c₁.run (syscallAsmHandler 0x100700 serveCall) =
        some { readerA with regs := { readerA.regs with eax := 0 }, mem := m, out := out } ∧
      m 0x500000 = 7 ∧ m 0x500001 = 8 ∧ load32 m 0x600000 = 2 := by
  have hruns : readerA.Runs Station.labelsA :=
    have h := Station.cpuA_user.runs
    ⟨h.tables, h.level, h.data, h.code, h.stack⟩
  have hbase : readerA.base = 0x90000 := rfl
  obtain ⟨c₁, m, out, hint, -, hrun, hview, -⟩ :=
    fileCall_answers hruns (by rw [hbase]; decide) (by rw [hbase]; decide) readerA_makes serveCall_handles
      kernelAt_offStack serveCall_serves (by decide) readerMem_mirrors 0x100700
  have hseen {a : U32} (ha : ¬ Hidden a) :
      m a = (diskSevenEight.call (kernelAt readerMem) readerA.regs).mem a :=
    (if_neg ha).symm.trans (congrFun (congrArg Kernel.mem hview) a)
  refine ⟨c₁, m, out, hint, hrun, ?_, ?_, ?_⟩
  · exact (hseen (by decide)).trans (by decide +kernel)
  · exact (hseen (by decide)).trans (by decide +kernel)
  · refine (leWord_congr _ _ fun i hi => hseen (a := off 0x600000 i) ?_).trans (by decide +kernel)
    unfold Hidden
    rw [off_toNat _ _ (by change 0x600000 + _ < _; omega)]
    change ¬ (_ ∧ 0x600000 + i < _)
    omega

end Cpu

end FrodOS
