import FrodOS.Cpu.Instructions

/-!
# The stubs (boot.s, user_jump.s)

The assembly between the processor and the C functions, and what holds when an interrupt has
come through a stub and when the stub goes back: everything of the interrupted program is on
the kernel stack in between.
-/

namespace FrodOS
open Lib

def kernDataSel : BitVec 16 := 0x10
def userCodeSel : BitVec 16 := 0x1B
def userDataSel : BitVec 16 := 0x23

def saveAll : List Instr := [Seg.ds, .es, .fs, .gs].map .pushSeg ++ [.pushad]

def movData (r : Reg) : List Instr := [Seg.ds, .es, .fs, .gs].map fun s => .movSeg s r

def kernelData (r : Reg) : List Instr := .movLow r kernDataSel :: movData r

def restoreAll : List Instr := .popad :: [Seg.gs, .fs, .es, .ds].map .popSeg ++ [.iretd]

/-- `IRQ_STUB`, with the address behind its call -/
def irqStub (ret : U32) (f : Cpu → Cpu) : List Instr :=
  saveAll ++ (kernelData .eax ++ (.cld :: .call ret f :: .movAl 0x20 :: .outAl 0x20 :: restoreAll))

def syscallAsmHandler (ret : U32) (f : Cpu → Cpu) : List Instr :=
  .cli :: (saveAll ++ (kernelData .eax ++ (.cld :: .push .esp :: .call ret f :: .addEsp 4 :: restoreAll)))

/-- `exception13_handler`, up to `.halt_loop` -/
def exception13Handler (ret : U32) (f : Cpu → Cpu) : List Instr :=
  .cli :: .load .eax 0 :: .load .ebx 4 :: .load .ecx 8 ::
    (kernelData .edx ++ [.cld, .push .ecx, .push .ebx, .push .eax, .call ret f])

/-- What `gdt_install` and `idt_install` loaded. -/
structure Tables.Installed (t : Tables) (l : Labels) : Prop where
  gdt : ∃ tss gdt, t.gdt = gdtInstall tss gdt
  tss : t.tss = kernelTss
  idt : ∃ idt, t.idt = (idtInstall l idt).1

namespace Tables.Installed

variable {t : Tables} {l : Labels}

theorem gate (h : t.Installed l) (v : Byte) : (t.idt v).gate = l.gate v := by
  obtain ⟨idt, hidt⟩ := h.idt
  rw [hidt]
  exact idtInstall_gate l idt v

theorem admits (h : t.Installed l) {check : ℕ → Byte → Bool} (habsent : ∀ r, check r 0 = false)
    (sel : BitVec 16) :
    t.gdt.admits check sel = admitted check sel.toNat := by
  obtain ⟨tss, gdt, hgdt⟩ := h.gdt
  rw [hgdt]
  exact gdtInstall_admits tss gdt habsent sel

theorem kernel_code (h : t.Installed l) : t.gdt.loadsCode 0 0x08 = true := h.admits (mayRun_absent 0) 0x08

theorem kernel_data (h : t.Installed l) : t.gdt.loadsData 0 kernDataSel = true := by
  rw [Gdt.loadsData, h.admits (mayRead_absent 0)]
  rfl

theorem user_data (h : t.Installed l) : t.gdt.loadsData 3 userDataSel = true := by
  rw [Gdt.loadsData, h.admits (mayRead_absent 3)]
  rfl

theorem user_code (h : t.Installed l) : t.gdt.loadsCode 3 userCodeSel = true :=
  h.admits (mayRun_absent 3) userCodeSel

theorem user_stack (h : t.Installed l) : t.gdt.loadsStack 3 userDataSel = true :=
  h.admits (mayStack_absent 3) userDataSel

end Tables.Installed

theorem mayRead_mono {cpl cpl' r : ℕ} {access : Byte} (hle : cpl' ≤ cpl) (h : mayRead cpl r access = true) :
    mayRead cpl' r access = true := by
  unfold mayRead at *
  simp only [Bool.and_eq_true, Bool.or_eq_true, decide_eq_true_eq] at h ⊢
  exact ⟨h.1, h.2.imp_right fun hdpl => (max_le_max_right r hle).trans hdpl⟩

theorem mayRead_sheds {cpl r : ℕ} {access : Byte} (h : mayRead cpl r access = true) :
    Cpu.sheds cpl r access = false := by
  unfold mayRead at h
  simp only [Bool.and_eq_true, Bool.or_eq_true, decide_eq_true_eq] at h
  unfold Cpu.sheds
  rcases h.2 with hconf | hdpl
  · rw [hconf, Bool.not_true, Bool.and_false, Bool.false_and]
  · rw [decide_eq_false (Nat.not_lt.mpr ((le_max_left cpl r).trans hdpl)), Bool.and_false]

namespace Tables.Installed

variable {t : Tables} {l : Labels} {sel : BitVec 16}

theorem loadsData_mono (h : t.Installed l) {cpl cpl' : ℕ} (hle : cpl' ≤ cpl)
    (hload : t.gdt.loadsData cpl sel = true) :
    t.gdt.loadsData cpl' sel = true := by
  rw [Gdt.loadsData, h.admits (mayRead_absent _), Bool.or_eq_true] at *
  refine hload.imp_right fun hadmits => ?_
  rw [admitted, Bool.and_eq_true] at *
  exact ⟨hadmits.1, mayRead_mono hle hadmits.2⟩

/-- What a program could load it keeps on the way back to it. -/
theorem shed_of_loads (h : t.Installed l) {cpl : ℕ} (hload : t.gdt.loadsData cpl sel = true) :
    Cpu.shed t.gdt cpl sel = sel := by
  have hkept : t.gdt.admits (Cpu.sheds cpl) sel = false := by
    rw [Gdt.loadsData, h.admits (mayRead_absent _), Bool.or_eq_true, decide_eq_true_eq] at hload
    rw [h.admits fun _ => rfl, admitted]
    rcases hload with hnull | hadmits
    · rw [Nat.div_eq_of_lt (by omega : sel.toNat < 8)]
      exact Bool.and_false _
    · rw [admitted, Bool.and_eq_true] at hadmits
      rw [mayRead_sheds hadmits.2, Bool.and_false]
  rw [Cpu.shed, hkept]
  rfl

end Tables.Installed

/-! ### An interrupted program -/

namespace Cpu

/-- What the processor checks as it goes along. -/
structure Runs (l : Labels) (c : Cpu) : Prop where
  tables : c.tables.Installed l
  level : c.cpl = 0 ∨ c.cpl = 3
  data : ∀ s, c.tables.gdt.loadsData c.cpl (c.sel.get s) = true
  code : c.tables.gdt.loadsCode c.cpl c.sel.cs = true
  stack : c.tables.gdt.loadsStack c.cpl c.sel.ss = true

theorem user_runs {l : Labels} {c : Cpu} (htables : c.tables.Installed l) (hcs : c.sel.cs = userCodeSel)
    (hdata : ∀ s, c.sel.get s = userDataSel) (hss : c.sel.ss = userDataSel) : c.Runs l ∧ c.cpl = 3 := by
  have hlevel : c.cpl = 3 := by
    rw [cpl, hcs]
    rfl
  refine ⟨⟨htables, Or.inr hlevel, fun s => ?_, ?_, ?_⟩, hlevel⟩
  · rw [hlevel, hdata]
    exact htables.user_data
  · rw [hlevel, hcs]
    exact htables.user_code
  · rw [hlevel, hss]
    exact htables.user_stack

/-- Where the kernel stack starts for an interrupt. -/
def base (c : Cpu) : U32 := if c.cpl = 0 then c.regs.esp else c.tables.tss.esp0

def kernelSs (c : Cpu) : BitVec 16 := if c.cpl = 0 then c.sel.ss else c.tables.tss.ss0.setWidth 16

def frame (c : Cpu) : List U32 :=
  [c.eip, c.sel.cs.setWidth 32, c.eflags] ++ if c.cpl = 0 then [] else [c.regs.esp, c.sel.ss.setWidth 32]

def words (r : SyscallRegs) : List U32 := [r.edi, r.esi, r.ebp, r.esp, r.ebx, r.edx, r.ecx, r.eax]

def segments (c : Cpu) : List U32 :=
  [c.sel.gs.setWidth 32, c.sel.fs.setWidth 32, c.sel.es.setWidth 32, c.sel.ds.setWidth 32]

theorem frame_length (c : Cpu) : c.frame.length ≤ 5 := by
  unfold frame
  split_ifs
  · exact (by decide : 3 ≤ 5)
  · exact le_refl 5

theorem enter_eq (c : Cpu) (g : Gate) (err : Option U32)
    (hroom : 4 * (err.toList ++ c.frame).length ≤ c.base.toNat) :
    ∃ m sp, Pushed c.mem c.base (err.toList ++ c.frame) m sp ∧
      c.enter g err =
        { c with
          regs := { c.regs with esp := sp }
          sel := { c.sel with cs := g.sel, ss := c.kernelSs }
          eip := g.offset
          eflags := c.eflags &&& ~~~flagsEntry
          mem := m } := by
  obtain ⟨m, sp, heq, hpushed⟩ := pushes_eq
    { c with regs := { c.regs with esp := c.base }, sel := { c.sel with ss := c.kernelSs } } _ hroom
  refine ⟨m, sp, hpushed, ?_⟩
  have henter : c.enter g err =
      { ({ c with regs := { c.regs with esp := c.base }, sel := { c.sel with ss := c.kernelSs } } : Cpu).pushes
          (err.toList ++ c.frame) with
        eip := g.offset
        eflags := c.eflags &&& ~~~flagsEntry
        sel := { c.sel with cs := g.sel, ss := c.kernelSs } } := by
    unfold enter kernelStack base kernelSs frame
    by_cases hlevel : c.cpl = 0
    · cases err <;> simp only [hlevel, if_true] <;> rfl
    · cases err <;> simp only [hlevel, if_false] <;> rfl
  rw [henter, heq]

theorem run_saveAll (c : Cpu) (hroom : 48 ≤ c.regs.esp.toNat) :
    ∃ m sp, Pushed c.mem c.regs.esp (words { c.regs with esp := off sp 32 } ++ c.segments) m sp ∧
      c.run saveAll = some { c with regs := { c.regs with esp := sp }, mem := m } := by
  obtain ⟨m, sp, heq, hpushed⟩ := c.pushes_eq
    (words { c.regs with esp := c.regs.esp - 4 - 4 - 4 - 4 } ++ c.segments) hroom
  have hdepth : sp.toNat + 48 = c.regs.esp.toNat := hpushed.depth
  have hskip : c.regs.esp - 4 - 4 - 4 - 4 = off sp 32 := by
    have hlow := c.regs.esp.isLt
    have hsub : ∀ sp : U32, 4 ≤ sp.toNat → (sp - 4).toNat = sp.toNat - 4 := fun _ h => Stack.sub_toNat h
    have h1 := hsub c.regs.esp (by omega)
    have h2 := hsub (c.regs.esp - 4) (by omega)
    have h3 := hsub (c.regs.esp - 4 - 4) (by omega)
    have h4 := hsub (c.regs.esp - 4 - 4 - 4) (by omega)
    apply BitVec.eq_of_toNat_eq
    rw [off_toNat _ _ (by omega)]
    omega
  rw [hskip] at hpushed
  exact ⟨m, sp, hpushed, congrArg some heq⟩

theorem low_half (v : U32) (imm : BitVec 16) : (v &&& 0xFFFF0000 ||| imm.setWidth 32).setWidth 16 = imm := by
  have hhigh : (0xFFFF0000 : U32).setWidth 16 = 0#16 := rfl
  rw [BitVec.setWidth_or, BitVec.setWidth_and, hhigh, BitVec.and_zero, BitVec.zero_or,
    BitVec.setWidth_setWidth_of_le _ (by decide), BitVec.setWidth_eq]

theorem set_get (r : SyscallRegs) (v : U32) (x : Reg) : (r.set v x).get x = v := by
  cases x <;> rfl

theorem set_cs (sel : Selectors) (v : BitVec 16) (s : Seg) : (sel.set v s).cs = sel.cs := by
  cases s <;> rfl

theorem run_movSegs {c : Cpu} {r : Reg} {v : BitVec 16} (hr : (c.regs.get r).setWidth 16 = v)
    (hload : c.tables.gdt.loadsData c.cpl v = true) (segs : List Seg) :
    c.run (segs.map fun s => .movSeg s r) =
      some { c with sel := segs.foldl (fun sel s => sel.set v s) c.sel } := by
  induction segs generalizing c with
  | nil => rfl
  | cons s segs ih =>
    have hmov : c.exec (.movSeg s r) = some { c with sel := c.sel.set v s } := by
      change c.loadSeg s ((c.regs.get r).setWidth 16) = _
      rw [hr]
      exact loadSeg_of hload
    have hcpl : ({ c with sel := c.sel.set v s } : Cpu).cpl = c.cpl := congrArg rpl (set_cs c.sel v s)
    rw [List.map_cons, run_step hmov]
    exact ih (c := { c with sel := c.sel.set v s }) hr (by rw [hcpl]; exact hload)

theorem run_kernelData (c : Cpu) (r : Reg) (hload : c.tables.gdt.loadsData c.cpl kernDataSel = true) :
    c.run (kernelData r) =
      some { c with
        regs := c.regs.set (c.regs.get r &&& 0xFFFF0000 ||| kernDataSel.setWidth 32) r
        sel := { c.sel with ds := kernDataSel, es := kernDataSel, fs := kernDataSel, gs := kernDataSel } } := by
  have hreg : ∀ v : U32,
      ((c.regs.set (v &&& 0xFFFF0000 ||| kernDataSel.setWidth 32) r).get r).setWidth 16 = kernDataSel := by
    intro v
    rw [set_get, low_half]
  rw [kernelData, run_step rfl]
  exact run_movSegs
    (c := { c with regs := c.regs.set (c.regs.get r &&& 0xFFFF0000 ||| kernDataSel.setWidth 32) r }) (hreg _) hload [.ds, .es, .fs, .gs]

/-! ### The way back -/

theorem low_word (v : BitVec 16) : (v.setWidth 32).setWidth 16 = v := by
  rw [BitVec.setWidth_setWidth_of_le _ (by decide), BitVec.setWidth_eq]

theorem stack_words {m : Ram} {p : U32} {r : SyscallRegs} {ws : List U32} (h : Stack m p (words r ++ ws))
    (i : Fin 8) :
    load32 m (off p (4 * i.val)) = (words r).get i := by
  have hlength : (words r).length = 8 := rfl
  rw [h.words i.val (by rw [List.length_append]; omega), List.getElem_append_left (by omega)]
  rfl

theorem popad_eq {c : Cpu} {r : SyscallRegs} {ws : List U32} (h : Stack c.mem c.regs.esp (words r ++ ws)) :
    c.exec .popad = some { c with regs := { r with esp := off c.regs.esp 32 } } := by
  have hword : ∀ i : Fin 8, c.word i.val = (words r).get i := fun i => stack_words h i
  have hedi : c.word 0 = r.edi := hword 0
  have hesi : c.word 1 = r.esi := hword 1
  have hebp : c.word 2 = r.ebp := hword 2
  have hebx : c.word 4 = r.ebx := hword 4
  have hedx : c.word 5 = r.edx := hword 5
  have hecx : c.word 6 = r.ecx := hword 6
  have heax : c.word 7 = r.eax := hword 7
  change some c.popad = _
  rw [popad, hedi, hesi, hebp, hebx, hedx, hecx, heax]

theorem run_popSegs {c : Cpu} {segs : List Seg} {v : Seg → BitVec 16} {ws : List U32}
    (h : Stack c.mem c.regs.esp (segs.map (fun s => (v s).setWidth 32) ++ ws))
    (hload : ∀ s, c.tables.gdt.loadsData c.cpl (v s) = true) :
    c.run (segs.map .popSeg) =
      some { c.setEsp (off c.regs.esp (4 * segs.length)) with
        sel := segs.foldl (fun sel s => sel.set (v s) s) c.sel } := by
  induction segs generalizing c with
  | nil =>
    change some c = some { c.setEsp (off c.regs.esp 0) with sel := c.sel }
    rw [off_zero]
    rfl
  | cons s segs ih =>
    have hword : (c.word 0).setWidth 16 = v s := by
      rw [word_eq h (Nat.zero_lt_succ _)]
      exact low_word (v s)
    have hpop : c.exec (.popSeg s) = some { c.setEsp (off c.regs.esp 4) with sel := c.sel.set (v s) s } := by
      change (c.setEsp (off c.regs.esp 4)).loadSeg s ((c.word 0).setWidth 16) = _
      rw [hword]
      exact loadSeg_of (hload s)
    have hcpl : ({ c.setEsp (off c.regs.esp 4) with sel := c.sel.set (v s) s } : Cpu).cpl = c.cpl :=
      congrArg rpl (set_cs c.sel (v s) s)
    have hrest := ih (c := { c.setEsp (off c.regs.esp 4) with sel := c.sel.set (v s) s }) h.tail
      fun s' => by rw [hcpl]; exact hload s'
    have hend : off (off c.regs.esp 4) (4 * segs.length) = off c.regs.esp (4 * (segs.length + 1)) := by
      rw [off_off]
      congr 1
      omega
    rw [List.map_cons, run_step hpop, hrest, List.length_cons, ← hend]
    rfl

theorem iretd_same {c : Cpu} {eip eflags : U32} {cs : BitVec 16}
    (h : Stack c.mem c.regs.esp [eip, cs.setWidth 32, eflags])
    (hlevel : rpl cs = c.cpl) (hcode : c.tables.gdt.loadsCode c.cpl cs = true) :
    c.iretd =
      some { c.setEsp (off c.regs.esp 12) with
        eip := eip
        eflags := eflags
        sel := { c.sel with cs := cs } } := by
  have hcs : (c.word 1).setWidth 16 = cs := by rw [word_eq h (by decide : 1 < 3)]; exact low_word cs
  have heip : c.word 0 = eip := word_eq h (by decide : 0 < 3)
  have hflags : c.word 2 = eflags := word_eq h (by decide : 2 < 3)
  unfold iretd
  dsimp only
  rw [hcs, heip, hflags, if_neg (by rw [hlevel]; exact lt_irrefl _), hcode, decide_eq_true hlevel]
  rfl

theorem iretd_outer {c : Cpu} {eip eflags esp : U32} {cs ss : BitVec 16}
    (h : Stack c.mem c.regs.esp [eip, cs.setWidth 32, eflags, esp, ss.setWidth 32]) (hlevel : c.cpl < rpl cs)
    (hcode : c.tables.gdt.loadsCode (rpl cs) cs = true) (hstack : c.tables.gdt.loadsStack (rpl cs) ss = true) :
    c.iretd =
      some { c.setEsp esp with
        eip := eip
        eflags := eflags
        sel :=
          { cs := cs
            ds := shed c.tables.gdt (rpl cs) c.sel.ds
            es := shed c.tables.gdt (rpl cs) c.sel.es
            fs := shed c.tables.gdt (rpl cs) c.sel.fs
            gs := shed c.tables.gdt (rpl cs) c.sel.gs
            ss := ss } } := by
  have hcs : (c.word 1).setWidth 16 = cs := by rw [word_eq h (by decide : 1 < 5)]; exact low_word cs
  have hss : (c.word 4).setWidth 16 = ss := by rw [word_eq h (by decide : 4 < 5)]; exact low_word ss
  have heip : c.word 0 = eip := word_eq h (by decide : 0 < 5)
  have hflags : c.word 2 = eflags := word_eq h (by decide : 2 < 5)
  have hesp : c.word 3 = esp := word_eq h (by decide : 3 < 5)
  unfold iretd
  dsimp only
  rw [hcs, hss, heip, hflags, hesp, if_pos hlevel, hcode, hstack]
  rfl

/-- With the frame of `c` on the stack and the data selectors of `c` an `iretd` goes back to `c`. -/
theorem iretd_back {l : Labels} {c d : Cpu} (hruns : c.Runs l) (htables : d.tables = c.tables)
    (hlevel : d.cpl = 0)
    (hss : c.cpl = 0 → d.sel.ss = c.sel.ss) (hdata : ∀ s, d.sel.get s = c.sel.get s)
    (h : Stack d.mem d.regs.esp c.frame) (hsame : c.cpl = 0 → d.regs.esp.toNat + 12 = c.regs.esp.toNat) :
    d.iretd = some { c with regs := { d.regs with esp := c.regs.esp }, mem := d.mem, out := d.out } := by
  have hds : d.sel.ds = c.sel.ds := hdata .ds
  have hes : d.sel.es = c.sel.es := hdata .es
  have hfs : d.sel.fs = c.sel.fs := hdata .fs
  have hgs : d.sel.gs = c.sel.gs := hdata .gs
  rcases hruns.level with hl | hl
  · -- the processor was in the kernel, on the same stack
    rw [frame, if_pos hl] at h
    have htop := hsame hl
    have hesp : off d.regs.esp 12 = c.regs.esp := by
      apply BitVec.eq_of_toNat_eq
      have hlow := c.regs.esp.isLt
      rw [off_toNat _ _ (by omega), htop]
    have hrpl : rpl c.sel.cs = d.cpl := by rw [hlevel]; exact hl
    have hcode : d.tables.gdt.loadsCode d.cpl c.sel.cs = true := by
      rw [htables, hlevel, ← hl]
      exact hruns.code
    rw [iretd_same h hrpl hcode, hesp]
    change some
      (Cpu.mk _ (Selectors.mk c.sel.cs d.sel.ds d.sel.es d.sel.fs d.sel.gs d.sel.ss) _ _ _ _ d.tables) = _
    rw [hds, hes, hfs, hgs, hss hl, htables]
    rfl
  · rw [frame, if_neg (by omega)] at h
    have houter : d.cpl < rpl c.sel.cs := by
      rw [hlevel]
      change 0 < c.cpl
      omega
    have hcode : d.tables.gdt.loadsCode (rpl c.sel.cs) c.sel.cs = true := by
      rw [htables]
      exact hruns.code
    have hstack : d.tables.gdt.loadsStack (rpl c.sel.cs) c.sel.ss = true := by
      rw [htables]
      exact hruns.stack
    have hshed : ∀ s, shed d.tables.gdt (rpl c.sel.cs) (c.sel.get s) = c.sel.get s := by
      intro s
      rw [htables]
      exact hruns.tables.shed_of_loads (hruns.data s)
    have hds' : shed d.tables.gdt (rpl c.sel.cs) c.sel.ds = c.sel.ds := hshed .ds
    have hes' : shed d.tables.gdt (rpl c.sel.cs) c.sel.es = c.sel.es := hshed .es
    have hfs' : shed d.tables.gdt (rpl c.sel.cs) c.sel.fs = c.sel.fs := hshed .fs
    have hgs' : shed d.tables.gdt (rpl c.sel.cs) c.sel.gs = c.sel.gs := hshed .gs
    rw [iretd_outer h houter hcode hstack, hds, hes, hfs, hgs, hds', hes', hfs', hgs']
    change some (Cpu.mk _ _ _ _ _ _ d.tables) = _
    rw [htables]
    rfl

/-- With what it pushed still on the stack a stub puts the program back, with the registers
that are in the place of its own. -/
theorem run_restoreAll {l : Labels} {c d : Cpu} {r : SyscallRegs} (hruns : c.Runs l)
    (htables : d.tables = c.tables)
    (hlevel : d.cpl = 0) (hss : c.cpl = 0 → d.sel.ss = c.sel.ss)
    (h : Stack d.mem d.regs.esp (words r ++ (c.segments ++ c.frame)))
    (hbase : d.regs.esp.toNat + 4 * (12 + c.frame.length) = c.base.toNat) :
    d.run restoreAll = some { c with regs := { r with esp := c.regs.esp }, mem := d.mem, out := d.out } := by
  have hload : ∀ s, d.tables.gdt.loadsData d.cpl (c.sel.get s) = true := by
    intro s
    rw [htables, hlevel]
    exact hruns.tables.loadsData_mono (Nat.zero_le _) (hruns.data s)
  have hsegments : Stack d.mem (off d.regs.esp 32) (c.segments ++ c.frame) := h.drop
  have hend : off (off d.regs.esp 32) 16 = off d.regs.esp 48 := off_off ..
  have hframe : Stack d.mem (off d.regs.esp 48) c.frame := by
    rw [← hend]
    exact hsegments.drop
  let e : Cpu :=
    { d with
      regs := { r with esp := off d.regs.esp 48 }
      sel := { d.sel with ds := c.sel.ds, es := c.sel.es, fs := c.sel.fs, gs := c.sel.gs } }
  have hpops : d.run (.popad :: [Seg.gs, .fs, .es, .ds].map .popSeg) = some e := by
    rw [run_step (popad_eq h)]
    change _ = some { d with regs := { r with esp := off d.regs.esp 48 }, sel := e.sel }
    rw [← hend]
    exact run_popSegs (c := { d with regs := { r with esp := off d.regs.esp 32 } }) (v := c.sel.get)
      hsegments hload
  have htop : c.cpl = 0 → (off d.regs.esp 48).toNat + 12 = c.regs.esp.toNat := by
    intro hl
    rw [frame, if_pos hl, base, if_pos hl] at hbase
    change d.regs.esp.toNat + 60 = c.regs.esp.toNat at hbase
    have hlimit := c.regs.esp.isLt
    rw [off_toNat _ _ (by omega)]
    omega
  have hsplit : restoreAll = (.popad :: [Seg.gs, .fs, .es, .ds].map .popSeg) ++ [.iretd] := rfl
  rw [hsplit, run_then hpops, run_single]
  exact iretd_back (d := e) hruns htables hlevel hss (fun s => by cases s <;> rfl) hframe htop

end Cpu

end FrodOS
