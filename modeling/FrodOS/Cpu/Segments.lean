import FrodOS.Kernel.State
import FrodOS.Lib.Bits
import Mathlib.Data.List.GetD
import Mathlib.Tactic.FinCases

/-!
# Segments and the task state (gdt.c)

The descriptors as `gdt_set_gate` packs them and as the processor takes them apart, what a
selector may be loaded for, and the ports that the task state opens to programs.
-/

namespace FrodOS
open Lib

structure GdtEntry where
  limit_low : BitVec 16
  base_low : BitVec 16
  base_middle : Byte
  access : Byte
  granularity : Byte
  base_high : Byte

abbrev Gdt := Fin 6 → GdtEntry

def gdtSetGate (gdt : Gdt) (num : Fin 6) (base limit : U32) (access gran : Byte) : Gdt :=
  Function.update gdt num
    { base_low := (base &&& 0xFFFF).setWidth 16
      base_middle := (base >>> 16 &&& 0xFF).setWidth 8
      base_high := (base >>> 24 &&& 0xFF).setWidth 8
      limit_low := (limit &&& 0xFFFF).setWidth 16
      granularity := (limit >>> 16 &&& 0x0F).setWidth 8 ||| gran &&& 0xF0
      access := access }

structure TssEntry where
  (prev_tss esp0 ss0 esp1 ss1 esp2 ss2 cr3 eip eflags eax ecx edx ebx esp ebp esi edi : U32)
  (es cs ss ds fs gs ldt : U32)
  (trap iomap_base : BitVec 16)

def le16 (v : BitVec 16) : List Byte := [v.setWidth 8, (v >>> 8).setWidth 8]

namespace TssEntry

def bytes (t : TssEntry) : List Byte :=
  ([t.prev_tss, t.esp0, t.ss0, t.esp1, t.ss1, t.esp2, t.ss2, t.cr3, t.eip, t.eflags, t.eax, t.ecx, t.edx, t.ebx,
    t.esp, t.ebp, t.esi, t.edi, t.es, t.cs, t.ss, t.ds, t.fs, t.gs, t.ldt].flatMap le32) ++
    le16 t.trap ++ le16 t.iomap_base

/-- After `gdt_memset`. -/
def zero : TssEntry :=
  ⟨0, 0, 0, 0, 0, 0, 0, 0, 0, 0, 0, 0, 0, 0, 0, 0, 0, 0, 0, 0, 0, 0, 0, 0, 0, 0, 0⟩

end TssEntry

def kernelTss : TssEntry := { TssEntry.zero with ss0 := 0x10, esp0 := 0x90000 }

/-- `gdt_install`, up to `gdt_flush`, with the address of `tss`. -/
def gdtInstall (tss : U32) (gdt : Gdt) : Gdt :=
  let gdt := gdtSetGate gdt 0 0 0 0 0
  let gdt := gdtSetGate gdt 1 0 0xFFFFFFFF 0x9A 0xCF
  let gdt := gdtSetGate gdt 2 0 0xFFFFFFFF 0x92 0xCF
  let gdt := gdtSetGate gdt 3 0 0xFFFFFFFF 0xFA 0xCF
  let gdt := gdtSetGate gdt 4 0 0xFFFFFFFF 0xF2 0xCF
  gdtSetGate gdt 5 tss (104 - 1) 0x89 0x00

/-! ### What the processor reads -/

namespace GdtEntry

def base (e : GdtEntry) : U32 := e.base_high ++ e.base_middle ++ e.base_low

def limit (e : GdtEntry) : BitVec 20 := e.granularity.setWidth 4 ++ e.limit_low

def last (e : GdtEntry) : U32 :=
  if e.granularity.getLsbD 7 then e.limit ++ (0xFFF : BitVec 12) else e.limit.setWidth 32

def linear (e : GdtEntry) (a : U32) : Option U32 := if a ≤ e.last then some (e.base + a) else none

end GdtEntry

/-! The access byte -/

def present (access : Byte) : Bool := access.getLsbD 7
def dpl (access : Byte) : ℕ := access.toNat / 32 % 4
/-- Code or data, not a system descriptor. -/
def ordinary (access : Byte) : Bool := access.getLsbD 4
def executable (access : Byte) : Bool := access.getLsbD 3
def conforming (access : Byte) : Bool := access.getLsbD 3 && access.getLsbD 2
/-- Data may be written, code read. -/
def accessible (access : Byte) : Bool := access.getLsbD 1

def rpl (sel : BitVec 16) : ℕ := sel.toNat % 4

/-- Whether a program at level `cpl` gets a segment with this access byte into `ds`, `es`, `fs` or `gs`. -/
def mayRead (cpl rpl : ℕ) (access : Byte) : Bool :=
  present access && ordinary access && (!executable access || accessible access) &&
    (conforming access || decide (max cpl rpl ≤ dpl access))

def mayStack (cpl rpl : ℕ) (access : Byte) : Bool :=
  present access && ordinary access && !executable access && accessible access &&
    decide (rpl = cpl ∧ dpl access = cpl)

/-- For a jump or a call that stays at its level. -/
def mayRun (cpl rpl : ℕ) (access : Byte) : Bool :=
  present access && ordinary access && executable access &&
    if conforming access then decide (dpl access ≤ cpl) else decide (rpl ≤ cpl ∧ dpl access = cpl)

namespace Gdt

/-- The descriptor that a selector names; there is no local table. -/
def entry (g : Gdt) (sel : BitVec 16) : Option GdtEntry :=
  if h : sel.toNat / 8 < 6 then if sel.toNat / 4 % 2 = 0 then some (g ⟨sel.toNat / 8, h⟩) else none else none

def admits (g : Gdt) (check : ℕ → Byte → Bool) (sel : BitVec 16) : Bool :=
  match g.entry sel with
  | some e => check (rpl sel) e.access
  | none => false

/-- The data selectors also take the null selector. -/
def loadsData (g : Gdt) (cpl : ℕ) (sel : BitVec 16) : Bool := sel.toNat < 4 || g.admits (mayRead cpl) sel

def loadsStack (g : Gdt) (cpl : ℕ) (sel : BitVec 16) : Bool := g.admits (mayStack cpl) sel

def loadsCode (g : Gdt) (cpl : ℕ) (sel : BitVec 16) : Bool := g.admits (mayRun cpl) sel

end Gdt

/-- Whether the task state opens a port to a program that the flags do not privilege: its bit
in the map is clear, and both bytes that the processor reads of the map are in the segment. -/
def TssEntry.opens (t : TssEntry) (limit : ℕ) (port : BitVec 16) : Bool :=
  let byte := t.iomap_base.toNat + port.toNat / 8
  decide (byte + 1 ≤ limit) && !(t.bytes.getD byte 0xFF).getLsbD (port.toNat % 8)

/-! ### What was packed -/

theorem gdtSetGate_base (gdt : Gdt) (num : Fin 6) (base limit : U32) (access gran : Byte) :
    (gdtSetGate gdt num base limit access gran num).base = base := by
  have hhigh : (base >>> 24 &&& 0xFF).setWidth 8 = base.extractLsb' 24 8 := masked_field base 24 (by decide)
  have hmiddle : (base >>> 16 &&& 0xFF).setWidth 8 = base.extractLsb' 16 8 := masked_field base 16 (by decide)
  have hlow : (base &&& 0xFFFF).setWidth 16 = base.extractLsb' 0 16 := masked_field base 0 (by decide)
  rw [gdtSetGate, Function.update_self, GdtEntry.base, hhigh, hmiddle, hlow,
    BitVec.extractLsb'_append_extractLsb'_eq_extractLsb' (show 24 = 16 + 8 from rfl),
    BitVec.extractLsb'_append_extractLsb'_eq_extractLsb' (show 16 = 0 + 16 from rfl)]
  exact BitVec.extractLsb'_eq_self

theorem gdtSetGate_limit (gdt : Gdt) (num : Fin 6) (base limit : U32) (access gran : Byte) :
    (gdtSetGate gdt num base limit access gran num).limit = limit.setWidth 20 := by
  have hlow : (limit &&& 0xFFFF).setWidth 16 = limit.extractLsb' 0 16 := masked_field limit 0 (by decide)
  have hhigh : (limit >>> 16 &&& 0x0F).setWidth 4 = limit.extractLsb' 16 4 := masked_field limit 16 (by decide)
  have hgran : ∀ v : Byte, (v &&& 0xF0).setWidth 4 = 0#4 := by decide
  rw [gdtSetGate, Function.update_self, GdtEntry.limit, BitVec.setWidth_or,
    BitVec.setWidth_setWidth_of_le _ (by decide), hgran, hhigh, hlow, BitVec.or_zero,
    BitVec.extractLsb'_append_extractLsb'_eq_extractLsb' (show 16 = 0 + 16 from rfl)]
  exact (BitVec.setWidth_eq_extractLsb' (by decide)).symm

theorem gdtSetGate_scaled (gdt : Gdt) (num : Fin 6) (base limit : U32) (access gran : Byte) :
    (gdtSetGate gdt num base limit access gran num).granularity.getLsbD 7 = gran.getLsbD 7 := by
  have hnibble : ∀ v : Byte, (v &&& 0xF0).getLsbD 7 = v.getLsbD 7 := by decide
  have hlimit : ((limit >>> 16 &&& 0x0F).setWidth 8 : Byte).getLsbD 7 = false := by
    have hmask : (0x0F : U32).getLsbD 7 = false := rfl
    rw [BitVec.getLsbD_setWidth, BitVec.getLsbD_and, hmask, Bool.and_false, Bool.and_false]
  rw [gdtSetGate, Function.update_self, BitVec.getLsbD_or, hnibble, hlimit, Bool.false_or]

/-! ### What the kernel set up -/

def kernelAccess : List Byte := [0, 0x9A, 0x92, 0xFA, 0xF2, 0x89]

variable (tss : U32) (gdt : Gdt)

theorem gdtInstall_access (i : Fin 6) : (gdtInstall tss gdt i).access = kernelAccess.getD i 0 := by
  fin_cases i <;> rfl

/-- A descriptor that is not one of these is taken for absent. -/
def admitted (check : ℕ → Byte → Bool) (n : ℕ) : Bool :=
  decide (n / 4 % 2 = 0) && check (n % 4) (kernelAccess.getD (n / 8) 0)

theorem gdtInstall_admits {check : ℕ → Byte → Bool} (habsent : ∀ r, check r 0 = false) (sel : BitVec 16) :
    (gdtInstall tss gdt).admits check sel = admitted check sel.toNat := by
  unfold Gdt.admits Gdt.entry admitted
  by_cases hindex : sel.toNat / 8 < 6
  · rw [dif_pos hindex]
    by_cases hlocal : sel.toNat / 4 % 2 = 0
    · rw [if_pos hlocal, decide_eq_true hlocal, Bool.true_and]
      dsimp only
      rw [gdtInstall_access]
      rfl
    · rw [if_neg hlocal, decide_eq_false hlocal, Bool.false_and]
  · have hnone : kernelAccess.getD (sel.toNat / 8) 0 = 0 :=
      List.getD_eq_default _ _ (Nat.le_of_not_lt hindex)
    rw [dif_neg hindex, hnone, habsent, Bool.and_false]

theorem admitted_far {check : ℕ → Byte → Bool} (habsent : ∀ r, check r 0 = false) {n : ℕ} (h : 48 ≤ n) :
    admitted check n = false := by
  have hnone : kernelAccess.getD (n / 8) 0 = 0 := List.getD_eq_default _ _ (by change 6 ≤ n / 8; omega)
  rw [admitted, hnone, habsent, Bool.and_false]

theorem mayRead_absent (cpl r : ℕ) : mayRead cpl r 0 = false := rfl

theorem mayStack_absent (cpl r : ℕ) : mayStack cpl r 0 = false := rfl

theorem mayRun_absent (cpl r : ℕ) : mayRun cpl r 0 = false := rfl

theorem admits_iff {check : ℕ → Byte → Bool} (habsent : ∀ r, check r 0 = false) {P : ℕ → Prop}
    (hnear : ∀ n < 48, admitted check n = true ↔ P n) (hfar : ∀ n, 48 ≤ n → ¬ P n) (sel : BitVec 16) :
    (gdtInstall tss gdt).admits check sel = true ↔ P sel.toNat := by
  rw [gdtInstall_admits tss gdt habsent]
  rcases Nat.lt_or_ge sel.toNat 48 with hlt | hge
  · exact hnear _ hlt
  · rw [admitted_far habsent hge]
    exact iff_of_false Bool.false_ne_true (hfar _ hge)

theorem gdtSetGate_flat (num : Fin 6) (access gran : Byte) (hgran : gran.getLsbD 7 = true) (a : U32) :
    (gdtSetGate gdt num 0 0xFFFFFFFF access gran num).linear a = some a := by
  have hlast : (gdtSetGate gdt num 0 0xFFFFFFFF access gran num).last = 0xFFFFFFFF := by
    rw [GdtEntry.last, gdtSetGate_scaled, if_pos hgran, gdtSetGate_limit]
    rfl
  have hle : a ≤ 0xFFFFFFFF := by
    change a.toNat ≤ 0xFFFFFFFF
    have := a.isLt
    omega
  rw [GdtEntry.linear, hlast, if_pos hle, gdtSetGate_base]
  exact congrArg some (BitVec.zero_add a)

theorem gdtInstall_flat {i : Fin 6} (h : ordinary (gdtInstall tss gdt i).access = true) (a : U32) :
    (gdtInstall tss gdt i).linear a = some a := by
  rw [gdtInstall_access] at h
  fin_cases i
  · cases h
  · exact gdtSetGate_flat gdt 1 0x9A 0xCF rfl a
  · exact gdtSetGate_flat gdt 2 0x92 0xCF rfl a
  · exact gdtSetGate_flat gdt 3 0xFA 0xCF rfl a
  · exact gdtSetGate_flat gdt 4 0xF2 0xCF rfl a
  · cases h

theorem gdtInstall_tss : (gdtInstall tss gdt 5).base = tss ∧ (gdtInstall tss gdt 5).last.toNat = 103 := by
  refine ⟨gdtSetGate_base gdt 5 tss 103 0x89 0, ?_⟩
  have hscaled : (gdtInstall tss gdt 5).granularity.getLsbD 7 = false := gdtSetGate_scaled gdt 5 tss 103 0x89 0
  have hlimit : (gdtInstall tss gdt 5).limit = (103 : U32).setWidth 20 := gdtSetGate_limit gdt 5 tss 103 0x89 0
  rw [GdtEntry.last, hscaled, if_neg Bool.false_ne_true, hlimit]
  rfl

/-- The map of ports lies over the task state itself: of its bytes only the two stack fields are not zero. -/
theorem kernelTss_bits : ∀ byte < 103, ∀ bit < 8,
    (kernelTss.bytes.getD byte 0xFF).getLsbD bit =
      decide (8 * byte + bit = 48 ∨ 8 * byte + bit = 51 ∨ 8 * byte + bit = 68) := by
  decide +kernel

theorem kernelTss_opens (port : BitVec 16) :
    kernelTss.opens 103 port = true ↔ port.toNat < 824 ∧ port.toNat ∉ [48, 51, 68] := by
  have hmap : kernelTss.iomap_base.toNat = 0 := rfl
  have hsplit := Nat.div_add_mod port.toNat 8
  have hbit : port.toNat % 8 < 8 := Nat.mod_lt _ (by decide)
  unfold TssEntry.opens
  dsimp only
  rw [hmap, Nat.zero_add]
  rcases Nat.lt_or_ge (port.toNat / 8) 103 with hlt | hge
  · rw [decide_eq_true (show port.toNat / 8 + 1 ≤ 103 from hlt), Bool.true_and,
      kernelTss_bits _ hlt _ hbit, hsplit]
    simp only [Bool.not_eq_true', decide_eq_false_iff_not, List.mem_cons, List.not_mem_nil, or_false]
    omega
  · rw [decide_eq_false (by omega), Bool.false_and]
    exact iff_of_false Bool.false_ne_true (by omega)

/-- Whatever the tables held before. A program loads its own two segments, or none, and both are
all of memory; every port below 824 is open to it but for three. -/
theorem user_mode_rights (tss : U32) (gdt : Gdt) (sel port : BitVec 16) :
    let g := gdtInstall tss gdt
    (g.loadsData 3 sel = true ↔
      sel.toNat < 4 ∨ (24 ≤ sel.toNat ∧ sel.toNat < 28) ∨ (32 ≤ sel.toNat ∧ sel.toNat < 36)) ∧
      (g.loadsCode 3 sel = true ↔ 24 ≤ sel.toNat ∧ sel.toNat < 28) ∧ (g.loadsStack 3 sel = true ↔ sel.toNat = 35) ∧
      (∀ e, g.entry sel = some e → ordinary e.access = true → ∀ a, e.linear a = some a) ∧ (g 5).base = tss ∧
      (kernelTss.opens (g 5).last.toNat port = true ↔ port.toNat < 824 ∧ port.toNat ∉ [48, 51, 68]) := by
  intro g
  have hdata := admits_iff tss gdt (mayRead_absent 3)
    (P := fun n => (24 ≤ n ∧ n < 28) ∨ (32 ≤ n ∧ n < 36)) (by decide) (by omega) sel
  have hcode := admits_iff tss gdt (mayRun_absent 3) (P := fun n => 24 ≤ n ∧ n < 28) (by decide) (by omega) sel
  have hstack := admits_iff tss gdt (mayStack_absent 3) (P := fun n => n = 35) (by decide) (by omega) sel
  refine ⟨?_, hcode, hstack, fun e he hkind a => ?_, (gdtInstall_tss tss gdt).1, ?_⟩
  · rw [Gdt.loadsData, Bool.or_eq_true, decide_eq_true_iff]
    exact or_congr Iff.rfl hdata
  · unfold Gdt.entry at he
    split_ifs at he
    obtain rfl := Option.some.inj he
    exact gdtInstall_flat tss gdt hkind a
  · rw [(gdtInstall_tss tss gdt).2]
    exact kernelTss_opens port

end FrodOS
