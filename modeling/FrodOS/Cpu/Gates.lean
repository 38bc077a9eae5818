import FrodOS.Cpu.Segments
import FrodOS.Lib.Update

/-!
# Gates and interrupt lines (idt.c)

The interrupt table as `idt_set_gate` packs it and as the processor takes it apart, and the
two interrupt controllers in front of it.
-/

namespace FrodOS
open Lib

structure IdtEntry where
  base_low : BitVec 16
  sel : BitVec 16
  always0 : Byte
  flags : Byte
  base_high : BitVec 16

/-- `num` is an `unsigned char`. -/
abbrev Idt := Byte → IdtEntry

def idtSetGate (idt : Idt) (num : Byte) (base : U32) (sel : BitVec 16) (flags : Byte) : Idt :=
  Function.update idt num
    { base_low := (base &&& 0xFFFF).setWidth 16
      base_high := (base >>> 16 &&& 0xFFFF).setWidth 16
      sel := sel
      always0 := 0
      flags := flags }

/-- The labels of boot.s and user_jump.s. -/
structure Labels where
  (exception13_handler irq0_handler irq1_handler syscall_asm_handler : U32)

/-- The port writes of `idt_install`. -/
def remap : List (Byte × Byte) :=
  [(0x20, 0x11), (0xA0, 0x11), (0x21, 0x20), (0xA1, 0x28), (0x21, 0x04), (0xA1, 0x02), (0x21, 0x01), (0xA1, 0x01),
    (0x21, 0xFC), (0xA1, 0xFF)]

/-- `idt_install`, up to `idt_load`: the table and the port writes. -/
def idtInstall (l : Labels) (idt : Idt) : Idt × List (Byte × Byte) :=
  let idt := Fin.foldl 256 (fun idt i => idtSetGate idt (BitVec.ofNat 8 i) 0 0 0) idt
  let idt := idtSetGate idt 13 l.exception13_handler 0x08 0x8E
  let idt := idtSetGate idt 32 l.irq0_handler 0x08 0x8E
  let idt := idtSetGate idt 33 l.irq1_handler 0x08 0x8E
  let idt := idtSetGate idt 0x80 l.syscall_asm_handler 0x08 0xEE
  (idt, remap)

/-! ### What the processor reads -/

structure Gate where
  offset : U32
  sel : BitVec 16
  /-- The least privileged level that may come through with `int`. -/
  dpl : ℕ

/-- A present gate for interrupts to 32-bit code. -/
def IdtEntry.gate (e : IdtEntry) : Option Gate :=
  if e.flags &&& 0x9F = 0x8E then some ⟨e.base_high ++ e.base_low, e.sel, dpl e.flags⟩ else none

/-! ### The interrupt controllers -/

inductive Icw where
  | vector
  | cascade
  | mode

/-- An 8259: the control words that it waits for, its first vector, the lines that are masked
and those in service, line 0 before all others. -/
structure Pic where
  awaits : List Icw
  base : Byte
  mask : Byte
  serving : Byte

namespace Pic

def command (p : Pic) (v : Byte) : Pic :=
  if v.getLsbD 4 then
    { p with
      awaits := .vector :: (if v.getLsbD 1 then [] else [.cascade]) ++ if v.getLsbD 0 then [.mode] else []
      mask := 0 }
  -- the end of the first interrupt in service
  else if v = 0x20 then { p with serving := p.serving &&& (p.serving - 1) }
  else p

def data (p : Pic) (v : Byte) : Pic :=
  match p.awaits with
  | .vector :: rest => { p with awaits := rest, base := v &&& 0xF8 }
  | _ :: rest => { p with awaits := rest }
  | [] => { p with mask := v }

/-- Whether a line gets through: set up, not masked, and no line before it in service. -/
def passes (p : Pic) (line : ℕ) : Bool :=
  p.awaits.isEmpty && !p.mask.getLsbD line && decide (p.serving.toNat % 2 ^ (line + 1) = 0)

def serve (p : Pic) (line : ℕ) : Pic := { p with serving := p.serving ||| 1 <<< line }

end Pic

structure Pics where
  master : Pic
  slave : Pic

namespace Pics

def out (p : Pics) (w : Byte × Byte) : Pics :=
  match w.1 with
  | 0x20 => { p with master := p.master.command w.2 }
  | 0x21 => { p with master := p.master.data w.2 }
  | 0xA0 => { p with slave := p.slave.command w.2 }
  | 0xA1 => { p with slave := p.slave.data w.2 }
  | _ => p

/-- The vector of an interrupt on one of the sixteen lines, and the controllers after the
processor has taken it. The slave is on line 2 of the master. -/
def raise (p : Pics) (line : ℕ) : Option (Byte × Pics) :=
  if line < 8 then
    if p.master.passes line then
      some (p.master.base + BitVec.ofNat 8 line, { p with master := p.master.serve line })
    else none
  else if line < 16 ∧ p.master.passes 2 ∧ p.slave.passes (line - 8) then
    some (p.slave.base + BitVec.ofNat 8 (line - 8), ⟨p.master.serve 2, p.slave.serve (line - 8)⟩)
  else none

end Pics

/-! ### What was packed -/

theorem idtSetGate_offset (idt : Idt) (num : Byte) (base : U32) (sel : BitVec 16) (flags : Byte) :
    (idtSetGate idt num base sel flags num).base_high ++ (idtSetGate idt num base sel flags num).base_low =
      base := by
  have hhigh : (base >>> 16 &&& 0xFFFF).setWidth 16 = base.extractLsb' 16 16 := masked_field base 16 (by decide)
  have hlow : (base &&& 0xFFFF).setWidth 16 = base.extractLsb' 0 16 := masked_field base 0 (by decide)
  rw [idtSetGate, Function.update_self]
  dsimp only
  rw [hhigh, hlow, BitVec.extractLsb'_append_extractLsb'_eq_extractLsb' (show 16 = 0 + 16 from rfl)]
  exact BitVec.extractLsb'_eq_self

theorem idtSetGate_self (idt : Idt) (num : Byte) (base : U32) (sel : BitVec 16) (flags : Byte) :
    (idtSetGate idt num base sel flags num).gate =
      if flags &&& 0x9F = 0x8E then some ⟨base, sel, dpl flags⟩ else none := by
  have hoffset := idtSetGate_offset idt num base sel flags
  have hsel : (idtSetGate idt num base sel flags num).sel = sel := by rw [idtSetGate, Function.update_self]
  have hflags : (idtSetGate idt num base sel flags num).flags = flags := by
    rw [idtSetGate, Function.update_self]
  rw [IdtEntry.gate, hoffset, hsel, hflags]

theorem idtSetGate_other (idt : Idt) {num v : Byte} (base : U32) (sel : BitVec 16) (flags : Byte)
    (h : v ≠ num) :
    idtSetGate idt num base sel flags v = idt v :=
  Function.update_of_ne h ..

theorem clear_gates (idt : Idt) (v : Byte) :
    (Fin.foldl 256 (fun idt i => idtSetGate idt (BitVec.ofNat 8 i) 0 0 0) idt v).gate = none := by
  have hdone := fin_foldl_invariant (fun m (idt : Idt) => ∀ v : Byte, v.toNat < m → (idt v).gate = none)
    (f := fun idt (i : Fin 256) => idtSetGate idt (BitVec.ofNat 8 i) 0 0 0) (s := idt)
    (fun v hv => absurd hv (Nat.not_lt_zero _)) fun i idt hidt v hv => by
      by_cases he : v = BitVec.ofNat 8 i
      · rw [he, idtSetGate_self]
        rfl
      · have hi : (BitVec.ofNat 8 i.val).toNat = i.val := Nat.mod_eq_of_lt i.isLt
        have hne : v.toNat ≠ i.val := fun hn => he (BitVec.eq_of_toNat_eq (hn.trans hi.symm))
        rw [idtSetGate_other _ _ _ _ he]
        exact hidt v (by omega)
  exact hdone v v.isLt

/-! ### What the kernel set up -/

/-- The gate that a vector should have. -/
def Labels.gate (l : Labels) (v : Byte) : Option Gate :=
  if v = 0x80 then some ⟨l.syscall_asm_handler, 0x08, 3⟩
  else if v = 33 then some ⟨l.irq1_handler, 0x08, 0⟩
  else if v = 32 then some ⟨l.irq0_handler, 0x08, 0⟩
  else if v = 13 then some ⟨l.exception13_handler, 0x08, 0⟩
  else none

theorem idtInstall_gate (l : Labels) (idt : Idt) (v : Byte) : ((idtInstall l idt).1 v).gate = l.gate v := by
  unfold idtInstall Labels.gate
  dsimp only
  split_ifs with h80 h33 h32 h13
  · rw [h80, idtSetGate_self]
    rfl
  · rw [idtSetGate_other _ _ _ _ h80, h33, idtSetGate_self]
    rfl
  · rw [idtSetGate_other _ _ _ _ h80, idtSetGate_other _ _ _ _ h33, h32, idtSetGate_self]
    rfl
  · rw [idtSetGate_other _ _ _ _ h80, idtSetGate_other _ _ _ _ h33, idtSetGate_other _ _ _ _ h32, h13,
      idtSetGate_self]
    rfl
  · rw [idtSetGate_other _ _ _ _ h80, idtSetGate_other _ _ _ _ h33, idtSetGate_other _ _ _ _ h32,
      idtSetGate_other _ _ _ _ h13]
    exact clear_gates idt v

def masterReady (serving : Byte) : Pic := ⟨[], 0x20, 0xFC, serving⟩

theorem remap_master (p : Pics) : (remap.foldl Pics.out p).master = masterReady p.master.serving := rfl

theorem masterReady_passes {line : ℕ} (h : line < 8) : (masterReady 0).passes line = decide (line < 2) := by
  have hmask : ∀ line < 8, (masterReady 0).passes line = decide (line < 2) := by decide
  exact hmask line h

/-- With nothing in service the controllers let lines 0 and 1 through and no other. -/
theorem ready_raise {p : Pics} (h : p.master = masterReady 0) (line : ℕ) :
    p.raise line =
      if line < 2 then some (32 + BitVec.ofNat 8 line, ⟨(masterReady 0).serve line, p.slave⟩) else none := by
  have hbase : (masterReady 0).base = 32 := rfl
  unfold Pics.raise
  rw [h, masterReady_passes (by decide : 2 < 8), hbase]
  rcases Nat.lt_or_ge line 8 with hlt | hge
  · rw [if_pos hlt, masterReady_passes hlt]
    simp only [decide_eq_true_eq]
  · rw [if_neg (by omega), if_neg (fun h => absurd h.2.1 (by decide)), if_neg (by omega)]

theorem serve_end {line : ℕ} (h : line < 2) : ((masterReady 0).serve line).command 0x20 = masterReady 0 := by
  have hend : ∀ line < 2, ((0 : Byte) ||| 1 <<< line) &&& (((0 : Byte) ||| 1 <<< line) - 1) = 0 := by decide
  change Pic.mk [] 0x20 0xFC _ = Pic.mk [] 0x20 0xFC 0
  congr 1
  exact hend line h

theorem ready_end {p : Pics} (h : p.master = masterReady 0) {line : ℕ} (hline : line < 2) :
    Pics.out ⟨(masterReady 0).serve line, p.slave⟩ (0x20, 0x20) = p := by
  change Pics.mk (((masterReady 0).serve line).command 0x20) p.slave = p
  rw [serve_end hline, ← h]

/-- Whatever the table and the controllers held before, the timer and the keyboard come through
the gates of their handlers, and again once the first is acknowledged; no other line does, and
a program can raise nothing but the system call. -/
theorem interrupts_routed (l : Labels) (idt : Idt) (p : Pics) (hidle : p.master.serving = 0) :
    let r := idtInstall l idt
    let p' := r.2.foldl Pics.out p
    (∀ v, (r.1 v).gate = l.gate v) ∧ (∀ v g, (r.1 v).gate = some g → (3 ≤ g.dpl ↔ v = 0x80)) ∧
      (∀ line v q, p'.raise line = some (v, q) → q.out (0x20, 0x20) = p' ∧
        (line = 0 ∧ (r.1 v).gate = some ⟨l.irq0_handler, 0x08, 0⟩ ∨
          line = 1 ∧ (r.1 v).gate = some ⟨l.irq1_handler, 0x08, 0⟩)) ∧
      ∀ line < 2, (p'.raise line).isSome = true := by
  intro r p'
  have hgate : ∀ v, (r.1 v).gate = l.gate v := idtInstall_gate l idt
  have hmaster : p'.master = masterReady 0 := (remap_master p).trans (congrArg masterReady hidle)
  refine ⟨hgate, fun v g hg => ?_, fun line v q hq => ?_, fun line hline => ?_⟩
  · rw [hgate, Labels.gate] at hg
    split_ifs at hg with h80
    · obtain rfl := Option.some.inj hg
      exact iff_of_true (le_refl 3) h80
    all_goals
      obtain rfl := Option.some.inj hg
      exact iff_of_false (Nat.not_succ_le_zero 2) h80
  · rw [ready_raise hmaster] at hq
    split_ifs at hq with hline
    obtain ⟨rfl, rfl⟩ := Prod.mk.inj (Option.some.inj hq)
    refine ⟨ready_end hmaster hline, ?_⟩
    rw [hgate]
    obtain rfl | rfl : line = 0 ∨ line = 1 := by omega
    · exact Or.inl ⟨rfl, rfl⟩
    · exact Or.inr ⟨rfl, rfl⟩
  · rw [ready_raise hmaster, if_pos hline]
    rfl

theorem interrupts_routed_idle :
    let idle : Pic := ⟨[], 8, 0, 0⟩
    ∀ line < 2, ((remap.foldl Pics.out ⟨idle, idle⟩).raise line).isSome = true :=
  (interrupts_routed ⟨0x100100, 0x100200, 0x100300, 0x100400⟩ (fun _ => ⟨0, 0, 0, 0, 0⟩)
    ⟨⟨[], 8, 0, 0⟩, ⟨[], 8, 0, 0⟩⟩ rfl).2.2.2

end FrodOS
