import FrodOS.Cpu.Interrupts

/-!
# A program under interrupts (boot.s, idt.c, gdt.c)

A program runs in user mode while lines of the interrupt controllers fire at any time. The
processor fetches each handler from the gate of its vector. What the C function does is not the
same each time: `keyboard_handler_main` reads port 0x60. So each interrupt brings its code.
-/

namespace FrodOS
open Lib

structure Station where
  cpu : Cpu
  pics : Pics

inductive Happening where
  | run
  | line (n : ℕ) (image : U32 → List Instr)

namespace Station

/-- What went to ports reaches the controllers. -/
def settle (c : Cpu) (p : Pics) : Station := ⟨{ c with out := [] }, c.out.foldl Pics.out p⟩

/-- An interrupt on line `n`, with the code at each address, up to the return to the program. -/
def take (image : U32 → List Instr) (s : Station) (n : ℕ) : Option Station :=
  if s.cpu.eflags &&& flagIf = 0 then none
  else
    match s.pics.raise n with
    | none => none
    | some r =>
      match s.cpu.interrupt r.1 none with
      | none => none
      | some c => (c.run (image c.eip)).map fun c => settle c r.2

/-- A step, and whether it was an interrupt that was served. -/
def step (prog : Cpu → Cpu) (s : Station) : Happening → Station × Bool
  | .run => (settle (prog s.cpu) s.pics, false)
  | .line n image =>
    match s.take image n with
    | some s' => (s', true)
    | none => (s, false)

end Station

def Happening.isRun : Happening → Bool
  | .run => true
  | .line _ _ => false

def Happening.served : Happening → Bool
  | .run => false
  | .line n _ => decide (n < 2)

/-- In user mode with interrupts on, and with no port writes under way. -/
structure Cpu.InUser (l : Labels) (c : Cpu) : Prop where
  runs : c.Runs l
  level : c.cpl = 3
  flags : c.eflags &&& flagIf ≠ 0
  out : c.out = []

/-- The same but for what the kernel owns. -/
structure Alike (own : U32 → Prop) (c c' : Cpu) : Prop where
  rest : c' = { c with mem := c'.mem }
  mem : ∀ a, ¬ own a → c'.mem a = c.mem a

/-- A program stays in user mode, writes no port and does not look at what the kernel owns. -/
structure Program (l : Labels) (own : U32 → Prop) (prog : Cpu → Cpu) : Prop where
  keeps : ∀ c, c.InUser l → (prog c).InUser l
  blind : ∀ c c', c.InUser l → c'.InUser l → Alike own c c' → Alike own (prog c) (prog c')

/-- The stub of a C function that writes no port. -/
def Services (own : U32 → Prop) (low : ℕ) (code : List Instr) : Prop :=
  ∃ ret f, code = irqStub ret f ∧ Cdecl own low kernelTss.esp0.toNat 4 f ∧ ∀ d, (f d).out = d.out

/-- The kernel in memory: the code of both interrupts, and its stack. -/
structure Serviced (l : Labels) (own : U32 → Prop) (low : ℕ) (image : U32 → List Instr) : Prop where
  irq0 : Services own low (image l.irq0_handler)
  irq1 : Services own low (image l.irq1_handler)
  room : low + 72 ≤ kernelTss.esp0.toNat
  stack : ∀ a : U32, low ≤ a.toNat → a.toNat < kernelTss.esp0.toNat → own a

def Happening.Allowed (l : Labels) (own : U32 → Prop) (low : ℕ) : Happening → Prop
  | .run => True
  | .line _ image => Serviced l own low image

namespace Alike

variable {own : U32 → Prop} {c c' c'' : Cpu}

theorem refl (c : Cpu) : Alike own c c := ⟨rfl, fun _ _ => rfl⟩

theorem trans (h : Alike own c c') (h' : Alike own c' c'') : Alike own c c'' where
  rest := by
    rw [h'.rest, h.rest]
  mem a ha := (h'.mem a ha).trans (h.mem a ha)

end Alike

namespace Station

variable {l : Labels} {own : U32 → Prop} {low : ℕ} {image : U32 → List Instr} {prog : Cpu → Cpu} {s : Station}

/-- Where a program and the controllers stand between two steps. -/
structure Stands (l : Labels) (s : Station) : Prop where
  user : s.cpu.InUser l
  pics : s.pics.master = masterReady 0

theorem settle_user {c : Cpu} (h : c.out = []) (p : Pics) : settle c p = ⟨c, p⟩ := by
  rw [settle, h]
  change Station.mk { c with out := [] } p = _
  rw [← h]

theorem Cpu.InUser.base_eq {c : Cpu} (h : c.InUser l) : c.base = kernelTss.esp0 := by
  rw [Cpu.base, if_neg (by rw [h.level]; decide), h.runs.tables.tss]

theorem Serviced.line (h : Serviced l own low image) {n : ℕ} (hn : n < 2) :
    ∃ g, l.gate (32 + BitVec.ofNat 8 n) = some g ∧ g.sel = 0x08 ∧ Services own low (image g.offset) := by
  obtain rfl | rfl : n = 0 ∨ n = 1 := by omega
  · exact ⟨_, rfl, rfl, h.irq0⟩
  · exact ⟨_, rfl, rfl, h.irq1⟩

theorem take_served (himage : Serviced l own low image) (h : s.Stands l) {n : ℕ} (hn : n < 2) :
    ∃ m, s.take image n = some ⟨{ s.cpu with mem := m }, s.pics⟩ ∧ ∀ a, ¬ own a → m a = s.cpu.mem a := by
  obtain ⟨g, hg, hsel, ret, f, hcode, hf, hquiet⟩ := Serviced.line himage hn
  have hbase := Cpu.InUser.base_eq h.user
  obtain ⟨c₁, m, hint, heip, hrun, hmem⟩ := Cpu.irqStub_returns h.user.runs hg hsel himage.stack
    (by rw [hbase]; exact himage.room) (by rw [hbase]) hf hquiet ret
  refine ⟨m, ?_, fun a ha => hmem a (Or.inl ha)⟩
  unfold take
  rw [if_neg h.user.flags, ready_raise h.pics, if_pos hn]
  dsimp only
  rw [hint]
  dsimp only
  rw [heip, hcode, hrun, Option.map_some, settle, h.user.out]
  change some (Station.mk { s.cpu with mem := m, out := [] }
    (Pics.out ⟨(masterReady 0).serve n, s.pics.slave⟩ (0x20, 0x20))) = _
  rw [ready_end h.pics hn, ← h.user.out]

theorem take_masked (h : s.Stands l) {n : ℕ} (hn : ¬ n < 2) : s.take image n = none := by
  unfold take
  rw [if_neg h.user.flags, ready_raise h.pics, if_neg hn]

/-- A step keeps a program in its place, and an interrupt changes the kernel's memory only. -/
theorem step_stands (hprog : Program l own prog) (h : s.Stands l) {e : Happening} (he : e.Allowed l own low) :
    (step prog s e).1.Stands l ∧ (step prog s e).1.pics = s.pics ∧ (step prog s e).2 = e.served ∧
      (e.isRun = false → Alike own s.cpu (step prog s e).1.cpu) := by
  cases e with
  | run =>
    have hkept := hprog.keeps s.cpu h.user
    change (settle (prog s.cpu) s.pics).Stands l ∧ (settle (prog s.cpu) s.pics).pics = s.pics ∧ _
    rw [settle_user hkept.out]
    exact ⟨⟨hkept, h.pics⟩, rfl, rfl, fun hrun => by cases hrun⟩
  | line n image =>
    unfold step Happening.served
    by_cases hn : n < 2
    · obtain ⟨m, htake, hmem⟩ := take_served he h hn
      dsimp only
      rw [htake, decide_eq_true hn]
      have huser : ({ s.cpu with mem := m } : Cpu).InUser l :=
        ⟨⟨h.user.runs.tables, h.user.runs.level, h.user.runs.data, h.user.runs.code, h.user.runs.stack⟩,
          h.user.level, h.user.flags, h.user.out⟩
      exact ⟨⟨huser, h.pics⟩, rfl, rfl, fun _ => ⟨rfl, hmem⟩⟩
    · dsimp only
      rw [take_masked h hn, decide_eq_false hn]
      exact ⟨h, rfl, rfl, fun _ => .refl s.cpu⟩

theorem run_served (hprog : Program l own prog) (h : s.Stands l) {es : List Happening}
    (hes : ∀ e ∈ es, e.Allowed l own low) :
    (trace (step prog) s es).map Prod.snd = es.map Happening.served ∧
      (final (step prog) s es).pics = s.pics := by
  induction es generalizing s with
  | nil => exact ⟨rfl, rfl⟩
  | cons e es ih =>
    obtain ⟨hone, hmore⟩ := List.forall_mem_cons.mp hes
    obtain ⟨hstands, hpics, hserved, -⟩ := step_stands hprog h hone
    obtain ⟨hrest, hend⟩ := ih hstands hmore
    refine ⟨?_, hend.trans hpics⟩
    rw [trace, List.map_cons, List.map_cons, hrest, ← hserved]

/-- Two runs of a program that differ in the kernel's memory only. -/
structure Beside (l : Labels) (own : U32 → Prop) (s t : Station) : Prop where
  left : s.Stands l
  right : t.Stands l
  alike : Alike own t.cpu s.cpu

namespace Beside

variable {t : Station}

theorem skip (hprog : Program l own prog) (h : Beside l own s t) {e : Happening} (he : e.Allowed l own low)
    (hrun : e.isRun = false) : Beside l own (step prog s e).1 t := by
  obtain ⟨hs, -, -, halike⟩ := step_stands hprog h.left he
  exact ⟨hs, h.right, h.alike.trans (halike hrun)⟩

theorem run (hprog : Program l own prog) (h : Beside l own s t) :
    Beside l own (step prog s .run).1 (step prog t .run).1 := by
  have hs := hprog.keeps s.cpu h.left.user
  have ht := hprog.keeps t.cpu h.right.user
  have halike := hprog.blind t.cpu s.cpu h.right.user h.left.user h.alike
  change Beside l own (settle (prog s.cpu) s.pics) (settle (prog t.cpu) t.pics)
  rw [settle_user hs.out, settle_user ht.out]
  exact ⟨⟨hs, h.left.pics⟩, ⟨ht, h.right.pics⟩, halike⟩

end Beside

/-- A program that is interrupted at any points, any number of times, computes what it computes
alone: registers, selectors, flags and all memory but the kernel's own. Every interrupt of the
timer and the keyboard is served, those on other lines are not, and the controllers end ready. -/
theorem interrupts_invisible (hprog : Program l own prog) (h : s.Stands l) {es : List Happening}
    (hes : ∀ e ∈ es, e.Allowed l own low) :
    let s' := final (step prog) s es
    Alike own (final (step prog) s (es.filter Happening.isRun)).cpu s'.cpu ∧ s'.pics = s.pics ∧
      (trace (step prog) s es).map Prod.snd = es.map Happening.served := by
  obtain ⟨hserved, hpics⟩ := run_served hprog h hes
  have hend := final_filter (step prog) (Beside l own) (Happening.Allowed l own low) Happening.isRun
    (fun _ _ _ hst he hrun => hst.skip hprog he hrun)
    (fun _ _ e hst _ hrun => by
      cases e with
      | run => exact hst.run hprog
      | line n image => cases hrun)
    ⟨h, h, .refl s.cpu⟩ hes
  exact ⟨hend.alike, hpics, hserved⟩

/-! ### A program that counts -/

def labelsA : Labels := ⟨0x100100, 0x100200, 0x100300, 0x100400⟩

def tablesA : Tables where
  gdt := gdtInstall 0x100500 fun _ => ⟨0, 0, 0, 0, 0, 0⟩
  tss := kernelTss
  idt := (idtInstall labelsA fun _ => ⟨0, 0, 0, 0, 0⟩).1

def cpuA : Cpu where
  regs := ⟨0, 0, 0, userStack, 0, 0, 0, 0⟩
  sel := ⟨userCodeSel, userDataSel, userDataSel, userDataSel, userDataSel, userDataSel⟩
  eip := userBase
  eflags := flagIf
  mem := fun _ => 0
  out := []
  tables := tablesA

/-- A C function that sets one word of the kernel, and `ret`. -/
def setWord (v : Cpu → U32) (d : Cpu) : Cpu :=
  { d.setEsp (off d.regs.esp 4) with mem := store32 d.mem 0x100600 (v d) }

/-- `system_ticks++` -/
def ticked (d : Cpu) : U32 := load32 d.mem 0x100600 + 1

def progA (c : Cpu) : Cpu := { c with regs := { c.regs with eax := c.regs.eax + 1 } }

def stationA : Station := ⟨cpuA, remap.foldl Pics.out ⟨⟨[], 8, 0, 0⟩, ⟨[], 8, 0, 0⟩⟩⟩

theorem cpuA_user : cpuA.InUser labelsA := by
  obtain ⟨hruns, hlevel⟩ := Cpu.user_runs (l := labelsA) (c := cpuA) ⟨⟨_, _, rfl⟩, rfl, ⟨_, rfl⟩⟩ rfl
    (fun s => by cases s <;> rfl) rfl
  exact ⟨hruns, hlevel, by decide, rfl⟩

theorem setWord_cdecl (v : Cpu → U32) : Cdecl (fun a => a.toNat < 0x200000) 0x80000 0x90000 4 (setWord v) := by
  intro d _ _
  have hword : ∀ a : U32, a.toNat < 0x100600 ∨ 0x100604 ≤ a.toNat → (setWord v d).mem a = d.mem a := by
    intro a ha
    apply store32_outside
    rw [mem_span_iff (by decide)]
    change ¬(0x100600 ≤ a.toNat ∧ a.toNat < 0x100604)
    omega
  exact ⟨rfl, rfl, rfl, fun a ha => hword a (by omega), fun a _ ha => hword a (by omega)⟩

theorem progA_program : Program labelsA (fun a => a.toNat < 0x200000) progA where
  keeps c h := ⟨⟨h.runs.tables, h.runs.level, h.runs.data, h.runs.code, h.runs.stack⟩, h.level, h.flags, h.out⟩
  blind c c' _ _ h := by
    refine ⟨?_, h.mem⟩
    rw [h.rest]
    rfl

/-- The kernel while its C functions set the word to what `v` says. -/
def imageA (v : Cpu → U32) : U32 → List Instr := fun _ => irqStub 0x100700 (setWord v)

theorem imageA_serviced (v : Cpu → U32) : Serviced labelsA (fun a => a.toNat < 0x200000) 0x80000 (imageA v) := by
  have hservice : Services (fun a => a.toNat < 0x200000) 0x80000 (irqStub 0x100700 (setWord v)) :=
    ⟨_, _, rfl, setWord_cdecl v, fun _ => rfl⟩
  exact ⟨hservice, hservice, by decide, fun a _ ha => lt_trans ha (by decide)⟩

/-- A tick, two keys with the codes that port 0x60 gives for them, and a line that is masked. -/
def eventsA : List Happening :=
  [.line 0 (imageA ticked), .run, .line 1 (imageA fun _ => 0x1E), .run,
    .line 7 (imageA fun _ => 0), .line 1 (imageA fun _ => 0x9E)]

theorem interrupts_invisible_once :
    (final (step progA) stationA eventsA).cpu.regs.eax = 2 ∧
      (trace (step progA) stationA eventsA).map Prod.snd = [true, false, true, false, false, true] := by
  have hes : ∀ e ∈ eventsA, e.Allowed labelsA (fun a => a.toNat < 0x200000) 0x80000 := by
    intro e he
    simp only [eventsA, List.mem_cons, List.not_mem_nil, or_false] at he
    obtain rfl | rfl | rfl | rfl | rfl | rfl := he
    all_goals first | exact trivial | exact imageA_serviced _
  obtain ⟨halike, -, hserved⟩ := interrupts_invisible progA_program (s := stationA) ⟨cpuA_user, rfl⟩ hes
  refine ⟨?_, hserved⟩
  rw [halike.rest]
  rfl

end Station

end FrodOS
