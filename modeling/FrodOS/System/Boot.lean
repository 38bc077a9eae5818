import FrodOS.Drivers.Numbers
import FrodOS.Kernel.Import
import FrodOS.Kernel.Loading
import FrodOS.Kernel.LookupWalk
import FrodOS.Pmm.Termination
import FrodOS.System.Devices
import FrodOS.System.Files
import FrodOS.System.Frames

/-!
# Boot (kernel_main)

From what the bootloader left in memory to the shell in user mode. The tables that
`gdt_install`, `idt_install` and `keyboard_init` set up are not part of the machine.
Interrupts are taken from just before `launch_userland` on, which shares nothing with their
handlers, so here they come after it.
-/

namespace FrodOS
open Lib

/-- The fields of `struct multiboot_info` that are read. -/
structure MultibootInfo where
  (flags mem_lower mem_upper mods_count mods_addr mmap_length mmap_addr : U32)

def multibootInfo (m : Ram) (mbi : U32) : MultibootInfo where
  flags := load32 m mbi
  mem_lower := load32 m (off mbi 4)
  mem_upper := load32 m (off mbi 8)
  mods_count := load32 m (off mbi 20)
  mods_addr := load32 m (off mbi 24)
  mmap_length := load32 m (off mbi 44)
  mmap_addr := load32 m (off mbi 48)

def multibootMagic : U32 := 0x2BADB002
def mbFlagMem : U32 := 0x1
def mbFlagMods : U32 := 0x8
def mbFlagMmap : U32 := 0x40

/-- The size that `pmm_init` gets. -/
def MultibootInfo.memSize (mbi : MultibootInfo) : U32 :=
  if mbi.flags &&& mbFlagMem ≠ 0 then mbi.mem_upper * 1024 else 8 * 1024 * 1024

/-- What the import prints about an entry that it mounts. -/
def mountReport (m : Ram) (ramfs_end header : U32) (c : Console) : Console :=
  match realFilename (view m header) with
  | some p =>
    let real_filename := off header p
    let file_size := fileSize m header
    if (ramfsStrcmp (view m real_filename) shellBin ≠ 0 ∧ m real_filename ≠ 0 ∧ file_size > 0) ∧
        header + 512 + file_size ≤ ramfs_end then
      ((c.kprint (ascii "  -> Mounted program node: ")).kprint (shortName (view m real_filename) 31 0)).kprint [10]
    else c
  | none => c

/-- A pass of the import loop with its output. -/
def mountPass (m : Ram) (ramfs_end : U32) (s : (U32 × Storage) × Console) :
    Option (Ctl ((U32 × Storage) × Console) (Storage × Console)) :=
  match importPass m ramfs_end s.1 with
  | some (.next s') => some (.next (s', mountReport m ramfs_end s.1.1 s.2))
  | some (.done storage) => some (.done (storage, s.2))
  | none => none

namespace Machine

def print (m : Machine) (text : String) : Machine := { m with screen := m.screen.kprint (ascii text) }

/-- `panic` -/
def stop (m : Machine) (msg : String) : Machine × Response :=
  let m := ((m.print "Kernel Panic: ").print msg).print "\n"
  ({ m with mode := .halted }, ⟨some (.panic msg), none, []⟩)

def findRamfs (m : Machine) (mbi : MultibootInfo) : Machine :=
  let mod_start := load32 m.kernel.mem mbi.mods_addr
  let mod_end := load32 m.kernel.mem (off mbi.mods_addr 4)
  if mbi.flags &&& mbFlagMods ≠ 0 ∧ mbi.mods_count > 0 ∧ mod_end > mod_start then
    let k := { m.kernel with ramfs_start := mod_start, ramfs_end := mod_end }
    { m with kernel := k }.print "RAMFS module found.\n"
  else m.print "Warning: no RAMFS/initrd module loaded by bootloader.\n"

/-- `reserved_end` of `init_memory` -/
def reservedEnd (m : Machine) (kernel_end : U32) : U32 :=
  if m.kernel.ramfs_end > kernel_end then m.kernel.ramfs_end else kernel_end

def setBitmap (m : Machine) (b : Bitmap) : Machine := { m with kernel := { m.kernel with bitmap := b } }

/-- The report of the memory size, with what the stack holds below `kprint_int`, and the beep. -/
def reportMemory (m : Machine) (stack : ℤ → Byte) (mbi : MultibootInfo) : Machine :=
  let total_kb := mbi.mem_lower + mbi.mem_upper
  let m := m.print "PMM initialized. RAM: "
  let m := { m with screen := m.screen.kprintInt stack (total_kb / 1024) }
  let m := m.print " MB tracked.\n"
  { m with ports := m.ports.beep }

/-- `init_memory`; no result if one of its loops does not end. -/
def initMemory (fuel : ℕ) (kernel_end : U32) (stack : ℤ → Byte) (mbi : MultibootInfo) (m : Machine) :
    Option Machine :=
  match pmmInit fuel mbi.memSize (m.reservedEnd kernel_end) with
  | none => none
  | some b =>
    let m :=
      if mbi.flags &&& mbFlagMem ≠ 0 then (m.setBitmap b).reportMemory stack mbi
      else (m.print "Warning: no RAM size from bootloader. Falling back to 8MB.\n").setBitmap b
    if mbi.flags &&& mbFlagMmap ≠ 0 then
      let m := m.print "Locking hardware-reserved memory regions...\n"
      (pmmParseMmap fuel m.kernel.mem mbi.mmap_addr mbi.mmap_length m.kernel.bitmap).map m.setBitmap
    else some (m.print "Warning: no multiboot memory map. Using basic map.\n")

def announceImport (m : Machine) : Machine :=
  (m.print "Initializing FrodFS scratch memory storage table...\n").print
    "FrodFS Bootstrap: Dynamically importing all files from boot archive...\n"

def endImport (m : Machine) (r : Storage × Console) : Machine :=
  { m with kernel := { m.kernel with storage := r.1 }, screen := r.2 }.print
    "FrodFS Bootstrap complete. Core disk storage populated!\n"

/-- `frodfs_init` and the import loop. -/
def importFiles (fuel : ℕ) (m : Machine) : Option Machine :=
  let m := m.announceImport
  let k := m.kernel
  (loop (mountPass k.mem k.ramfs_end) fuel ((k.ramfs_start, frodfsInit k.storage), m.screen)).map m.endImport

/-- The announcement of the timer, and `timer_init`. -/
def startTimer (m : Machine) : Machine :=
  let m := m.print "Initializing system timer (100Hz)...\n"
  { m with ports := m.ports.timerInit }

def announceShell (m : Machine) : Machine :=
  (m.print "Initializing keyboard controller...\n").print "Enabling CPU interrupts...\n"

/-- The last steps, with interrupts on. -/
def enterShell (fuel : ℕ) (m : Machine) : Machine × Response :=
  let m := m.announceShell
  match launchUserland fuel m.kernel with
  | some o => { m with mode := .user }.settle o
  | none => ({ m with mode := .looping }, .quiet)

def announceBoot (m : Machine) : Machine := m.print "--- Booting Custom Kernel ---\n"

/-- `kernel_main`, with the passes that each of its loops may make. The kernel's own objects, its
stack and the screen are no part of `mem`, so of memory only what lies behind the kernel, which
ends below `USER_BASE`, comes out as it really does. -/
def kernelMain (fuel : ℕ) (kernel_end : U32) (stack : ℤ → Byte) (mboot_ptr magic : U32) (m : Machine) :
    Machine × Response :=
  if magic ≠ multibootMagic then m.announceBoot.stop "Bootloader is not Multiboot compliant!"
  else if mboot_ptr = 0 then m.announceBoot.stop "Multiboot info pointer is null!"
  else
    let mbi := multibootInfo m.kernel.mem mboot_ptr
    match (m.announceBoot.findRamfs mbi).initMemory fuel kernel_end stack mbi with
    | none => ({ m.announceBoot with mode := .looping }, .quiet)
    | some m =>
      match m.startTimer.importFiles fuel with
      | none => ({ m with mode := .looping }, .quiet)
      | some m => m.enterShell fuel

end Machine

/-! ### The files that the import leaves -/

theorem importFile_mirrors (m : Ram) {storage : Storage} {d : Disk} (h : Mirrors storage d) (p data size : U32) :
    ∃ d', Mirrors (importFile m storage p data size) d' := by
  have hcreated := (h.create (cstr (shortName (view m p) 31 0))).2
  unfold importFile
  dsimp only
  unfold ptr
  split_ifs
  · exact ⟨_, hcreated⟩
  · exact ⟨_, (hcreated.write (cstr (shortName (view m p) 31 0)) (view m data) size).2⟩

theorem importPass_mirrors {m : Ram} {ramfs_end : U32} {s s' : U32 × Storage} (h : ∃ d, Mirrors s.2 d)
    (hp : importPass m ramfs_end s = some (.next s')) : ∃ d, Mirrors s'.2 d := by
  obtain ⟨d, hd⟩ := h
  unfold importPass at hp
  dsimp only at hp
  split_ifs at hp
  · cases hp
  · split at hp
    · obtain rfl := Ctl.next.inj (Option.some.inj hp)
      dsimp only
      unfold importEntry
      dsimp only
      split_ifs
      · exact importFile_mirrors m hd _ _ _
      · exact ⟨d, hd⟩
      · exact ⟨d, hd⟩
    · cases hp
  · cases hp

theorem importPass_done {m : Ram} {ramfs_end : U32} {s : U32 × Storage} {storage : Storage}
    (hp : importPass m ramfs_end s = some (.done storage)) : storage = s.2 := by
  unfold importPass at hp
  dsimp only at hp
  split_ifs at hp
  · exact (Ctl.done.inj (Option.some.inj hp)).symm
  · split at hp
    · cases hp
    · cases hp
  · exact (Ctl.done.inj (Option.some.inj hp)).symm

namespace Console

theorem OnScreen.kprint {c : Console} (h : c.OnScreen) (str : List Byte) : (c.kprint str).OnScreen :=
  (kprint_invariant (fun _ b hc => hc.putChar b) h str).1

end Console

theorem mountReport_onScreen (m : Ram) (ramfs_end header : U32) {c : Console} (h : c.OnScreen) :
    (mountReport m ramfs_end header c).OnScreen := by
  unfold mountReport
  split
  · dsimp only
    split_ifs
    · exact ((h.kprint _).kprint _).kprint _
    · exact h
  · exact h

theorem mountPass_next {m : Ram} {ramfs_end : U32} {s s' : (U32 × Storage) × Console}
    (h : mountPass m ramfs_end s = some (.next s')) :
    importPass m ramfs_end s.1 = some (.next s'.1) ∧ s'.2 = mountReport m ramfs_end s.1.1 s.2 := by
  unfold mountPass at h
  split at h
  · rename_i t ht
    obtain rfl := Ctl.next.inj (Option.some.inj h)
    exact ⟨ht, rfl⟩
  · cases h
  · cases h

theorem mountPass_done {m : Ram} {ramfs_end : U32} {s : (U32 × Storage) × Console} {r : Storage × Console}
    (h : mountPass m ramfs_end s = some (.done r)) : r = (s.1.2, s.2) := by
  unfold mountPass at h
  split at h
  · cases h
  · rename_i storage ht
    obtain rfl := Ctl.done.inj (Option.some.inj h)
    rw [importPass_done ht]
  · cases h

/-- However the archive looks, the import leaves a list of files. -/
theorem mount_listed {m : Ram} {ramfs_end : U32} {s : (U32 × Storage) × Console} {r : Storage × Console}
    {fuel : ℕ} (h : loop (mountPass m ramfs_end) fuel s = some r) (hs : ∃ d, Mirrors s.1.2 d) :
    (∃ d, Mirrors r.1 d) ∧ (s.2.OnScreen → r.2.OnScreen) := by
  have hret : Returns (mountPass m ramfs_end) s r := ⟨fuel, h⟩
  refine hret.invariant (fun t => (∃ d, Mirrors t.1.2 d) ∧ (s.2.OnScreen → t.2.OnScreen))
    (fun r => (∃ d, Mirrors r.1 d) ∧ (s.2.OnScreen → r.2.OnScreen)) ⟨hs, id⟩ ?_ ?_
  · intro t t' ht hp
    obtain ⟨hstore, hreport⟩ := mountPass_next hp
    refine ⟨importPass_mirrors ht.1 hstore, fun h => ?_⟩
    rw [hreport]
    exact mountReport_onScreen m ramfs_end _ (ht.2 h)
  · intro t ht hd
    rw [mountPass_done hd]
    exact ht

/-! ### The stages -/

/-- A stage of boot leaves memory, the keyboard and the ticks alone and stays on the screen. -/
structure BootStage (m m' : Machine) : Prop where
  mem : m'.kernel.mem = m.kernel.mem
  keyboard : m'.keyboard = m.keyboard
  system_ticks : m'.system_ticks = m.system_ticks
  screen : m.screen.OnScreen → m'.screen.OnScreen

theorem BootStage.trans {m m' m'' : Machine} (h : BootStage m m') (h' : BootStage m' m'') : BootStage m m'' :=
  ⟨h'.mem.trans h.mem, h'.keyboard.trans h.keyboard, h'.system_ticks.trans h.system_ticks,
    fun hs => h'.screen (h.screen hs)⟩

namespace Machine

theorem stage_print (m : Machine) (text : String) : BootStage m (m.print text) :=
  ⟨rfl, rfl, rfl, fun h => h.kprint _⟩

theorem print_kernel (m : Machine) (text : String) : (m.print text).kernel = m.kernel := rfl

theorem print_ports (m : Machine) (text : String) : (m.print text).ports = m.ports := rfl

theorem stage_setBitmap (m : Machine) (b : Bitmap) : BootStage m (m.setBitmap b) := ⟨rfl, rfl, rfl, id⟩

theorem stage_findRamfs (m : Machine) (mbi : MultibootInfo) : BootStage m (m.findRamfs mbi) := by
  unfold findRamfs
  dsimp only
  split_ifs
  · exact ⟨rfl, rfl, rfl, fun h => h.kprint _⟩
  · exact m.stage_print _

theorem stage_reportMemory (m : Machine) (stack : ℤ → Byte) (mbi : MultibootInfo) :
    BootStage m (m.reportMemory stack mbi) := by
  refine ⟨rfl, rfl, rfl, fun h => ?_⟩
  change (Console.kprint (Console.kprintInt (Console.kprint m.screen _) stack _) _).OnScreen
  rw [(Console.kprintInt_eq _ _ _).1]
  exact ((h.kprint _).kprint _).kprint _

/-- The pages that the loop over the memory map locks. -/
def mapLocked (fuel : ℕ) (m : Ram) (mbi : MultibootInfo) (b : Bitmap) : Set ℕ :=
  if mbi.flags &&& mbFlagMmap ≠ 0 then {q | MapLocks m fuel mbi.mmap_addr mbi.mmap_length b q} else ∅

theorem stage_initMemory {fuel : ℕ} {kernel_end : U32} {stack : ℤ → Byte} {mbi : MultibootInfo} {m m' : Machine}
    (h : m.initMemory fuel kernel_end stack mbi = some m') :
    BootStage m m' ∧ m'.kernel = { m.kernel with bitmap := m'.kernel.bitmap } ∧
      ∃ b, pmmInit fuel mbi.memSize (m.reservedEnd kernel_end) = some b ∧
        Initialised mbi.memSize (m.reservedEnd kernel_end) (mapLocked fuel m.kernel.mem mbi b) m'.kernel.bitmap := by
  unfold initMemory at h
  dsimp only at h
  split at h
  · cases h
  · rename_i b hb
    -- the report differs with the flag, the bitmap does not
    obtain ⟨m₁, hm₁, hstage, hkernel⟩ : ∃ m₁,
        (if mbi.flags &&& mbFlagMem ≠ 0 then (m.setBitmap b).reportMemory stack mbi
          else (m.print "Warning: no RAM size from bootloader. Falling back to 8MB.\n").setBitmap b) = m₁ ∧
        BootStage m m₁ ∧ m₁.kernel = { m.kernel with bitmap := b } := by
      refine ⟨_, rfl, ?_, ?_⟩
      · split_ifs
        · exact (m.stage_setBitmap b).trans (stage_reportMemory _ _ _)
        · exact (m.stage_print _).trans (stage_setBitmap _ b)
      · split_ifs <;> rfl
    rw [hm₁] at h
    unfold mapLocked
    split_ifs at h ⊢ with hmap
    · obtain ⟨c, hc, rfl⟩ := Option.map_eq_some_iff.mp h
      refine ⟨(hstage.trans (m₁.stage_print _)).trans (stage_setBitmap _ c), ?_, b, hb, ?_⟩
      · change { m₁.kernel with bitmap := c } = { m.kernel with bitmap := c }
        rw [hkernel]
      · change pmmParseMmap fuel m₁.kernel.mem _ _ m₁.kernel.bitmap = some c at hc
        rw [hkernel] at hc
        exact .mapped _ _ _ hb hc
    · obtain rfl := Option.some.inj h
      refine ⟨hstage.trans (m₁.stage_print _), ?_, b, hb, ?_⟩
      · rw [print_kernel, hkernel]
      · rw [print_kernel, hkernel]
        exact .bare hb

theorem stage_announceImport (m : Machine) : BootStage m m.announceImport :=
  (m.stage_print _).trans (stage_print _ _)

theorem announceImport_rest (m : Machine) : m.announceImport.kernel = m.kernel ∧ m.announceImport.ports = m.ports := by
  unfold announceImport
  rw [print_kernel, print_kernel, print_ports, print_ports]
  exact ⟨rfl, rfl⟩

theorem stage_endImport (m : Machine) {r : Storage × Console} (h : m.screen.OnScreen → r.2.OnScreen) :
    BootStage m (m.endImport r) := by
  have hset : BootStage m { m with kernel := { m.kernel with storage := r.1 }, screen := r.2 } :=
    ⟨rfl, rfl, rfl, h⟩
  exact hset.trans (stage_print _ _)

theorem endImport_rest (m : Machine) (r : Storage × Console) :
    (m.endImport r).kernel = { m.kernel with storage := r.1 } ∧ (m.endImport r).ports = m.ports := by
  unfold endImport
  rw [print_kernel, print_ports]
  exact ⟨rfl, rfl⟩

theorem stage_importFiles {fuel : ℕ} {m m' : Machine} (h : m.importFiles fuel = some m') :
    BootStage m m' ∧ (∃ d, Mirrors m'.kernel.storage d) ∧
      m'.kernel = { m.kernel with storage := m'.kernel.storage } ∧ m'.ports = m.ports := by
  obtain ⟨r, hr, rfl⟩ := Option.map_eq_some_iff.mp h
  obtain ⟨hlisted, hscreen⟩ := mount_listed hr ⟨.empty, mirrors_init _⟩
  dsimp only at hscreen
  obtain ⟨hkernel, hports⟩ := m.announceImport.endImport_rest r
  obtain ⟨hkernel', hports'⟩ := m.announceImport_rest
  refine ⟨m.stage_announceImport.trans (m.announceImport.stage_endImport hscreen), ?_, ?_, hports.trans hports'⟩
  · rw [hkernel]
    exact hlisted
  · rw [hkernel, hkernel']

theorem stage_ports (m : Machine) (p : Ports) : BootStage m { m with ports := p } := ⟨rfl, rfl, rfl, id⟩

theorem stage_startTimer (m : Machine) : BootStage m m.startTimer := (m.stage_print _).trans (stage_ports _ _)

theorem startTimer_kernel (m : Machine) : m.startTimer.kernel = m.kernel := by
  unfold startTimer
  dsimp only
  rw [print_kernel]

theorem startTimer_ticks (m : Machine) : m.startTimer.ports.pit 0 = tickChannel := by
  unfold startTimer
  dsimp only
  rw [Ports.timerInit_pit, Function.update_self]

theorem stage_announceShell (m : Machine) : BootStage m m.announceShell :=
  (m.stage_print _).trans (stage_print _ _)

theorem announceShell_rest (m : Machine) : m.announceShell.kernel = m.kernel ∧ m.announceShell.ports = m.ports := by
  unfold announceShell
  rw [print_kernel, print_kernel, print_ports, print_ports]
  exact ⟨rfl, rfl⟩

variable {fuel : ℕ} {kernel_end mboot_ptr magic : U32} {stack : ℤ → Byte} {m : Machine}

/-- The stages behind a boot that comes to user mode. -/
structure Booted (fuel : ℕ) (kernel_end : U32) (stack : ℤ → Byte) (mbi : MultibootInfo) (m₀ m₁ m₂ : Machine)
    (o : Outcome) : Prop where
  memory : m₀.initMemory fuel kernel_end stack mbi = some m₁
  files : m₁.startTimer.importFiles fuel = some m₂
  shell : launchUserland fuel m₂.announceShell.kernel = some o
  user : ∀ msg, o.control ≠ .panic msg

theorem enterShell_user (h : (m.enterShell fuel).1.mode = .user) : ∃ o,
    launchUserland fuel m.announceShell.kernel = some o ∧ (∀ msg, o.control ≠ .panic msg) ∧
      m.enterShell fuel = { m.announceShell with mode := .user }.settle o := by
  unfold enterShell at h ⊢
  dsimp only at h ⊢
  cases hl : launchUserland fuel m.announceShell.kernel with
  | none =>
    rw [hl] at h
    cases h
  | some o =>
    rw [hl] at h
    refine ⟨o, rfl, fun msg hc => ?_, rfl⟩
    simp only [settle, hc] at h
    cases h

theorem kernelMain_booted (h : (m.kernelMain fuel kernel_end stack mboot_ptr magic).1.mode = .user) :
    magic = multibootMagic ∧ mboot_ptr ≠ 0 ∧ ∃ m₁ m₂ o,
      Booted fuel kernel_end stack (multibootInfo m.kernel.mem mboot_ptr)
        (m.announceBoot.findRamfs (multibootInfo m.kernel.mem mboot_ptr)) m₁ m₂ o ∧
      m.kernelMain fuel kernel_end stack mboot_ptr magic = { m₂.announceShell with mode := .user }.settle o := by
  unfold kernelMain at h ⊢
  by_cases hmagic : magic = multibootMagic
  · by_cases hptr : mboot_ptr = 0
    · rw [if_neg (not_not.mpr hmagic), if_pos hptr] at h
      cases h
    · rw [if_neg (not_not.mpr hmagic), if_neg hptr] at h ⊢
      refine ⟨hmagic, hptr, ?_⟩
      dsimp only at h ⊢
      generalize multibootInfo m.kernel.mem mboot_ptr = mbi at h ⊢
      cases hm : (m.announceBoot.findRamfs mbi).initMemory fuel kernel_end stack mbi with
      | none =>
        rw [hm] at h
        cases h
      | some m₁ =>
        rw [hm] at h
        dsimp only at h ⊢
        cases hf : m₁.startTimer.importFiles fuel with
        | none =>
          rw [hf] at h
          cases h
        | some m₂ =>
          rw [hf] at h
          obtain ⟨o, hl, hc, heq⟩ := enterShell_user h
          exact ⟨m₁, m₂, o, ⟨hm, hf, hl, hc⟩, heq⟩
  · rw [if_pos hmagic] at h
    cases h

/-! ### What boot hands over -/

variable {mbi : MultibootInfo} {m₀ m₁ m₂ : Machine} {o : Outcome}

theorem Booted.kernel (h : Booted fuel kernel_end stack mbi m₀ m₁ m₂ o) :
    m₂.announceShell.kernel =
      { m₀.kernel with bitmap := m₁.kernel.bitmap, storage := m₂.kernel.storage } := by
  obtain ⟨-, -, hfiles, -⟩ := stage_importFiles h.files
  obtain ⟨-, hmemory, -⟩ := stage_initMemory h.memory
  rw [m₂.announceShell_rest.1, hfiles, m₁.startTimer_kernel, hmemory]

theorem Booted.stage (h : Booted fuel kernel_end stack mbi m₀ m₁ m₂ o) : BootStage m₀ m₂.announceShell :=
  (((stage_initMemory h.memory).1.trans m₁.stage_startTimer).trans (stage_importFiles h.files).1).trans
    m₂.stage_announceShell

end Machine

/-- A page that is free after the initialisation starts behind the kernel and below the size of
memory, and no entry of the map locked it. -/
theorem Initialised.free {mem_size kernel_end : U32} (hm : mem_size ≤ 0xFFFFF000) (hk : kernel_end ≤ 0xFFFFF000)
    {named : Set ℕ} {b : Bitmap} (h : Initialised mem_size kernel_end named b) {q : ℕ} (hq : q ∈ freePages b) :
    max 0x100000 kernel_end.toNat ≤ q * 4096 ∧ q * 4096 < mem_size.toNat ∧ q ∉ named := by
  obtain ⟨hlt, hfree⟩ := mem_freePages.mp hq
  have hsafe := (safeStart_toNat kernel_end hk).2.1
  have hopen : ∀ fuel c, pmmInit fuel mem_size kernel_end = some c → c.bit q = false →
      (safeStart kernel_end).toNat ≤ q * 4096 ∧ q * 4096 < mem_size.toNat := by
    intro fuel c hc hbit
    rw [(pmmInit_spec mem_size kernel_end hm hk).2 fuel c hc q hlt, Bool.not_eq_false', decide_eq_true_eq] at hbit
    exact hbit
  have hnamed : q ∉ named := fun hn => by
    rw [h.locked hm hk hlt (Or.inr hn)] at hfree
    cases hfree
  cases h with
  | bare hb =>
    obtain ⟨hlow, hhigh⟩ := hopen _ _ hb hfree
    exact ⟨hsafe.trans hlow, hhigh, hnamed⟩
  | mapped m mmap_addr mmap_length hb hmap =>
    rename_i b₀
    have hwithin := (pmmParseMmap_spec hmap).1 q hlt
    have hfirst : b₀.bit q = false := by
      by_contra hc
      rw [hwithin (Bool.not_eq_false _ ▸ hc)] at hfree
      cases hfree
    obtain ⟨hlow, hhigh⟩ := hopen _ _ hb hfirst
    exact ⟨hsafe.trans hlow, hhigh, hnamed⟩

namespace Machine

variable {fuel : ℕ} {kernel_end mboot_ptr magic : U32} {stack : ℤ → Byte} {m : Machine}

/-! ### A small machine to boot -/

def bytes4 (x : U32) : List Byte :=
  [x.setWidth 8, (x >>> 8).setWidth 8, (x >>> 16).setWidth 8, (x >>> 24).setWidth 8]

/-- The structure of the bootloader at 0x500 with 4144 KiB of memory, one module, described
at 0x600, with the shell. -/
def bootMem : Ram := fun a =>
  if a < 0x600 then
    (bytes4 9 ++ bytes4 640 ++ bytes4 0x100C ++ List.replicate 8 0 ++ bytes4 1 ++ bytes4 0x600).getD (a - 0x500).toNat 0
  else if a < 0x700 then (bytes4 0x400000 ++ bytes4 0x400800).getD (a - 0x600).toNat 0
  else shellArchive a

def bootA : Machine := { machineA with kernel := { machineA.kernel with mem := bootMem } }

theorem bootA_user : (bootA.kernelMain 5 0x100000 (fun _ => 0) 0x500 multibootMagic).1.mode = .user := by
  decide +kernel

/-- From power on, whatever runs and spares the kernel's memory: no frame goes to `map_page`
twice, and each starts below the size of memory, behind the kernel and the boot module, and is
no page that the loop over the memory map locks. -/
theorem frames_once (fuel : ℕ) (kernel_end mboot_ptr magic : U32) (stack : ℤ → Byte) (m : Machine)
    (huser : (m.kernelMain fuel kernel_end stack mboot_ptr magic).1.mode = .user)
    (hend : (m.announceBoot.findRamfs (multibootInfo m.kernel.mem mboot_ptr)).reservedEnd kernel_end ≤ 0xFFFFF000)
    (km : KernelMemory) (es : List MachineEvent)
    (hs : (m.kernelMain fuel kernel_end stack mboot_ptr magic).1.Spared km es) :
    let mbi := multibootInfo m.kernel.mem mboot_ptr
    let reserved_end := (m.announceBoot.findRamfs mbi).reservedEnd kernel_end
    let boot := m.kernelMain fuel kernel_end stack mboot_ptr magic
    let mapped := boot.2.mapped ++ boot.1.handed km es
    (∀ e ∈ mapped, e.2.toNat % 4096 = 0) ∧ (framesOf mapped).Nodup ∧
      ∃ b, pmmInit fuel mbi.memSize reserved_end = some b ∧ ∀ p ∈ framesOf mapped,
        (max 0x100000 reserved_end.toNat ≤ p * 4096 ∧ p * 4096 < mbi.memSize.toNat) ∧
          p ∉ mapLocked fuel m.kernel.mem mbi b := by
  intro mbi reserved_end boot mapped
  obtain ⟨-, -, m₁, m₂, o, hbooted, hboot⟩ := kernelMain_booted huser
  obtain ⟨-, -, b, hb, hinit⟩ := stage_initMemory hbooted.memory
  have hloads := launchUserland_loads hbooted.shell
  have hmapped : boot.2.mapped = o.mapped := congrArg (fun r : Machine × Response => r.2.mapped) hboot
  have hfirst : Takes (supply m₁.kernel.bitmap) (framesOf boot.2.mapped) (supply boot.1.kernel.bitmap) := by
    have htakes := hloads.takes
    rw [hbooted.kernel] at htakes
    change Takes _ (framesOf (m.kernelMain fuel kernel_end stack mboot_ptr magic).2.mapped)
      (supply (m.kernelMain fuel kernel_end stack mboot_ptr magic).1.kernel.bitmap)
    rw [hboot]
    exact htakes
  have hall : Takes (supply m₁.kernel.bitmap) (framesOf mapped) (supply (final (step km) boot.1 es).kernel.bitmap) := by
    rw [framesOf, List.map_append]
    exact hfirst.append (run_takes hs)
  refine ⟨fun e he => ?_, hall.nodup, b, hb, fun p hp => ?_⟩
  · rcases List.mem_append.mp he with he | he
    · rw [hmapped] at he
      exact hloads.aligned e he
    · exact run_aligned hs e he
  · have hm : mbi.memSize ≤ 0xFFFFF000 := (pmmInit_ends_iff _ _).mp ⟨fuel, b, hb⟩
    have hfree : p ∈ freePages m₁.kernel.bitmap := Finset.mem_of_mem_erase (hall.subset p hp)
    obtain ⟨hlow, hhigh, hnamed⟩ := hinit.free hm hend hfree
    have hmem : (m.announceBoot.findRamfs mbi).kernel.mem = m.kernel.mem :=
      ((m.stage_print _).trans (stage_findRamfs _ mbi)).mem
    rw [hmem] at hnamed
    exact ⟨⟨hlow, hhigh⟩, hnamed⟩

/-- A tick, a key, and the exit to a fresh shell. -/
def bootRun : List MachineEvent := [.irq0, .irq1 0x1E, .int80 demoFrame ⟨0, 0, 0, 0, 0, 0, 0, 21⟩]

theorem bootRun_spared : (bootA.kernelMain 5 0x100000 (fun _ => 0) 0x500 multibootMagic).1.Spared lowKernel bootRun := by
  unfold Spared
  exact ⟨rfl, rfl, by decide +kernel, trivial⟩

theorem frames_once_small :
    let boot := bootA.kernelMain 5 0x100000 (fun _ => 0) 0x500 multibootMagic
    (framesOf (boot.2.mapped ++ boot.1.handed lowKernel bootRun)).Nodup :=
  (frames_once 5 0x100000 0x500 multibootMagic (fun _ => 0) bootA bootA_user (by decide +kernel) lowKernel
    bootRun bootRun_spared).2.1

theorem settle_screen {m : Machine} (h : m.screen.OnScreen) (o : Outcome) : (m.settle o).1.screen.OnScreen := by
  change (m.flush o.kernel).screen.OnScreen
  rw [flush_screen]
  exact (Console.run_invariant (fun _ b h => h.putChar b) (fun _ h => h.kclear)
    (fun _ _ h => ⟨h.nonneg, h.le, h.used⟩) h _).1

/-- What the drivers keep when a launch enters user mode. -/
theorem enter_rest (m : Machine) (o : Outcome) :
    (m.screen.OnScreen → ({ m with mode := .user }.settle o).1.screen.OnScreen) ∧
      ({ m with mode := .user }.settle o).1.keyboard = m.keyboard ∧
      ({ m with mode := .user }.settle o).1.ports = m.ports ∧
      ({ m with mode := .user }.settle o).1.system_ticks = m.system_ticks :=
  ⟨fun h => settle_screen (m := { m with mode := .user }) h o, rfl, rfl, rfl⟩

/-- From power on, whatever programs and interrupts come and spare the kernel's memory and the
ports: the calls on files answer from a list that the import left, the screen and the ring keep
their bounds and their order, and every timer interrupt that is taken counts once, 100 times
in a second. -/
theorem power_on (fuel : ℕ) (kernel_end mboot_ptr magic : U32) (stack : ℤ → Byte) (m : Machine)
    (hscreen : m.screen.OnScreen) (hkeys : m.keyboard.Queues [])
    (huser : (m.kernelMain fuel kernel_end stack mboot_ptr magic).1.mode = .user)
    (km : KernelMemory) (es : List MachineEvent)
    (hs : (m.kernelMain fuel kernel_end stack mboot_ptr magic).1.Spared km es) :
    let boot := (m.kernelMain fuel kernel_end stack mboot_ptr magic).1
    let m' := final (step km) boot es
    let keys := keysOf (trace (step km) boot es)
    (∃ d, Along (Filed.step km) (fun s e => s.Mirrored ∧ s.Answered km e) ⟨boot, d⟩ es) ∧
      m'.screen.OnScreen ∧ acceptedChars keys = deliveredChars keys ++ m'.keyboard.ringChars ∧
      m'.system_ticks = m.system_ticks + BitVec.ofNat 32 (boot.ticked km es) ∧ m'.ports.pit 0 = tickChannel := by
  intro boot m' keys
  obtain ⟨-, -, m₁, m₂, o, hbooted, hboot⟩ := kernelMain_booted huser
  have hfirst : BootStage m (m.announceBoot.findRamfs (multibootInfo m.kernel.mem mboot_ptr)) :=
    (m.stage_print _).trans (stage_findRamfs _ _)
  have hstage := hfirst.trans hbooted.stage
  have hresult : boot = ({ m₂.announceShell with mode := .user }.settle o).1 := congrArg Prod.fst hboot
  obtain ⟨-, hfiles, -, hports⟩ := stage_importFiles hbooted.files
  obtain ⟨d, hd⟩ : ∃ d, Mirrors boot.kernel.storage d := by
    rw [hresult]
    change ∃ d, Mirrors o.kernel.storage d
    rw [(launchUserland_loads hbooted.shell).storage, m₂.announceShell_rest.1]
    exact hfiles
  obtain ⟨hprints, hkeyboard, hsame, hcount⟩ := m₂.announceShell.enter_rest o
  rw [← hresult] at hprints hkeyboard hsame hcount
  have hkeys' : boot.keyboard.Queues [] := by
    rw [hkeyboard, hstage.keyboard]
    exact hkeys
  have htimer : boot.ports.pit 0 = tickChannel := by
    rw [hsame, m₂.announceShell_rest.2, hports, startTimer_ticks]
  obtain ⟨q, hq, hbalance⟩ := run_keys hkeys' hs
  obtain ⟨calls, hprinted⟩ := run_screen hs
  obtain ⟨sounds, hsounds⟩ := run_ports hs
  refine ⟨⟨d, Filed.run_answered (s := ⟨boot, d⟩) hd hs⟩, ?_, ?_, ?_, ?_⟩
  · change (final (step km) boot es).screen.OnScreen
    rw [hprinted]
    exact (Console.run_invariant (fun _ b h => h.putChar b) (fun _ h => h.kclear)
      (fun _ _ h => ⟨h.nonneg, h.le, h.used⟩) (hprints (hstage.screen hscreen)) calls).1
  · change _ = _ ++ (final (step km) boot es).keyboard.ringChars
    rw [Keyboard.ringChars, hq.holds.contents_eq]
    exact hbalance
  · rw [← hstage.system_ticks, ← hcount]
    exact run_ticks hs
  · change (final (step km) boot es).ports.pit 0 = tickChannel
    rw [hsounds, ← htimer]
    exact ((Sounding.start boot.ports).calls sounds).ticks

theorem power_on_small :
    let boot := (bootA.kernelMain 5 0x100000 (fun _ => 0) 0x500 multibootMagic).1
    let m' := final (step lowKernel) boot bootRun
    m'.system_ticks = 1 ∧ m'.ports.pit 0 = tickChannel := by
  obtain ⟨-, -, -, hticks, htimer⟩ := power_on 5 0x100000 0x500 multibootMagic (fun _ => 0) bootA
    ⟨by decide, by decide, fun _ hi => absurd hi List.not_mem_nil⟩ machineA_keys bootA_user lowKernel bootRun
    bootRun_spared
  refine ⟨hticks.trans ?_, htimer⟩
  decide +kernel

end Machine

end FrodOS
