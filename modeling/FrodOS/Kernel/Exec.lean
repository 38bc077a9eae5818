import FrodOS.Frodfs.Extent
import FrodOS.Kernel.State
import FrodOS.Pmm.Frames

/-!
# Launching a program (syscall 20)

The stored file is read into a buffer on the kernel stack and its FXE header
decides how many frames are taken and mapped and where the payload goes.
-/

namespace FrodOS
open Lib

/-! ### The FXE header (fxe.h) -/

structure FxeHeader where
  magic : List Byte
  (entry_point text_offset text_size data_offset data_size bss_size stack_size : U32)

def fxeHeader (f : View) : FxeHeader where
  magic := [f 0, f 1, f 2, f 3]
  entry_point := leWord fun i => f (4 + i)
  text_offset := leWord fun i => f (8 + i)
  text_size := leWord fun i => f (12 + i)
  data_offset := leWord fun i => f (16 + i)
  data_size := leWord fun i => f (20 + i)
  bss_size := leWord fun i => f (24 + i)
  stack_size := leWord fun i => f (28 + i)

def fxeMagic : List Byte := [70, 88, 69, 1]

theorem fxeHeader_congr (f g : View) (h : ∀ i < 32, f i = g i) : fxeHeader f = fxeHeader g := by
  have hw : ∀ o, o + 4 ≤ 32 → leWord (fun i => f (o + i)) = leWord (fun i => g (o + i)) :=
    fun o ho => leWord_congr _ _ fun i hi => h (o + i) (by omega)
  simp only [fxeHeader, h 0 (by omega), h 1 (by omega), h 2 (by omega), h 3 (by omega), hw 4 (by omega),
    hw 8 (by omega), hw 12 (by omega), hw 16 (by omega), hw 20 (by omega), hw 24 (by omega), hw 28 (by omega)]

namespace FxeHeader

def totalMemory (h : FxeHeader) : U32 := h.text_size + h.data_size + h.bss_size

def appPages (h : FxeHeader) : U32 := (h.totalMemory + 4095) / 4096

def stackPages (h : FxeHeader) : U32 := (h.stack_size + 4095) / 4096

end FxeHeader

/-! ### Frames for a range of pages -/

structure Mapping where
  kernel : Kernel
  ok : Bool
  mapped : List (U32 × U32)

/-- The loop that exec runs for the image and for the stack and `launch_userland` for
the shell, from pass `i` on: one frame for each page, given to `map_page`. -/
def allocAndMap (base : U32) : (left i : ℕ) → Kernel → Mapping
  | 0, _, k => ⟨k, true, []⟩
  | left + 1, i, k =>
    let v_addr := off base (i * 4096)
    let a := pmmAllocPages k.bitmap 1
    let p_frame := a.1
    let k₁ := { k with bitmap := a.2 }
    if p_frame = 0 then ⟨k₁, false, []⟩
    else
      let r := allocAndMap base left (i + 1)
        (mapPage k₁ v_addr p_frame (pagePresent ||| pageWrite ||| pageUser))
      ⟨r.kernel, r.ok, (v_addr, p_frame) :: r.mapped⟩

/-! ### The call -/

/-- Where the compiler put the locals of the call: in the 64 KB below `tss.esp0`. -/
structure ExecFrame where
  file_buf : U32
  file_size : U32
  buf_above : 0x80000 ≤ file_buf.toNat
  buf_below : file_buf.toNat + 4096 ≤ 0x90000
  size_above : 0x80000 ≤ file_size.toNat
  size_below : file_size.toNat + 4 ≤ 0x90000
  apart : file_size.toNat + 4 ≤ file_buf.toNat ∨ file_buf.toNat + 4096 ≤ file_size.toNat

def kernelPanic (k : Kernel) (msg : String) (mapped : List (U32 × U32)) : Outcome :=
  ⟨kprint (kprint (kprint k "Kernel Panic: ") msg) "\n", .panic msg, [], mapped, []⟩

def stackVirtualBase : U32 := 0x7000000

def mapImage (k : Kernel) (header : FxeHeader) : Mapping :=
  allocAndMap header.entry_point header.appPages.toNat 0 k

def mapStack (k : Kernel) (header : FxeHeader) : Mapping :=
  allocAndMap stackVirtualBase header.stackPages.toNat 0 (mapImage k header).kernel

/-- Steps 7 and 8: the payload is copied and control passes to the program. The kernel's code,
stack and objects have no address in `mem`; what a copy onto them does is up to `execOver` and
`Machine.step`. -/
def execJump (frame : ExecFrame) (k : Kernel) (header : FxeHeader) (mapped : List (U32 × U32)) :
    Outcome :=
  let payload_size := load32 k.mem frame.file_size - 32
  let r := kernelMemmove k.mem header.entry_point (off frame.file_buf 32) payload_size
  -- the header is read again, from a buffer the copy may have reached
  let entry := (fxeHeader (view r.1 frame.file_buf)).entry_point
  ⟨kprint { k with mem := r.1 } "FrodFS: Structured FXE verified. Executing program block...\n",
    .userMode entry userStack, [], mapped, r.2⟩

def execImage (frame : ExecFrame) (k : Kernel) (header : FxeHeader) : Outcome :=
  let image := mapImage k header
  if image.ok then
    let stack := mapStack k header
    if stack.ok then execJump frame stack.kernel header (image.mapped ++ stack.mapped)
    else kernelPanic stack.kernel "OOM allocating app stack pages." (image.mapped ++ stack.mapped)
  else kernelPanic image.kernel "OOM allocating space for custom FXE image segments." image.mapped

def execClear (frame : ExecFrame) (m : Ram) : Ram :=
  writeBytes (store32 m frame.file_size 0) frame.file_buf (fun _ => 0) 4096

/-- `case 20` -/
def sysExec (frame : ExecFrame) (k : Kernel) (regs : SyscallRegs) : Outcome :=
  let app_name := regs.ebx
  if userPtrOk app_name then
    let m := execClear frame k.mem
    let lookup := frodfsRead k.storage m (ptr m app_name) frame.file_buf 4096 frame.file_size
    let k₁ := { k with mem := lookup.2.1 }
    if lookup.1 < 0 ∨ load32 k₁.mem frame.file_size < 32 then
      ⟨k₁, .iret { regs with eax := -2 }, [], [], []⟩
    else
      let header := fxeHeader (view k₁.mem frame.file_buf)
      if header.magic ≠ fxeMagic then
        ⟨kprint k₁ "Exec Error: Invalid FXE binary execution signature.\n",
          .iret { regs with eax := -4 }, [], [], []⟩
      else execImage frame k₁ header
  else ⟨k, .iret { regs with eax := -1 }, [], [], []⟩

/-! ### The frames taken -/

structure SameBut (k k' : Kernel) : Prop where
  mem : k'.mem = k.mem
  storage : k'.storage = k.storage
  directory : k'.directory = k.directory
  ramfs_start : k'.ramfs_start = k.ramfs_start
  ramfs_end : k'.ramfs_end = k.ramfs_end

theorem SameBut.refl (k : Kernel) : SameBut k k := ⟨rfl, rfl, rfl, rfl, rfl⟩

theorem SameBut.trans {k k' k'' : Kernel} (h : SameBut k k') (h' : SameBut k' k'') :
    SameBut k k'' :=
  ⟨h'.mem.trans h.mem, h'.storage.trans h.storage, h'.directory.trans h.directory,
    h'.ramfs_start.trans h.ramfs_start, h'.ramfs_end.trans h.ramfs_end⟩

theorem sameBut_mapPage (k : Kernel) (v p f : U32) : SameBut k (mapPage k v p f) := by
  simp only [mapPage]
  split_ifs <;> exact ⟨rfl, rfl, rfl, rfl, rfl⟩

theorem allocAndMap_same (base : U32) (left i : ℕ) (k : Kernel) :
    SameBut k (allocAndMap base left i k).kernel := by
  induction left generalizing i k with
  | zero => exact .refl k
  | succ left ih =>
    have hbit : SameBut k { k with bitmap := (pmmAllocPages k.bitmap 1).2 } := ⟨rfl, rfl, rfl, rfl, rfl⟩
    simp only [allocAndMap]
    split_ifs
    · exact hbit
    · exact (hbit.trans (sameBut_mapPage _ _ _ _)).trans (ih _ _)

theorem allocAndMap_spec (base : U32) (left i : ℕ) (k : Kernel) :
    ((allocAndMap base left i k).ok = true ↔ left ≤ available k.bitmap) ∧
      (allocAndMap base left i k).mapped.map Prod.fst =
        (List.range (min left (available k.bitmap))).map (fun j => off base ((i + j) * 4096)) ∧
      ((allocAndMap base left i k).ok = true →
        available (allocAndMap base left i k).kernel.bitmap + left = available k.bitmap ∧
        (freePages (allocAndMap base left i k).kernel.bitmap).card + left = (freePages k.bitmap).card) := by
  induction left generalizing i k with
  | zero => simp [allocAndMap]
  | succ left ih =>
    by_cases hz : (pmmAllocPages k.bitmap 1).1 = 0
    · have h0 := pmmAllocPages_refused hz
      simp only [allocAndMap, hz, if_true, h0, Nat.min_zero, List.range_zero, List.map_nil,
        Bool.false_eq_true, false_iff, false_imp_iff, and_true]
      omega
    · obtain ⟨hp, _, hfree, _, hav⟩ := pmmAllocPages_accepted hz
      have hcard := Finset.card_erase_of_mem hp
      have hpos := Finset.card_pos.mpr ⟨_, hp⟩
      obtain ⟨hok, hmap, hleft⟩ := ih (i + 1) (mapPage { k with bitmap := (pmmAllocPages k.bitmap 1).2 }
        (off base (i * 4096)) (pmmAllocPages k.bitmap 1).1 (pagePresent ||| pageWrite ||| pageUser))
      simp only [mapPage_bitmap] at hok hmap hleft
      simp only [allocAndMap, hz, if_false, List.map_cons]
      refine ⟨?_, ?_, ?_⟩
      · rw [hok]
        omega
      · rw [hmap, show min (left + 1) (available k.bitmap) =
          min left (available (pmmAllocPages k.bitmap 1).2) + 1 by omega, List.range_succ_eq_map,
          List.map_cons, List.map_map, Nat.add_zero]
        refine congrArg _ (List.map_congr_left fun j _ => ?_)
        simp only [Function.comp_apply, Nat.succ_eq_add_one]
        rw [show i + 1 + j = i + (j + 1) by omega]
      · intro h
        obtain ⟨ha, hc⟩ := hleft h
        rw [hfree] at hc
        omega

/-! ### What the buffer holds -/

namespace ExecFrame

variable (frame : ExecFrame)

theorem buf_off {i : ℕ} (hi : i < 4096) : (off frame.file_buf i).toNat = frame.file_buf.toNat + i := by
  have := frame.buf_below
  exact off_toNat _ _ (by omega)

theorem size_off {i : ℕ} (hi : i < 4) : (off frame.file_size i).toNat = frame.file_size.toNat + i := by
  have := frame.size_below
  exact off_toNat _ _ (by omega)

theorem buf_ne : frame.file_buf ≠ 0 := by
  intro h
  have := frame.buf_above
  rw [h] at this
  exact absurd this (by decide)

theorem size_ne : frame.file_size ≠ 0 := by
  intro h
  have := frame.size_above
  rw [h] at this
  exact absurd this (by decide)

theorem buf_ne_size {i j : ℕ} (hi : i < 4096) (hj : j < 4) :
    off frame.file_buf i ≠ off frame.file_size j := by
  intro h
  have hn := congrArg BitVec.toNat h
  rw [frame.buf_off hi, frame.size_off hj] at hn
  have := frame.apart
  omega

/-- Clearing the locals changes no byte of a name from user mode, even one that runs
past the top of memory. -/
theorem clear_name (m : Ram) {p : U32} (hp : userPtrOk p = true) {i : ℕ} (hi : i < 32) :
    execClear frame m (off p i) = m (off p i) := by
  have hpn : 0x200000 ≤ p.toNat := (userPtrOk_iff p).mp hp
  have hlt := p.isLt
  have hout : (off p i).toNat < 32 ∨ 0x200000 ≤ (off p i).toNat := by
    rw [off_toNat_mod]
    omega
  have hbuf := frame.buf_above
  have hbuf' := frame.buf_below
  have hsize := frame.size_above
  have hsize' := frame.size_below
  rw [execClear, writeBytes_outside, store32, writeBytes_outside]
  · intro j hj he
    rw [he, frame.size_off hj] at hout
    omega
  · intro j hj he
    rw [he, frame.buf_off hj] at hout
    omega

end ExecFrame

theorem firstNamed_congr {s : Storage} {f g : View} (h : ∀ i < 32, f i = g i) (i : Fin 32) :
    FirstNamed s f i ↔ FirstNamed s g i := by
  have hc : ∀ j, IsCStr f (s j).nameStr ↔ IsCStr g (s j).nameStr := fun j => by
    have hlen := (s j).nameStr_length
    exact ⟨fun hf => hf.congr fun i hi => (h i (by omega)).symm,
      fun hg => hg.congr fun i hi => h i (by omega)⟩
  simp only [FirstNamed, hc]

theorem find_after_clear (frame : ExecFrame) (s : Storage) (m : Ram) {p : U32}
    (hp : userPtrOk p = true) (i : Fin 32) :
    (findName s (view (execClear frame m) p) slots).1 = some i ↔ FirstNamed s (view m p) i := by
  rw [findName_eq_some_iff]
  exact firstNamed_congr (fun j hj => frame.clear_name m hp hj) i

def execLoaded (frame : ExecFrame) (k : Kernel) (i : Fin 32) : Ram :=
  store32 (writeBytes (execClear frame k.mem) frame.file_buf (k.storage i).dataView
    (k.storage i).size.toNat) frame.file_size (k.storage i).size

theorem execLoaded_size (frame : ExecFrame) (k : Kernel) (i : Fin 32) :
    load32 (execLoaded frame k i) frame.file_size = (k.storage i).size :=
  load32_store32 _ _ _ (by decide)

theorem execLoaded_bytes (frame : ExecFrame) (k : Kernel) (i : Fin 32) {j : ℕ}
    (hj : j < (k.storage i).size.toNat) :
    view (execLoaded frame k i) frame.file_buf j = (k.storage i).dataView j := by
  have hle := (k.storage i).size_le
  rw [view, execLoaded, store32, writeBytes_outside, writeBytes_inside _ _ _ _ _ (by omega) hj]
  exact fun n hn => frame.buf_ne_size (by omega) hn

theorem frodfsRead_exec (frame : ExecFrame) (k : Kernel) {p : U32} (hp : userPtrOk p = true)
    {i : Fin 32} (hi : FirstNamed k.storage (view k.mem p) i) :
    let m := execClear frame k.mem
    let r := frodfsRead k.storage m (ptr m p) frame.file_buf 4096 frame.file_size
    r.1 = 0 ∧ r.2.1 = execLoaded frame k i := by
  have hle := (k.storage i).size_le
  have hmin : (if (k.storage i).size > (4096 : U32) then (4096 : U32) else (k.storage i).size) =
      (k.storage i).size := if_neg (BitVec.not_lt.mpr hle)
  simp only [ptr_of_ne _ (ne_zero_of_userPtrOk hp), frodfsRead, frame.buf_ne, frame.size_ne, or_self,
    if_false, (find_after_clear frame k.storage k.mem hp i).mpr hi, hmin, execLoaded, and_self]

/-- Slot `i` holds the file that exec finds under this name, and one that it accepts. -/
structure Executable (s : Storage) (m : Ram) (app_name : U32) (i : Fin 32) : Prop where
  user : userPtrOk app_name = true
  file : FirstNamed s (view m app_name) i
  size : 32 ≤ (s i).size.toNat
  magic : (fxeHeader (s i).dataView).magic = fxeMagic

theorem sysExec_valid (frame : ExecFrame) (k : Kernel) (regs : SyscallRegs) {i : Fin 32}
    (h : Executable k.storage k.mem regs.ebx i) :
    sysExec frame k regs =
      execImage frame { k with mem := execLoaded frame k i } (fxeHeader (k.storage i).dataView) := by
  obtain ⟨hcode, hmem⟩ := frodfsRead_exec frame k h.user h.file
  have hsize := h.size
  have hheader : fxeHeader (view (execLoaded frame k i) frame.file_buf) =
      fxeHeader (k.storage i).dataView :=
    fxeHeader_congr _ _ fun j hj => execLoaded_bytes frame k i (by omega)
  have hnot : ¬ ((0 : ℤ) < 0 ∨ (k.storage i).size < 32) := by
    intro hc
    rcases hc with h | h
    · omega
    · have : (k.storage i).size.toNat < 32 := h
      omega
  simp only [sysExec, h.user, if_true, hcode, hmem, execLoaded_size, hnot, if_false, hheader, h.magic,
    ne_eq, not_true_eq_false]

/-- The call went back to its caller with a negative code, and changed nothing but memory
and the console. -/
structure Refused (k : Kernel) (regs : SyscallRegs) (o : Outcome) : Prop where
  code : ∃ code : U32, code.toInt < 0 ∧ o.control = .iret { regs with eax := code }
  mapped : o.mapped = []
  copied : o.copied = []
  storage : o.kernel.storage = k.storage
  bitmap : o.kernel.bitmap = k.bitmap
  directory : o.kernel.directory = k.directory
  tables : o.kernel.tables = k.tables

theorem sysExec_invalid (frame : ExecFrame) (k : Kernel) (regs : SyscallRegs)
    (h : ∀ i, ¬ Executable k.storage k.mem regs.ebx i) : Refused k regs (sysExec frame k regs) := by
  by_cases hp : userPtrOk regs.ebx = true
  · cases hf : (findName k.storage (view (execClear frame k.mem) regs.ebx) slots).1 with
    | none =>
      have hcode : (frodfsRead k.storage (execClear frame k.mem)
          (ptr (execClear frame k.mem) regs.ebx) frame.file_buf 4096 frame.file_size).1 < 0 := by
        simp only [ptr_of_ne _ (ne_zero_of_userPtrOk hp), frodfsRead, frame.buf_ne, frame.size_ne, hf,
          or_self, if_false]
        decide
      simp only [sysExec, hp, if_true, hcode, true_or]
      exact ⟨⟨_, by decide, rfl⟩, rfl, rfl, rfl, rfl, rfl, rfl⟩
    | some i =>
      have hi := (find_after_clear frame k.storage k.mem hp i).mp hf
      obtain ⟨hcode, hmem⟩ := frodfsRead_exec frame k hp hi
      by_cases hsize : (k.storage i).size < 32
      · simp only [sysExec, hp, if_true, hcode, hmem, execLoaded_size, hsize, or_true]
        exact ⟨⟨_, by decide, rfl⟩, rfl, rfl, rfl, rfl, rfl, rfl⟩
      · have hge : 32 ≤ (k.storage i).size.toNat := BitVec.not_lt.mp hsize
        have hheader : fxeHeader (view (execLoaded frame k i) frame.file_buf) =
            fxeHeader (k.storage i).dataView :=
          fxeHeader_congr _ _ fun j hj => execLoaded_bytes frame k i (by omega)
        have hmagic : (fxeHeader (k.storage i).dataView).magic ≠ fxeMagic :=
          fun hm => h i ⟨hp, hi, hge, hm⟩
        simp only [sysExec, hp, if_true, hcode, hmem, execLoaded_size, hsize, or_false, lt_irrefl,
          if_false, hheader, ne_eq, hmagic, not_false_eq_true]
        exact ⟨⟨_, by decide, rfl⟩, rfl, rfl, rfl, rfl, rfl, rfl⟩
  · simp only [sysExec, hp, if_false, Bool.false_eq_true]
    exact ⟨⟨_, by decide, rfl⟩, rfl, rfl, rfl, rfl, rfl, rfl⟩

/-! ### Where the call leads -/

def FxeHeader.frames (h : FxeHeader) : ℕ := h.appPages.toNat + h.stackPages.toNat

/-- Steps 5 to 8 stop for want of image frames or of stack frames, or go through and
leave that many frames fewer. -/
theorem execImage_cases (frame : ExecFrame) (k : Kernel) (h : FxeHeader) :
    (available k.bitmap < h.frames ∧
      ((execImage frame k h = kernelPanic (mapImage k h).kernel
          "OOM allocating space for custom FXE image segments." (mapImage k h).mapped) ∨
        execImage frame k h = kernelPanic (mapStack k h).kernel
          "OOM allocating app stack pages." ((mapImage k h).mapped ++ (mapStack k h).mapped))) ∨
    (available (mapStack k h).kernel.bitmap + h.frames = available k.bitmap ∧
      (freePages (mapStack k h).kernel.bitmap).card + h.frames = (freePages k.bitmap).card ∧
      SameBut k (mapStack k h).kernel ∧
      execImage frame k h =
        execJump frame (mapStack k h).kernel h ((mapImage k h).mapped ++ (mapStack k h).mapped)) := by
  obtain ⟨hok, _, hleft⟩ := allocAndMap_spec h.entry_point h.appPages.toNat 0 k
  obtain ⟨hok', _, hleft'⟩ := allocAndMap_spec stackVirtualBase h.stackPages.toNat 0 (mapImage k h).kernel
  have hsame := (allocAndMap_same h.entry_point h.appPages.toNat 0 k).trans
    (allocAndMap_same stackVirtualBase h.stackPages.toNat 0 (mapImage k h).kernel)
  change (mapImage k h).ok = true ↔ _ at hok
  change (mapImage k h).ok = true → _ at hleft
  change (mapStack k h).ok = true ↔ _ at hok'
  change (mapStack k h).ok = true → _ at hleft'
  unfold FxeHeader.frames
  by_cases hi : (mapImage k h).ok = true
  · obtain ⟨hav, hcard⟩ := hleft hi
    change available (mapImage k h).kernel.bitmap + _ = _ at hav
    change (freePages (mapImage k h).kernel.bitmap).card + _ = _ at hcard
    by_cases hs : (mapStack k h).ok = true
    · obtain ⟨hav', hcard'⟩ := hleft' hs
      change available (mapStack k h).kernel.bitmap + _ = _ at hav'
      change (freePages (mapStack k h).kernel.bitmap).card + _ = _ at hcard'
      refine Or.inr ⟨by omega, by omega, hsame, ?_⟩
      simp only [execImage, hi, hs, if_true]
    · have hshort : ¬ h.stackPages.toNat ≤ available (mapImage k h).kernel.bitmap :=
        fun hle => hs (hok'.mpr hle)
      refine Or.inl ⟨by omega, Or.inr ?_⟩
      simp only [execImage, hi, hs, if_true, if_false, Bool.false_eq_true]
  · have hshort : ¬ h.appPages.toNat ≤ available k.bitmap := fun hle => hi (hok.mpr hle)
    refine Or.inl ⟨by omega, Or.inl ?_⟩
    simp only [execImage, hi, if_false, Bool.false_eq_true]

/-- Exec reaches user mode exactly with a file it accepts and frames for all its pages,
and then with the fixed stack pointer. -/
theorem sysExec_userMode_iff (frame : ExecFrame) (k : Kernel) (regs : SyscallRegs) (esp : U32) :
    (∃ entry, (sysExec frame k regs).control = .userMode entry esp) ↔ esp = userStack ∧
      ∃ i, Executable k.storage k.mem regs.ebx i ∧
        (fxeHeader (k.storage i).dataView).frames ≤ available k.bitmap := by
  by_cases hex : ∃ i, Executable k.storage k.mem regs.ebx i
  · obtain ⟨i, hi⟩ := hex
    have honly : ∀ j, Executable k.storage k.mem regs.ebx j → j = i :=
      fun j hj => firstNamed_unique hj.file hi.file
    rw [sysExec_valid frame k regs hi]
    rcases execImage_cases frame { k with mem := execLoaded frame k i }
      (fxeHeader (k.storage i).dataView) with ⟨hshort, he⟩ | ⟨hav, _, _, he⟩
    · constructor
      · intro h
        obtain ⟨entry, hc⟩ := h
        rcases he with he | he <;> rw [he] at hc <;> cases hc
      · intro h
        obtain ⟨_, j, hj, hle⟩ := h
        rw [honly j hj] at hle
        change available k.bitmap < _ at hshort
        omega
    · rw [he]
      change _ = available k.bitmap at hav
      constructor
      · intro h
        obtain ⟨_, hc⟩ := h
        exact ⟨(Control.userMode.inj hc).2.symm, i, hi, by omega⟩
      · intro h
        obtain ⟨rfl, _⟩ := h
        exact ⟨_, rfl⟩
  · obtain ⟨code, _, hc⟩ := (sysExec_invalid frame k regs fun i hi => hex ⟨i, hi⟩).code
    rw [hc]
    constructor
    · intro h
      obtain ⟨entry, he⟩ := h
      cases he
    · intro h
      obtain ⟨_, i, hi, _⟩ := h
      exact absurd ⟨i, hi⟩ hex

/-! ### A kernel with one file -/

def fileA (bytes : List Byte) (h : bytes.length ≤ 4096) : FrodfsEntry where
  name i := if i = 0 then 97 else 0
  size := BitVec.ofNat 32 bytes.length
  data j := bytes.getD j.val 0
  used := true
  name_nul := ⟨1, rfl⟩
  size_le := by
    rw [BitVec.toNat_ofNat, Nat.mod_eq_of_lt (by omega)]
    exact h

/-- The pages 256 to 287 are free, and the name "a" is at 0x300000. -/
def kernelA (bytes : List Byte) (h : bytes.length ≤ 4096) : Kernel where
  mem a := if a = 0x300000 then 97 else 0
  storage := Function.update bootStorage 0 (fileA bytes h)
  bitmap i := if i = 8 then 0 else 0xFFFFFFFF
  directory := fun _ => 0
  tables := fun _ _ => 0
  ramfs_start := 0
  ramfs_end := 0
  console := []

def execA : SyscallRegs := ⟨0, 0, 0, 0, 0x300000, 0, 0, 20⟩

def demoFrame : ExecFrame where
  file_buf := 0x8E000
  file_size := 0x8DFF0
  buf_above := by decide
  buf_below := by decide
  size_above := by decide
  size_below := by decide
  apart := by decide

theorem kernelA_file (bytes : List Byte) (h : bytes.length ≤ 4096) :
    FirstNamed (kernelA bytes h).storage (view (kernelA bytes h).mem 0x300000) 0 := by
  have hslot : (kernelA bytes h).storage 0 = fileA bytes h := rfl
  have hname : (fileA bytes h).nameStr = [97] := rfl
  have hmem : IsCStr (view (fun a : U32 => if a = 0x300000 then 97 else 0) 0x300000) [97] :=
    .of_leading 31 (by decide) (by decide)
  refine ⟨⟨by rw [hslot]; rfl, ?_⟩, fun j hj => absurd hj (Nat.not_lt_zero _)⟩
  rw [hslot, hname]
  exact hmem

def oneByteProgram : List Byte :=
  fxeMagic ++ [0, 0, 0, 6, 32, 0, 0, 0, 1, 0, 0, 0, 33, 0, 0, 0, 0, 0, 0, 0, 0, 0, 0, 0, 0, 16, 0, 0, 0xC3]

theorem oneByteProgram_storable : oneByteProgram.length ≤ 4096 := by decide

theorem oneByteProgram_executable : Executable (kernelA oneByteProgram (by decide)).storage
    (kernelA oneByteProgram (by decide)).mem execA.ebx 0 where
  user := by decide
  file := kernelA_file oneByteProgram (by decide)
  size := by decide
  magic := by decide

end FrodOS
