import FrodOS.Frodfs.Listing
import FrodOS.Kernel.Syscalls

/-!
# The calls on a list of files (kernel.c, frodfs.c)

What calls 10 to 13 and 20 answer and leave in memory, told from the list of files alone:
the slot array never shows through.
-/

namespace FrodOS
open Lib

structure DiskAnswer where
  code : ℤ
  mem : Ram
  disk : Disk

def bytesAt (m : Ram) (p size : U32) : List Byte := (List.range size.toNat).map (view m p)

/-- A file that was found goes to the buffer and its length behind the pointer. -/
def deliver (m : Ram) (buffer out_size : U32) : Option (List Byte) → Ram
  | some bytes => store32 (writeBytes m buffer (cstr bytes) bytes.length) out_size (BitVec.ofNat 32 bytes.length)
  | none => m

namespace Disk

def createCall (d : Disk) (k : Kernel) (val : U32) : DiskAnswer :=
  if userPtrOk val then
    let r := d.create (nameArg (view k.mem val))
    ⟨r.1, k.mem, r.2⟩
  else ⟨-1, k.mem, d⟩

def writeCall (d : Disk) (k : Kernel) (val : U32) : DiskAnswer :=
  let arg := param k val
  if userPtrOk val then
    if userPtrOk (arg 0) && userPtrOk (arg 1) then
      let r := d.write (nameArg (view k.mem (arg 0))) (bytesAt k.mem (arg 1) (arg 2))
      ⟨r.1, k.mem, r.2⟩
    else ⟨-1, k.mem, d⟩
  else ⟨11, k.mem, d⟩

def readCall (d : Disk) (k : Kernel) (val : U32) : DiskAnswer :=
  let arg := param k val
  if userPtrOk val then
    if userPtrOk (arg 0) && userPtrOk (arg 1) && userPtrOk (arg 3) then
      let r := d.read (nameArg (view k.mem (arg 0))) (arg 2).toNat
      ⟨r.1, deliver k.mem (arg 1) (arg 3) r.2, d⟩
    else ⟨-1, k.mem, d⟩
  else ⟨12, k.mem, d⟩

def listCall (d : Disk) (k : Kernel) (val : U32) : DiskAnswer :=
  let arg := param k val
  if userPtrOk val then
    if userPtrOk (arg 0) && arg 1 ≠ 0 then
      let text := d.list (arg 1).toNat
      ⟨0, writeBytes k.mem (arg 0) (cstr text) (text.length + 1), d⟩
    else ⟨-1, k.mem, d⟩
  else ⟨13, k.mem, d⟩

def call (d : Disk) (k : Kernel) (regs : SyscallRegs) : DiskAnswer :=
  match regs.eax with
  | 10 => d.createCall k regs.ebx
  | 11 => d.writeCall k regs.ebx
  | 12 => d.readCall k regs.ebx
  | _ => d.listCall k regs.ebx

/-- Why exec does not run the file of this name. -/
def refusal (d : Disk) (name : List Byte) : Option ℤ :=
  match lookup name d.files with
  | some bytes => if bytes.length < 32 then some (-2) else if bytes.take 4 ≠ fxeMagic then some (-4) else none
  | none => some (-2)

/-- The code with which exec refuses the name at `val`, if it does. -/
def execCode (d : Disk) (k : Kernel) (val : U32) : Option ℤ :=
  if userPtrOk val then d.refusal (nameArg (view k.mem val)) else some (-1)

end Disk

/-- The outcome is the answer, and touches nothing that the answer does not. -/
structure Agrees (k : Kernel) (regs : SyscallRegs) (o : Outcome) (a : DiskAnswer) : Prop where
  control : o.control = .iret { regs with eax := BitVec.ofInt 32 a.code }
  kernel : o.kernel = { k with mem := a.mem, storage := o.kernel.storage }
  mirrors : Mirrors o.kernel.storage a.disk
  mapped : o.mapped = []

variable {k : Kernel} {d : Disk} {regs : SyscallRegs}

theorem agrees_answer (h : Mirrors k.storage d) (code : ℤ) (touched : List U32) :
    Agrees k regs (answer k regs code touched) ⟨code, k.mem, d⟩ := ⟨rfl, rfl, h, rfl⟩

/-- A refused parameter block leaves the call number in `eax`. -/
theorem agrees_kept (h : Mirrors k.storage d) {code : ℤ} (hcode : regs.eax = BitVec.ofInt 32 code) :
    Agrees k regs ⟨k, .iret regs, [], [], []⟩ ⟨code, k.mem, d⟩ := by
  refine ⟨?_, rfl, h, rfl⟩
  rw [← hcode]

/-! ### One lemma for each call -/

theorem frodfsList_mem (h : Mirrors k.storage d) {out max_bytes : U32} (hout : out ≠ 0) (hmax : max_bytes ≠ 0) :
    (frodfsList k.storage k.mem out max_bytes).1 = 0 ∧
      (frodfsList k.storage k.mem out max_bytes).2.1 =
        writeBytes k.mem out (cstr (d.list max_bytes.toNat)) ((d.list max_bytes.toNat).length + 1) := by
  have hpos : 1 ≤ max_bytes.toNat := Nat.one_le_iff_ne_zero.mpr fun h0 => hmax (BitVec.eq_of_toNat_eq h0)
  obtain ⟨hcode, hcount, htext⟩ := frodfsList_text k.storage k.mem hout hpos
  have hlt : 0 + listSize (fitting max_bytes.toNat (usedNames k.storage slots) 0) < max_bytes.toNat :=
    fitting_lt _ hpos
  have hbound := max_bytes.isLt
  rw [h.usedNames_eq] at hcount htext hlt
  rw [← listing_length] at hcount hlt
  change IsCStr _ (d.list max_bytes.toNat) at htext
  change _ = (d.list max_bytes.toNat).length + 1 at hcount
  change 0 + (d.list max_bytes.toNat).length < _ at hlt
  refine ⟨hcode, funext fun a => ?_⟩
  by_cases ha : a ∈ span out (frodfsList k.storage k.mem out max_bytes).2.2
  · obtain ⟨i, hi, rfl⟩ := mem_span.mp ha
    rw [hcount] at hi
    rw [writeBytes_inside _ _ _ _ _ (by omega) hi]
    by_cases he : i = (d.list max_bytes.toNat).length
    · rw [he]
      exact htext.nul.trans (by simp [cstr])
    · have hlen : i < (d.list max_bytes.toNat).length := by omega
      exact (htext.bytes i hlen).trans (by simp [cstr, hlen])
  · rw [frodfsList_outside _ _ _ _ ha, writeBytes_outside]
    intro i hi he
    exact ha (mem_span.mpr ⟨i, by omega, he.symm⟩)

theorem sysFsCreate_agrees (h : Mirrors k.storage d) :
    Agrees k regs (sysFsCreate k regs) (d.createCall k regs.ebx) := by
  simp only [sysFsCreate, Disk.createCall]
  split_ifs with hv
  · obtain ⟨hcode, hstore⟩ := h.create (view k.mem regs.ebx)
    rw [view_of_userPtrOk k.mem hv]
    exact ⟨by rw [answer, hcode], rfl, hstore, rfl⟩
  · exact agrees_answer h (-1) []

theorem sysFsWrite_agrees (h : Mirrors k.storage d) (hcall : regs.eax = 11) :
    Agrees k regs (sysFsWrite k regs) (d.writeCall k regs.ebx) := by
  simp only [sysFsWrite, Disk.writeCall]
  split_ifs with hv hp
  · simp only [Bool.and_eq_true] at hp
    obtain ⟨hcode, hstore⟩ := h.write (view k.mem (param k regs.ebx 0)) (view k.mem (param k regs.ebx 1))
      (param k regs.ebx 2)
    rw [view_of_userPtrOk k.mem hp.1, view_of_userPtrOk k.mem hp.2]
    exact ⟨by rw [answer, hcode]; rfl, rfl, hstore, rfl⟩
  · exact agrees_answer h (-1) _
  · exact agrees_kept h hcall

theorem sysFsRead_agrees (h : Mirrors k.storage d) (hcall : regs.eax = 12) :
    Agrees k regs (sysFsRead k regs) (d.readCall k regs.ebx) := by
  simp only [sysFsRead, Disk.readCall]
  by_cases hv : userPtrOk regs.ebx = true
  · by_cases hp : (userPtrOk (param k regs.ebx 0) && userPtrOk (param k regs.ebx 1) &&
        userPtrOk (param k regs.ebx 3)) = true
    · have hptr := hp
      simp only [Bool.and_eq_true] at hptr
      obtain ⟨hcode, hmem⟩ := h.read (view k.mem (param k regs.ebx 0)) k.mem (param k regs.ebx 2)
        (ne_zero_of_userPtrOk hptr.1.2) (ne_zero_of_userPtrOk hptr.2)
      rw [view_of_userPtrOk k.mem hptr.1.1, if_pos hv, if_pos hp, if_pos hv, if_pos hp]
      refine ⟨by rw [answer, hcode], ?_, h, rfl⟩
      rw [answer, hmem]
      cases (d.read (nameArg (view k.mem (param k regs.ebx 0))) (param k regs.ebx 2).toNat).2 <;> rfl
    · rw [if_pos hv, if_neg hp, if_pos hv, if_neg hp]
      exact agrees_answer h (-1) _
  · rw [if_neg hv, if_neg hv]
    exact agrees_kept h hcall

theorem sysFsList_agrees (h : Mirrors k.storage d) (hcall : regs.eax = 13) :
    Agrees k regs (sysFsList k regs) (d.listCall k regs.ebx) := by
  simp only [sysFsList, Disk.listCall]
  by_cases hv : userPtrOk regs.ebx = true
  · by_cases hp : userPtrOk (param k regs.ebx 0) = true
    · by_cases hmax : param k regs.ebx 1 = 0
      · simp only [hv, hp, hmax, if_true, frodfsList_refused k.storage k.mem (Or.inr rfl), ne_eq, not_true_eq_false,
          decide_false, Bool.and_false, Bool.false_eq_true, if_false]
        exact agrees_answer h (-1) _
      · obtain ⟨hcode, hmem⟩ := frodfsList_mem h (ne_zero_of_userPtrOk hp) hmax
        simp only [hv, hp, hmax, if_true, ne_eq, not_false_eq_true, decide_true, Bool.and_self]
        exact ⟨by rw [answer, hcode], by rw [answer, hmem], h, rfl⟩
    · simp only [hv, hp, if_true, Bool.false_and, Bool.false_eq_true, if_false]
      exact agrees_answer h (-1) _
  · simp only [hv, Bool.false_eq_true, if_false]
    exact agrees_kept h hcall

/-- The calls behave as the list of files says, and change nothing else in the kernel. -/
theorem fsCall_agrees (h : Mirrors k.storage d) (hcall : regs.eax ∈ [10, 11, 12, 13]) :
    Agrees k regs (fsCall k regs) (d.call k regs) := by
  simp only [List.mem_cons, List.not_mem_nil, or_false] at hcall
  rcases hcall with he | he | he | he
  all_goals
    unfold fsCall Disk.call
    rw [he]
  · exact sysFsCreate_agrees h
  · exact sysFsWrite_agrees h he
  · exact sysFsRead_agrees h he
  · exact sysFsList_agrees h he

/-! ### Exec -/

theorem magic_eq (e : FrodfsEntry) (h : 32 ≤ e.size.toNat) : e.bytes.take 4 = (fxeHeader e.dataView).magic := by
  have hlen := e.bytes_length
  apply List.ext_getElem
  · simp [hlen, fxeHeader]
    omega
  · intro j hj _
    rw [List.length_take] at hj
    rw [List.getElem_take, e.bytes_getElem]
    obtain rfl | rfl | rfl | rfl : j = 0 ∨ j = 1 ∨ j = 2 ∨ j = 3 := by omega
    all_goals rfl

theorem execCode_found (h : Mirrors k.storage d) {val : U32} (hv : userPtrOk val = true) {i : Fin 32}
    (hi : FirstNamed k.storage (view k.mem val) i) : d.execCode k val =
      if (k.storage i).size.toNat < 32 then some (-2)
      else if (fxeHeader (k.storage i).dataView).magic ≠ fxeMagic then some (-4) else none := by
  have hfirst := h.firstNamed_iff.mp hi
  have hfile := h.file_iff.mpr ⟨hi.1.1, rfl⟩
  have hfound : lookup (nameArg (view k.mem val)) d.files = some (k.storage i).bytes := by
    rw [hfirst.lookup_eq, hfile]
    rfl
  simp only [Disk.execCode, Disk.refusal, hv, if_true, hfound, FrodfsEntry.bytes_length]
  by_cases hsize : (k.storage i).size.toNat < 32
  · simp only [hsize, if_true]
  · simp only [hsize, if_false, magic_eq _ (Nat.not_lt.mp hsize)]

theorem execCode_missing (h : Mirrors k.storage d) {val : U32} (hv : userPtrOk val = true)
    (hnone : (findName k.storage (view k.mem val) slots).1 = none) : d.execCode k val = some (-2) := by
  simp only [Disk.execCode, Disk.refusal, hv, if_true, lookup_eq_none_iff.mpr (h.find_none_iff.mp hnone)]

theorem execCode_none_iff (h : Mirrors k.storage d) (val : U32) :
    d.execCode k val = none ↔ ∃ i, Executable k.storage k.mem val i := by
  by_cases hv : userPtrOk val = true
  · cases hf : (findName k.storage (view k.mem val) slots).1 with
    | none =>
      rw [execCode_missing h hv hf]
      refine ⟨fun hc => (by cases hc), fun hex => ?_⟩
      obtain ⟨i, hi⟩ := hex
      rw [(findName_eq_some_iff i).mpr hi.file] at hf
      cases hf
    | some i =>
      have hi := (findName_eq_some_iff i).mp hf
      rw [execCode_found h hv hi]
      constructor
      · intro hc
        split_ifs at hc with hsize hmagic
        exact ⟨i, hv, hi, Nat.not_lt.mp hsize, not_not.mp hmagic⟩
      · intro hex
        obtain ⟨j, hj⟩ := hex
        obtain rfl := firstNamed_unique hj.file hi
        rw [if_neg (Nat.not_lt.mpr hj.size), if_neg (not_not.mpr hj.magic)]
  · simp only [Disk.execCode, hv, Bool.false_eq_true, if_false]
    refine ⟨fun hc => (by cases hc), fun hex => ?_⟩
    obtain ⟨i, hi⟩ := hex
    exact absurd hi.user hv

theorem ExecFrame.user_ne (frame : ExecFrame) {a : U32} (ha : userBase ≤ a) :
    (∀ j < 4096, a ≠ off frame.file_buf j) ∧ ∀ j < 4, a ≠ off frame.file_size j := by
  have hle : 0x200000 ≤ a.toNat := ha
  have hbuf := frame.buf_below
  have hsize := frame.size_below
  refine ⟨fun j hj he => ?_, fun j hj he => ?_⟩
  · rw [he, frame.buf_off hj] at hle
    omega
  · rw [he, frame.size_off hj] at hle
    omega

theorem execClear_user (frame : ExecFrame) (m : Ram) {a : U32} (ha : userBase ≤ a) :
    execClear frame m a = m a := by
  obtain ⟨hbuf, hsize⟩ := frame.user_ne ha
  rw [execClear, writeBytes_outside _ _ _ _ _ hbuf, store32, writeBytes_outside _ _ _ _ _ hsize]

theorem execLoaded_user (frame : ExecFrame) (k : Kernel) (i : Fin 32) {a : U32} (ha : userBase ≤ a) :
    execLoaded frame k i a = k.mem a := by
  obtain ⟨hbuf, hsize⟩ := frame.user_ne ha
  have hle := (k.storage i).size_le
  rw [execLoaded, store32, writeBytes_outside _ _ _ _ _ hsize,
    writeBytes_outside _ _ _ _ _ fun j hj => hbuf j (by omega), execClear_user frame k.mem ha]

/-- What a refused exec answers, prints, and leaves of the memory of programs. -/
structure ExecRefuses (k : Kernel) (regs : SyscallRegs) (code : ℤ) (o : Outcome) : Prop where
  control : o.control = .iret { regs with eax := BitVec.ofInt 32 code }
  console : o.kernel.console =
    k.console ++ if code = -4 then ["Exec Error: Invalid FXE binary execution signature.\n"] else []
  mem : ∀ a, userBase ≤ a → o.kernel.mem a = k.mem a

theorem sysExec_refuses (frame : ExecFrame) (h : Mirrors k.storage d) {code : ℤ}
    (hc : d.execCode k regs.ebx = some code) : ExecRefuses k regs code (sysExec frame k regs) := by
  by_cases hv : userPtrOk regs.ebx = true
  · have hptr := ptr_of_ne (execClear frame k.mem) (ne_zero_of_userPtrOk hv)
    cases hf : (findName k.storage (view k.mem regs.ebx) slots).1 with
    | none =>
      obtain rfl := Option.some.inj ((execCode_missing h hv hf).symm.trans hc)
      have hclear : (findName k.storage (view (execClear frame k.mem) regs.ebx) slots).1 = none := by
        cases he : (findName k.storage (view (execClear frame k.mem) regs.ebx) slots).1 with
        | none => rfl
        | some i =>
          rw [(findName_eq_some_iff i).mpr ((find_after_clear frame _ _ hv i).mp he)] at hf
          cases hf
      obtain ⟨hcode, hmem⟩ : (frodfsRead k.storage (execClear frame k.mem)
          (ptr (execClear frame k.mem) regs.ebx) frame.file_buf 4096 frame.file_size).1 < 0 ∧
          (frodfsRead k.storage (execClear frame k.mem) (ptr (execClear frame k.mem) regs.ebx)
            frame.file_buf 4096 frame.file_size).2.1 = execClear frame k.mem := by
        simp only [hptr, frodfsRead, frame.buf_ne, frame.size_ne, hclear, or_self, if_false]
        decide
      simp only [sysExec, hv, if_true, hcode, hmem, true_or]
      refine ⟨rfl, ?_, fun a ha => ?_⟩
      · rw [if_neg (by decide), List.append_nil]
      · dsimp only
        exact execClear_user frame k.mem ha
    | some i =>
      have hi := (findName_eq_some_iff i).mp hf
      obtain ⟨hcode, hmem⟩ := frodfsRead_exec frame k hv hi
      rw [execCode_found h hv hi] at hc
      by_cases hsize : (k.storage i).size.toNat < 32
      · have hlt : (k.storage i).size < 32 := hsize
        obtain rfl := Option.some.inj ((if_pos hsize).symm.trans hc)
        simp only [sysExec, hv, if_true, hcode, hmem, execLoaded_size, hlt, or_true]
        exact ⟨rfl, by rw [if_neg (by decide), List.append_nil], fun a ha => execLoaded_user frame k i ha⟩
      · rw [if_neg hsize] at hc
        have hge : ¬ (k.storage i).size < 32 := hsize
        have hheader : fxeHeader (view (execLoaded frame k i) frame.file_buf) =
            fxeHeader (k.storage i).dataView :=
          fxeHeader_congr _ _ fun j hj => execLoaded_bytes frame k i (by omega)
        split_ifs at hc with hmagic
        obtain rfl := Option.some.inj hc
        simp only [sysExec, hv, if_true, hcode, hmem, execLoaded_size, hge, or_false, lt_irrefl, if_false,
          hheader]
        rw [if_pos hmagic]
        exact ⟨rfl, by rw [if_pos rfl, kprint], fun a ha => execLoaded_user frame k i ha⟩
  · simp only [Disk.execCode, hv, Bool.false_eq_true, if_false, Option.some.injEq] at hc
    subst hc
    simp only [sysExec, hv, Bool.false_eq_true, if_false]
    exact ⟨rfl, by rw [if_neg (by decide), List.append_nil], fun _ _ => rfl⟩

/-- A program that exec accepts is entered, or there are no frames for it. -/
theorem sysExec_control {k : Kernel} {i : Fin 32} (h : Executable k.storage k.mem regs.ebx i) (frame : ExecFrame)
    (regs' : SyscallRegs) :
    (sysExec frame k regs).control ≠ .iret regs' := by
  intro he
  rcases sysExec_cases frame k regs h with ⟨-, msg, -, hc⟩ | ⟨⟨entry, hc⟩, -⟩
  · rw [hc] at he
    cases he
  · rw [hc] at he
    cases he

/-! ### One empty file -/

theorem noBytes : ([] : List Byte).length ≤ 4096 := Nat.zero_le _

/-- The file "a". -/
def diskA : Disk := ⟨[([97], [])], by decide, by decide, by decide⟩

theorem diskA_mirrors : Mirrors (Function.update bootStorage 0 (fileA [] noBytes)) diskA := by
  intro i
  by_cases hi : i = 0
  · subst hi
    rfl
  · have hlen : diskA.files[i.val]? = none :=
      List.getElem?_eq_none (Nat.one_le_iff_ne_zero.mpr fun h0 => hi (Fin.ext h0))
    rw [hlen, Function.update_of_ne hi]
    rfl

end FrodOS
