import FrodOS.Frodfs.Extent
import FrodOS.Kernel.State

/-!
# The file-system calls (syscalls 10 to 13)

`user_ptr_ok` looks at the first address of a region only. The regions start in
user memory then, but one that runs past the top of memory goes on at address
zero, in the kernel's part. The calls keep out of it exactly when no region they
touch runs past the top.
-/

namespace FrodOS
open Lib

def param (k : Kernel) (val : U32) (i : ℕ) : U32 := load32 k.mem (off val (4 * i))

def answer (k : Kernel) (regs : SyscallRegs) (code : ℤ) (touched : List U32) : Outcome :=
  ⟨k, .iret { regs with eax := BitVec.ofInt 32 code }, touched, [], []⟩

def sysFsCreate (k : Kernel) (regs : SyscallRegs) : Outcome :=
  let val := regs.ebx
  if userPtrOk val then
    let r := frodfsCreate k.storage (ptr k.mem val)
    answer { k with storage := r.2.1 } regs r.1 (span val r.2.2)
  else answer k regs (-1) []

def sysFsWrite (k : Kernel) (regs : SyscallRegs) : Outcome :=
  let val := regs.ebx
  if userPtrOk val then
    let fname := param k val 0
    let src_buf := param k val 1
    let fsize := param k val 2
    if userPtrOk fname && userPtrOk src_buf then
      let r := frodfsWrite k.storage (ptr k.mem fname) (ptr k.mem src_buf) fsize
      answer { k with storage := r.2.1 } regs r.1
        (span val 12 ++ span fname r.2.2.1 ++ span src_buf r.2.2.2)
    else answer k regs (-1) (span val 12)
  -- this branch has no else: eax keeps the call number
  else ⟨k, .iret regs, [], [], []⟩

def sysFsRead (k : Kernel) (regs : SyscallRegs) : Outcome :=
  let val := regs.ebx
  if userPtrOk val then
    let fname := param k val 0
    let dest_buf := param k val 1
    let max_len := param k val 2
    let actual_out := param k val 3
    if userPtrOk fname && userPtrOk dest_buf && userPtrOk actual_out then
      let r := frodfsRead k.storage k.mem (ptr k.mem fname) dest_buf max_len actual_out
      answer { k with mem := r.2.1 } regs r.1
        (span val 16 ++ span fname r.2.2.1 ++ span dest_buf r.2.2.2 ++
          if r.1 = 0 then span actual_out 4 else [])
    else answer k regs (-1) (span val 16)
  else ⟨k, .iret regs, [], [], []⟩

def sysFsList (k : Kernel) (regs : SyscallRegs) : Outcome :=
  let val := regs.ebx
  if userPtrOk val then
    let target_str := param k val 0
    let max_buf_bytes := param k val 1
    if userPtrOk target_str then
      let r := frodfsList k.storage k.mem target_str max_buf_bytes
      answer { k with mem := r.2.1 } regs r.1 (span val 8 ++ span target_str r.2.2)
    else answer k regs (-1) (span val 8)
  else ⟨k, .iret regs, [], [], []⟩

def fsCall (k : Kernel) (regs : SyscallRegs) : Outcome :=
  match regs.eax with
  | 10 => sysFsCreate k regs
  | 11 => sysFsWrite k regs
  | 12 => sysFsRead k regs
  | 13 => sysFsList k regs
  | _ => ⟨k, .driver, [], [], []⟩

/-! ### Regions -/

/-- Everything the call touched through pointers from user mode is user memory. -/
def Outcome.Isolated (o : Outcome) : Prop := ∀ a ∈ o.touched, userBase ≤ a

theorem span_isolated_iff {p : U32} (hp : userPtrOk p = true) (n : ℕ) :
    (∀ a ∈ span p n, userBase ≤ a) ↔ Fits p n :=
  span_above_iff userBase p n (by decide) ((userPtrOk_iff p).mp hp)

theorem view_of_userPtrOk (m : Ram) {p : U32} (hp : userPtrOk p = true) :
    ptr m p = some (view m p) := ptr_of_ne m (ne_zero_of_userPtrOk hp)

/-- No region of the call runs past the top of memory: here the file name, in the next
three the parameter block and the regions it names. -/
def FsCreateFits (k : Kernel) (val : U32) : Prop :=
  userPtrOk val = true → CreateFits k.storage (view k.mem val) val

def FsWriteFits (k : Kernel) (val : U32) : Prop :=
  userPtrOk val = true → Fits val 12 ∧
    (userPtrOk (param k val 0) = true → userPtrOk (param k val 1) = true →
      WriteFits k.storage (view k.mem (param k val 0)) (param k val 0) (param k val 1) (param k val 2))

def FsReadFits (k : Kernel) (val : U32) : Prop :=
  userPtrOk val = true → Fits val 16 ∧
    (userPtrOk (param k val 0) = true → userPtrOk (param k val 1) = true →
      userPtrOk (param k val 3) = true →
      ReadFits k.storage (view k.mem (param k val 0)) (param k val 0) (param k val 1) (param k val 2)
        (param k val 3))

def FsListFits (k : Kernel) (val : U32) : Prop :=
  userPtrOk val = true → Fits val 8 ∧
    (userPtrOk (param k val 0) = true → param k val 1 ≠ 0 →
      ListFits (usedNames k.storage slots) (param k val 0) (param k val 1).toNat 0)

theorem sysFsCreate_isolated_iff (k : Kernel) (regs : SyscallRegs) :
    (sysFsCreate k regs).Isolated ↔ FsCreateFits k regs.ebx := by
  unfold FsCreateFits
  by_cases hv : userPtrOk regs.ebx = true
  · simp only [sysFsCreate, hv, if_true, answer, Outcome.Isolated, span_isolated_iff hv,
      view_of_userPtrOk _ hv, frodfsCreate_fits_iff, forall_const]
  · simp [sysFsCreate, hv, answer, Outcome.Isolated]

theorem sysFsWrite_isolated_iff (k : Kernel) (regs : SyscallRegs) :
    (sysFsWrite k regs).Isolated ↔ FsWriteFits k regs.ebx := by
  unfold FsWriteFits
  by_cases hv : userPtrOk regs.ebx = true
  · by_cases hn : userPtrOk (param k regs.ebx 0) = true
    · by_cases hb : userPtrOk (param k regs.ebx 1) = true
      · simp only [sysFsWrite, hv, hn, hb, Bool.and_self, if_true, answer, Outcome.Isolated,
          List.forall_mem_append, span_isolated_iff hv, span_isolated_iff hn, span_isolated_iff hb,
          view_of_userPtrOk _ hn, view_of_userPtrOk _ hb, and_assoc, frodfsWrite_fits_iff, forall_const]
      · simp [sysFsWrite, hv, hn, hb, answer, Outcome.Isolated, span_isolated_iff hv]
    · simp [sysFsWrite, hv, hn, answer, Outcome.Isolated, span_isolated_iff hv]
  · simp [sysFsWrite, hv, Outcome.Isolated]

theorem sysFsRead_isolated_iff (k : Kernel) (regs : SyscallRegs) :
    (sysFsRead k regs).Isolated ↔ FsReadFits k regs.ebx := by
  unfold FsReadFits
  by_cases hv : userPtrOk regs.ebx = true
  · by_cases hn : userPtrOk (param k regs.ebx 0) = true
    · by_cases hb : userPtrOk (param k regs.ebx 1) = true
      · by_cases ho : userPtrOk (param k regs.ebx 3) = true
        · have hout : ∀ c : ℤ, (∀ a ∈ (if c = 0 then span (param k regs.ebx 3) 4 else []),
              userBase ≤ a) ↔ (c = 0 → Fits (param k regs.ebx 3) 4) := by
            intro c
            split_ifs with hc <;> simp [hc, span_isolated_iff ho]
          simp only [sysFsRead, hv, hn, hb, ho, Bool.and_self, if_true, answer, Outcome.Isolated,
            List.forall_mem_append, span_isolated_iff hv, span_isolated_iff hn, span_isolated_iff hb,
            hout, view_of_userPtrOk _ hn, and_assoc, forall_const,
            frodfsRead_fits_iff _ _ _ _ _ (ne_zero_of_userPtrOk hb) (ne_zero_of_userPtrOk ho)]
        · simp [sysFsRead, hv, hn, hb, ho, answer, Outcome.Isolated, span_isolated_iff hv]
      · simp [sysFsRead, hv, hn, hb, answer, Outcome.Isolated, span_isolated_iff hv]
    · simp [sysFsRead, hv, hn, answer, Outcome.Isolated, span_isolated_iff hv]
  · simp [sysFsRead, hv, Outcome.Isolated]

theorem sysFsList_isolated_iff (k : Kernel) (regs : SyscallRegs) :
    (sysFsList k regs).Isolated ↔ FsListFits k regs.ebx := by
  unfold FsListFits
  by_cases hv : userPtrOk regs.ebx = true
  · by_cases ht : userPtrOk (param k regs.ebx 0) = true
    · simp only [sysFsList, hv, ht, if_true, answer, Outcome.Isolated, List.forall_mem_append,
        span_isolated_iff hv, span_isolated_iff ht, forall_const,
        frodfsList_fits_iff _ _ _ (ne_zero_of_userPtrOk ht)]
    · simp [sysFsList, hv, ht, answer, Outcome.Isolated, span_isolated_iff hv]
  · simp [sysFsList, hv, Outcome.Isolated]

/-- A file-system call keeps to user memory exactly when none of its regions runs
past the top of memory. -/
theorem fsCall_isolated_iff (k : Kernel) (regs : SyscallRegs) :
    (fsCall k regs).Isolated ↔
      (regs.eax = 10 → FsCreateFits k regs.ebx) ∧ (regs.eax = 11 → FsWriteFits k regs.ebx) ∧
        (regs.eax = 12 → FsReadFits k regs.ebx) ∧ (regs.eax = 13 → FsListFits k regs.ebx) := by
  unfold fsCall
  split
  next h => simp [h, sysFsCreate_isolated_iff]
  next h => simp [h, sysFsWrite_isolated_iff]
  next h => simp [h, sysFsRead_isolated_iff]
  next h => simp [h, sysFsList_isolated_iff]
  next h10 h11 h12 h13 =>
    simp only [Outcome.Isolated, List.not_mem_nil, false_imp_iff, implies_true, true_iff]
    exact ⟨fun h => absurd h h10, fun h => absurd h h11, fun h => absurd h h12, fun h => absurd h h13⟩

/-! ### Memory outside the regions -/

theorem sysFsRead_outside (k : Kernel) (regs : SyscallRegs) {a : U32}
    (h : a ∉ (sysFsRead k regs).touched) : (sysFsRead k regs).kernel.mem a = k.mem a := by
  by_cases hv : userPtrOk regs.ebx = true
  · by_cases hp : (userPtrOk (param k regs.ebx 0) && userPtrOk (param k regs.ebx 1) &&
        userPtrOk (param k regs.ebx 3)) = true
    · simp only [sysFsRead, hv, hp, if_true, answer, List.mem_append, not_or] at h ⊢
      refine frodfsRead_outside _ _ _ _ _ _ h.1.2 fun hz => ?_
      rw [if_pos hz] at h
      exact h.2
    · simp [sysFsRead, hv, hp, answer]
  · simp [sysFsRead, hv]

theorem sysFsList_outside (k : Kernel) (regs : SyscallRegs) {a : U32}
    (h : a ∉ (sysFsList k regs).touched) : (sysFsList k regs).kernel.mem a = k.mem a := by
  by_cases hv : userPtrOk regs.ebx = true
  · by_cases ht : userPtrOk (param k regs.ebx 0) = true
    · simp only [sysFsList, hv, ht, if_true, answer, List.mem_append, not_or] at h ⊢
      exact frodfsList_outside _ _ _ _ h.2
    · simp [sysFsList, hv, ht, answer]
  · simp [sysFsList, hv]

theorem fsCall_outside (k : Kernel) (regs : SyscallRegs) {a : U32} (h : a ∉ (fsCall k regs).touched) :
    (fsCall k regs).kernel.mem a = k.mem a := by
  unfold fsCall at h ⊢
  split at h
  · simp only [sysFsCreate]
    split_ifs <;> rfl
  · simp only [sysFsWrite]
    split_ifs <;> rfl
  · exact sysFsRead_outside k regs h
  · exact sysFsList_outside k regs h
  · rfl

def letterKernel : Kernel where
  mem := fun _ => 97
  storage := bootStorage
  bitmap := fun _ => 0xFFFFFFFF
  directory := fun _ => 0
  tables := fun _ _ => 0
  ramfs_start := 0
  ramfs_end := 0
  console := []

/-- A name whose first byte is the last of memory is read on from address zero. -/
theorem fsCall_not_isolated_at_top :
    ¬ ∀ (k : Kernel) (regs : SyscallRegs), regs.eax ∈ [10, 11, 12, 13] → (fsCall k regs).Isolated := by
  intro h
  have hc := h letterKernel ⟨0, 0, 0, 0, 0xFFFFFFFF, 0, 0, 10⟩ (by decide)
  exact absurd (hc 0 (by decide)) (by decide)

end FrodOS
