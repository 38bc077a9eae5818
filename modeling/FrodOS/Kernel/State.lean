import FrodOS.Frodfs.Storage
import FrodOS.Pmm.Bitmap

/-!
# The kernel (kernel.c, paging.c)

The C objects of the kernel that its routines name (the FrodFS table, the page
bitmap, the page directory and its tables) are fields of their own; `mem` is the
rest of memory, in which pointers from user mode, the boot module and the kernel
stack live. Paging is never switched on, so the addresses in `mem` are physical.
-/

namespace FrodOS
open Lib

structure Kernel where
  mem : Ram
  storage : Storage
  bitmap : Bitmap
  directory : Fin 1024 → U32
  /-- The page tables, each under its physical address. -/
  tables : U32 → Fin 1024 → U32
  ramfs_start : U32
  ramfs_end : U32
  console : List String

structure SyscallRegs where
  (edi esi ebp esp ebx edx ecx eax : U32)

inductive Control where
  | iret (regs : SyscallRegs)
  /-- `jump_to_user_mode(entry_point)` with the stack pointer it loads. -/
  | userMode (entry_point esp : U32)
  | panic (msg : String)
  /-- Calls 1 to 8 and unknown numbers, served by the device drivers. -/
  | driver

/-- A handled system call, with the addresses that a file-system call touched through
pointers from user mode, and the pages that exec handed to `map_page` and the
addresses its `kernel_memmove` wrote. -/
structure Outcome where
  kernel : Kernel
  control : Control
  touched : List U32
  mapped : List (U32 × U32)
  copied : List U32

/-! ### Constants -/

def userBase : U32 := 0x200000

/-- `USER_STACK` of user_jump.s -/
def userStack : U32 := 0x300000

def pagePresent : U32 := 0x1
def pageWrite : U32 := 0x2
def pageUser : U32 := 0x4

/-! ### Helpers -/

def kprint (k : Kernel) (text : String) : Kernel := { k with console := k.console ++ [text] }

def userPtrOk (addr : U32) : Bool := userBase ≤ addr

/-- `while (n--) *--d = *--s;` from `d + n` and `s + n`. -/
def copyDown (m : Ram) (d s : U32) : ℕ → Ram
  | 0 => m
  | n + 1 => copyDown (Function.update m (off d n) (m (off s n))) d s n

def copyUp (d s : U32) : (n i : ℕ) → Ram → Ram
  | 0, _, m => m
  | n + 1, i, m => copyUp d s n (i + 1) (Function.update m (off d i) (m (off s i)))

/-- `kernel_memmove`: memory, and the addresses written. -/
def kernelMemmove (m : Ram) (dest src n : U32) : Ram × List U32 :=
  if dest = src ∨ n = 0 then (m, [])
  else if dest < src then (copyUp dest src n.toNat 0 m, span dest n.toNat)
  else (copyDown m dest src n.toNat, span dest n.toNat)

/-- `virtual_addr >> 22` -/
def dirIndex (v : U32) : Fin 1024 := ⟨v.toNat / 2 ^ 22, by omega⟩

/-- `(virtual_addr >> 12) & 0x3FF` -/
def tableIndex (v : U32) : Fin 1024 := ⟨v.toNat / 2 ^ 12 % 1024, Nat.mod_lt _ (by omega)⟩

/-- `map_page`: nothing but a message where the directory has no table. -/
def mapPage (k : Kernel) (virtual_addr physical_addr flags : U32) : Kernel :=
  let entry := k.directory (dirIndex virtual_addr)
  if entry &&& pagePresent = 0 then
    kprint k "Paging Error: Dynamic table mapping requested but allocation unhandled.\n"
  else
    let table := entry &&& ~~~0xFFF
    let word := (physical_addr &&& ~~~0xFFF) ||| flags
    let entries := Function.update (k.tables table) (tableIndex virtual_addr) word
    { k with tables := Function.update k.tables table entries }

@[simp] theorem mapPage_bitmap (k : Kernel) (v p f : U32) : (mapPage k v p f).bitmap = k.bitmap := by
  simp only [mapPage]
  split_ifs <;> rfl

theorem copyUp_outside (d s : U32) (n i : ℕ) (m : Ram) {a : U32} (h : ∀ j < n, a ≠ off d (i + j)) :
    copyUp d s n i m a = m a := by
  induction n generalizing i m with
  | zero => rfl
  | succ n ih =>
    rw [copyUp, ih (i + 1) _ fun j hj => by
      rw [show i + 1 + j = i + (j + 1) by omega]
      exact h (j + 1) (by omega)]
    exact Function.update_of_ne (h 0 (by omega)) _ _

theorem copyDown_outside (m : Ram) (d s : U32) (n : ℕ) {a : U32} (h : ∀ j < n, a ≠ off d j) :
    copyDown m d s n a = m a := by
  induction n generalizing m with
  | zero => rfl
  | succ n ih =>
    rw [copyDown, ih _ fun j hj => h j (by omega)]
    exact Function.update_of_ne (h n (by omega)) _ _

theorem kernelMemmove_outside (m : Ram) (dest src n : U32) {a : U32}
    (h : a ∉ (kernelMemmove m dest src n).2) : (kernelMemmove m dest src n).1 a = m a := by
  have hne : a ∉ span dest n.toNat → ∀ j < n.toNat, a ≠ off dest j :=
    fun hout j hj he => hout (mem_span.mpr ⟨j, hj, he.symm⟩)
  unfold kernelMemmove at h ⊢
  split_ifs at h ⊢
  · rfl
  · exact copyUp_outside _ _ _ 0 _ fun j hj => by
      rw [Nat.zero_add]
      exact hne h j hj
  · exact copyDown_outside _ _ _ _ (hne h)

theorem kernelMemmove_copied (m : Ram) (dest src n : U32) :
    (kernelMemmove m dest src n).2 = if dest = src ∨ n = 0 then [] else span dest n.toNat := by
  unfold kernelMemmove
  split_ifs <;> rfl

/-! ### What the move leaves behind -/

theorem copyUp_inside {d s : U32} (hds : d < s) (n i : ℕ) (m : Ram) (hfit : s.toNat + (i + n) ≤ 2 ^ 32)
    {j : ℕ} (hj : j < n) : copyUp d s n i m (off d (i + j)) = m (off s (i + j)) := by
  have hlt : d.toNat < s.toNat := hds
  induction n generalizing i j m with
  | zero => omega
  | succ n ih =>
    rw [copyUp]
    cases j with
    | zero =>
      have hne : ∀ l < n, off d (i + 0) ≠ off d (i + 1 + l) := fun l hl he => by
        have := off_inj d _ _ (by omega) (by omega) he
        omega
      rw [copyUp_outside _ _ _ _ _ hne, Nat.add_zero, Function.update_self]
    | succ j =>
      have hstep := ih (i + 1) (Function.update m (off d i) (m (off s i))) (by omega)
        (show j < n by omega)
      rw [show i + 1 + j = i + (j + 1) by omega] at hstep
      -- the byte just written lies below the ones still to be read
      have hbelow : off s (i + (j + 1)) ≠ off d i := fun he => by
        have hn := congrArg BitVec.toNat he
        rw [off_toNat _ _ (by omega), off_toNat _ _ (by omega)] at hn
        omega
      rw [hstep, Function.update_of_ne hbelow]

theorem copyDown_inside {d s : U32} (hsd : s ≤ d) (n : ℕ) (m : Ram) (hfit : d.toNat + n ≤ 2 ^ 32)
    {j : ℕ} (hj : j < n) : copyDown m d s n (off d j) = m (off s j) := by
  have hle : s.toNat ≤ d.toNat := hsd
  induction n generalizing m with
  | zero => omega
  | succ n ih =>
    rw [copyDown]
    by_cases he : j = n
    · subst he
      rw [copyDown_outside _ _ _ _ fun l hl h => by
        have := off_inj d _ _ (by omega) (by omega) h
        omega]
      exact Function.update_self ..
    · have habove : off s j ≠ off d n := fun h => by
        have hn := congrArg BitVec.toNat h
        rw [off_toNat _ _ (by omega), off_toNat _ _ (by omega)] at hn
        omega
      rw [ih _ (by omega) (by omega), Function.update_of_ne habove]

/-- However the two ranges overlap, the destination ends up with what the source held. -/
theorem kernelMemmove_inside (m : Ram) {dest src n : U32} (hd : Fits dest n.toNat)
    (hs : Fits src n.toNat) {j : ℕ} (hj : j < n.toNat) :
    (kernelMemmove m dest src n).1 (off dest j) = m (off src j) := by
  unfold kernelMemmove
  split_ifs with hsame hlt
  · rcases hsame with rfl | rfl
    · rfl
    · exact absurd hj (Nat.not_lt_zero j)
  · have hup := copyUp_inside hlt n.toNat 0 m (by unfold Fits at hs; omega) hj
    rwa [Nat.zero_add] at hup
  · exact copyDown_inside (BitVec.not_lt.mp hlt) n.toNat m hd hj

/-- An overlap-safe move: the destination gets what the source held before the call, and
no other byte changes. -/
theorem kernelMemmove_moves (m : Ram) (dest src n : U32) (hd : Fits dest n.toNat) (hs : Fits src n.toNat) :
    (∀ j < n.toNat, (kernelMemmove m dest src n).1 (off dest j) = m (off src j)) ∧
      ∀ a : U32, a.toNat < dest.toNat ∨ dest.toNat + n.toNat ≤ a.toNat →
        (kernelMemmove m dest src n).1 a = m a := by
  refine ⟨fun j hj => kernelMemmove_inside m hd hs hj, fun a ha => ?_⟩
  apply kernelMemmove_outside
  intro hmem
  rw [kernelMemmove_copied] at hmem
  split_ifs at hmem
  · exact absurd hmem List.not_mem_nil
  · have hin := (mem_span_iff hd).mp hmem
    omega

/-- Onto itself a byte further on, up to the top of the address space. -/
theorem kernelMemmove_moves_top :
    let m : Ram := fun a => a.setWidth 8
    (∀ j < 3, (kernelMemmove m 0xFFFFFFFD 0xFFFFFFFC 3).1 (off 0xFFFFFFFD j) = m (off 0xFFFFFFFC j)) ∧
      (kernelMemmove m 0xFFFFFFFD 0xFFFFFFFC 3).1 0xFFFFFFFC = m 0xFFFFFFFC := by
  have hmoves := kernelMemmove_moves (fun a => a.setWidth 8) 0xFFFFFFFD 0xFFFFFFFC 3 (by decide) (by decide)
  exact ⟨hmoves.1, hmoves.2 0xFFFFFFFC (Or.inl (by decide))⟩

theorem userPtrOk_iff (addr : U32) : userPtrOk addr = true ↔ userBase ≤ addr := decide_eq_true_iff

theorem ne_zero_of_userPtrOk {addr : U32} (h : userPtrOk addr = true) : addr ≠ 0 := by
  rintro rfl
  exact absurd h (by decide)

end FrodOS
