import FrodOS.Kernel.State
import FrodOS.Lib.Bits
import FrodOS.Lib.Update

/-!
# The page tables (paging.c)

`init_paging` covers the first 12 MB with three tables. From then on every page there has
one word of them, and `map_page` writes words and nothing else. Where the linker puts
`low_kernel_tables` is a parameter.
-/

namespace FrodOS
open Lib

/-! ### init_paging -/

/-- `&low_kernel_tables[t]` -/
def lowTable (low_kernel_tables : U32) (t : ℕ) : U32 := off low_kernel_tables (4096 * t)

/-- `table[i] = word` through the address of the table. -/
def setEntry (tables : U32 → Fin 1024 → U32) (table : U32) (i : Fin 1024) (word : U32) :
    U32 → Fin 1024 → U32 := Function.update tables table (Function.update (tables table) i word)

def physicalAddress (t : ℕ) (i : Fin 1024) : U32 := (BitVec.ofNat 32 t * 1024 + BitVec.ofNat 32 i) * 4096

def clearDirectory (directory : Fin 1024 → U32) : Fin 1024 → U32 :=
  Fin.foldl 1024 (fun d i => Function.update d i (0 ||| pageWrite)) directory

def clearTables (low_kernel_tables : U32) (tables : U32 → Fin 1024 → U32) : U32 → Fin 1024 → U32 :=
  Fin.foldl 3 (fun T t => Fin.foldl 1024 (fun T i => setEntry T (lowTable low_kernel_tables t) i 0) T) tables

/-- A pass of the last loop, on the directory and the tables. -/
def connectTable (low_kernel_tables : U32) (s : (Fin 1024 → U32) × (U32 → Fin 1024 → U32)) (t : Fin 3) :
    (Fin 1024 → U32) × (U32 → Fin 1024 → U32) :=
  (Function.update s.1 (t.castLE (by decide))
      (lowTable low_kernel_tables t ||| pagePresent ||| pageWrite ||| pageUser),
    Fin.foldl 1024 (fun T i =>
      setEntry T (lowTable low_kernel_tables t) i (physicalAddress t i ||| pagePresent ||| pageWrite)) s.2)

/-- `init_paging`, the loads of CR3 and CR0 apart. -/
def initPaging (k : Kernel) (low_kernel_tables : U32) : Kernel :=
  let s := Fin.foldl 3 (connectTable low_kernel_tables)
    (clearDirectory k.directory, clearTables low_kernel_tables k.tables)
  kprint { k with directory := s.1, tables := s.2 }
    "VMM Engine Activated: MMU Hardware 32-Bit Paging is now Online.\n"

/-! ### Words -/

theorem low12 : ∀ i < 32, (0xFFF : U32).getLsbD i = decide (i < 12) := by decide

theorem flags_high {flags : U32} (h : flags < 0x1000) {i : ℕ} (hi : 12 ≤ i) : flags.getLsbD i = false := by
  have hlt : flags.toNat < 2 ^ i :=
    lt_of_lt_of_le (BitVec.lt_def.mp h : flags.toNat < 2 ^ 12) (Nat.pow_le_pow_right Nat.two_pos hi)
  exact Nat.testBit_lt_two_pow hlt

theorem word_bit (p : U32) {flags : U32} (h : flags < 0x1000) {i : ℕ} (hi : i < 32) :
    (p &&& ~~~0xFFF ||| flags).getLsbD i = if i < 12 then flags.getLsbD i else p.getLsbD i := by
  simp only [BitVec.getLsbD_and, BitVec.getLsbD_or, BitVec.getLsbD_not, low12 i hi, hi, decide_true,
    Bool.true_and]
  split_ifs with hlow
  · simp [hlow]
  · simp [hlow, flags_high h (by omega : 12 ≤ i)]

theorem word_frame (p : U32) {flags : U32} (h : flags < 0x1000) :
    (p &&& ~~~0xFFF ||| flags) &&& ~~~0xFFF = p &&& ~~~0xFFF := by
  apply BitVec.eq_of_getLsbD_eq
  intro i hi
  rw [BitVec.getLsbD_and, BitVec.getLsbD_and, word_bit p h hi, BitVec.getLsbD_not, low12 i hi]
  split_ifs with hlow
  · simp [hlow]
  · rfl

theorem word_flags (p : U32) {flags : U32} (h : flags < 0x1000) :
    (p &&& ~~~0xFFF ||| flags) &&& 0xFFF = flags := by
  apply BitVec.eq_of_getLsbD_eq
  intro i hi
  rw [BitVec.getLsbD_and, word_bit p h hi, low12 i hi]
  split_ifs with hlow
  · simp [hlow]
  · simp [hlow, flags_high h (by omega : 12 ≤ i)]

theorem and_not_low12_of_aligned {p : U32} (h : p.toNat % 4096 = 0) : p &&& ~~~0xFFF = p := by
  apply BitVec.eq_of_toNat_eq
  rw [toNat_and_not_low low12]
  omega

/-! ### The walk -/

def pageOf (v : U32) : ℕ := v.toNat / 4096

/-- The word that the two-level walk from `v` ends at, if the directory has a table. -/
def walk (k : Kernel) (v : U32) : Option U32 :=
  let entry := k.directory (dirIndex v)
  if entry &&& pagePresent = 0 then none else some (k.tables (entry &&& ~~~0xFFF) (tableIndex v))

/-- The directory that `init_paging` leaves behind, over tables with the words `words` for
the pages from 0 on. -/
structure Covers (k : Kernel) (low_kernel_tables : U32) (words : ℕ → U32) : Prop where
  directory : ∀ d : Fin 1024, k.directory d = if d.val < 3 then
    lowTable low_kernel_tables d ||| pagePresent ||| pageWrite ||| pageUser else pageWrite
  tables : ∀ t < 3, ∀ i : Fin 1024, k.tables (lowTable low_kernel_tables t) i = words (1024 * t + i)

theorem setEntry_self (tables : U32 → Fin 1024 → U32) (table : U32) (i : Fin 1024) (word : U32) :
    setEntry tables table i word table = Function.update (tables table) i word := Function.update_self ..

theorem setEntry_of_ne (tables : U32 → Fin 1024 → U32) {table other : U32} (h : other ≠ table) (i : Fin 1024)
    (word : U32) : setEntry tables table i word other = tables other := Function.update_of_ne h ..

theorem fold_setEntry (tables : U32 → Fin 1024 → U32) (table : U32) (w : Fin 1024 → U32) :
    Fin.foldl 1024 (fun T i => setEntry T table i (w i)) tables = Function.update tables table w := by
  have hpasses := fin_foldl_invariant
    (fun m (T : U32 → Fin 1024 → U32) => (∀ j : Fin 1024, j < m → T table j = w j) ∧
      ∀ other ≠ table, T other = tables other)
    (f := fun T i => setEntry T table i (w i)) (s := tables)
    ⟨fun j hj => absurd hj (Nat.not_lt_zero j), fun _ _ => rfl⟩ fun i T hT => by
      refine ⟨fun j hj => ?_, fun other hne => ?_⟩
      · rw [setEntry_self]
        by_cases he : j = i
        · rw [he, Function.update_self]
        · have hv : j.val ≠ i.val := fun hv => he (Fin.ext hv)
          rw [Function.update_of_ne he]
          exact hT.1 j (by omega)
      · rw [setEntry_of_ne T hne]
        exact hT.2 other hne
  funext other
  by_cases he : other = table
  · rw [he, Function.update_self]
    funext j
    exact hpasses.1 j j.isLt
  · rw [Function.update_of_ne he]
    exact hpasses.2 other he

theorem lowTable_inj {low_kernel_tables : U32} {t u : ℕ} (ht : t < 3) (hu : u < 3)
    (h : lowTable low_kernel_tables t = lowTable low_kernel_tables u) : t = u := by
  have hoff := off_inj _ _ _ (by omega) (by omega) h
  omega

def identityWord (n : ℕ) : U32 := BitVec.ofNat 32 (4096 * n) ||| pagePresent ||| pageWrite

theorem physicalAddress_eq (t : ℕ) (i : Fin 1024) :
    physicalAddress t i = BitVec.ofNat 32 (4096 * (1024 * t + i)) := by
  have hcode : physicalAddress t i =
      (BitVec.ofNat 32 t * BitVec.ofNat 32 1024 + BitVec.ofNat 32 i) * BitVec.ofNat 32 4096 := rfl
  rw [hcode, ← BitVec.ofNat_mul, ← BitVec.ofNat_add, ← BitVec.ofNat_mul, Nat.mul_comm t, Nat.mul_comm]

theorem connectTable_directory (low_kernel_tables : U32) (s : (Fin 1024 → U32) × (U32 → Fin 1024 → U32))
    (t : Fin 3) (d : Fin 1024) : (connectTable low_kernel_tables s t).1 d = if d.val = t.val then
      lowTable low_kernel_tables d ||| pagePresent ||| pageWrite ||| pageUser else s.1 d := by
  dsimp only [connectTable]
  by_cases he : d = t.castLE (by decide)
  · have hv : d.val = t.val := congrArg Fin.val he
    rw [he, Function.update_self, if_pos (by rw [← he]; exact hv)]
    rfl
  · have hv : d.val ≠ t.val := fun hv => he (Fin.ext hv)
    rw [Function.update_of_ne he, if_neg hv]

theorem connectTable_tables (low_kernel_tables : U32) (s : (Fin 1024 → U32) × (U32 → Fin 1024 → U32))
    (t : Fin 3) : (connectTable low_kernel_tables s t).2 =
      Function.update s.2 (lowTable low_kernel_tables t) fun i => identityWord (1024 * t + i) := by
  dsimp only [connectTable]
  simp only [fold_setEntry, physicalAddress_eq, identityWord]

/-- After `m` passes of the last loop. -/
structure Connected (low_kernel_tables : U32) (m : ℕ) (s : (Fin 1024 → U32) × (U32 → Fin 1024 → U32)) :
    Prop where
  directory : ∀ d : Fin 1024, s.1 d = if d.val < m then
    lowTable low_kernel_tables d ||| pagePresent ||| pageWrite ||| pageUser else pageWrite
  tables : ∀ t < m, ∀ i : Fin 1024, s.2 (lowTable low_kernel_tables t) i = identityWord (1024 * t + i)

variable {low_kernel_tables : U32}

theorem Connected.pass {s : (Fin 1024 → U32) × (U32 → Fin 1024 → U32)} (t : Fin 3)
    (h : Connected low_kernel_tables t s) :
    Connected low_kernel_tables (t + 1) (connectTable low_kernel_tables s t) where
  directory d := by
    rw [connectTable_directory, h.directory]
    split_ifs <;> first | rfl | omega
  tables u hu i := by
    rw [connectTable_tables]
    by_cases he : u = t.val
    · rw [he, Function.update_self]
    · have hne : lowTable low_kernel_tables u ≠ lowTable low_kernel_tables t := fun heq =>
        he (lowTable_inj (by omega) t.isLt heq)
      rw [Function.update_of_ne hne]
      exact h.tables u (by omega) i

theorem initPaging_covers (k : Kernel) (low_kernel_tables : U32) :
    Covers (initPaging k low_kernel_tables) low_kernel_tables identityWord := by
  have hclear : clearDirectory k.directory = fun _ => 0 ||| pageWrite :=
    fin_foldl_update (fun _ => 0 ||| pageWrite) k.directory
  have hstart : Connected low_kernel_tables 0
      (clearDirectory k.directory, clearTables low_kernel_tables k.tables) :=
    ⟨fun d => by rw [hclear]; rfl, fun t ht => absurd ht (Nat.not_lt_zero t)⟩
  have hdone := fin_foldl_invariant (Connected low_kernel_tables) hstart fun t _ h => h.pass t
  refine ⟨?_, ?_⟩
  · simp only [initPaging, kprint]
    exact hdone.directory
  · simp only [initPaging, kprint]
    exact hdone.tables

/-! ### map_page -/

section

variable {k : Kernel} {words : ℕ → U32}

theorem lowEntry_present (t : ℕ) :
    (lowTable low_kernel_tables t ||| pagePresent ||| pageWrite ||| pageUser) &&& pagePresent ≠ 0 := by
  intro h
  have hbit := congrArg (fun x : U32 => x.getLsbD 0) h
  have hp : pagePresent.getLsbD 0 = true := by decide
  simp only [BitVec.getLsbD_and, BitVec.getLsbD_or, hp, Bool.and_true, Bool.or_true, Bool.true_or] at hbit
  exact absurd hbit (by decide)

theorem lowEntry_table (halign : low_kernel_tables.toNat % 4096 = 0) {t : ℕ} :
    (lowTable low_kernel_tables t ||| pagePresent ||| pageWrite ||| pageUser) &&& ~~~0xFFF =
      lowTable low_kernel_tables t := by
  have hp : (lowTable low_kernel_tables t).toNat % 4096 = 0 := by
    rw [lowTable, off_toNat_mod]
    omega
  have hsplit : lowTable low_kernel_tables t ||| pagePresent ||| pageWrite ||| pageUser =
      lowTable low_kernel_tables t &&& ~~~0xFFF ||| (7 : U32) := by
    rw [and_not_low12_of_aligned hp, BitVec.or_assoc, BitVec.or_assoc]
    rfl
  rw [hsplit, word_frame _ (by decide), and_not_low12_of_aligned hp]

theorem dirIndex_lt {v : U32} : (dirIndex v).val < 3 ↔ pageOf v < 3072 := by
  change v.toNat / 2 ^ 22 < 3 ↔ v.toNat / 4096 < 3072
  omega

theorem pageOf_eq (v : U32) : pageOf v = 1024 * (dirIndex v).val + (tableIndex v).val := by
  change v.toNat / 4096 = 1024 * (v.toNat / 2 ^ 22) + v.toNat / 2 ^ 12 % 1024
  omega

theorem Covers.walk_low (h : Covers k low_kernel_tables words)
    (halign : low_kernel_tables.toNat % 4096 = 0) {v : U32} (hv : pageOf v < 3072) :
    walk k v = some (words (pageOf v)) := by
  have hd := dirIndex_lt.mpr hv
  rw [walk, h.directory, if_pos hd, if_neg (lowEntry_present _), lowEntry_table halign, h.tables _ hd,
    ← pageOf_eq]

theorem Covers.walk_high (h : Covers k low_kernel_tables words) {v : U32} (hv : 3072 ≤ pageOf v) :
    walk k v = none := by
  have hd : ¬(dirIndex v).val < 3 := fun hd => absurd (dirIndex_lt.mp hd) (Nat.not_lt.mpr hv)
  rw [walk, h.directory, if_neg hd]
  rfl

theorem Covers.mapPage_high (h : Covers k low_kernel_tables words) {v : U32} (hv : 3072 ≤ pageOf v)
    (p f : U32) : (mapPage k v p f).directory = k.directory ∧ (mapPage k v p f).tables = k.tables := by
  have hd : ¬(dirIndex v).val < 3 := fun hd => absurd (dirIndex_lt.mp hd) (Nat.not_lt.mpr hv)
  have hentry : k.directory (dirIndex v) &&& pagePresent = 0 := by
    rw [h.directory, if_neg hd]
    rfl
  rw [mapPage, if_pos hentry]
  exact ⟨rfl, rfl⟩

/-- `map_page` writes the word of its page, and no other. -/
theorem Covers.mapPage (h : Covers k low_kernel_tables words) (halign : low_kernel_tables.toNat % 4096 = 0)
    (v p f : U32) : Covers (mapPage k v p f) low_kernel_tables
      (Function.update words (pageOf v) (p &&& ~~~0xFFF ||| f)) := by
  by_cases hv : pageOf v < 3072
  · have hd := dirIndex_lt.mpr hv
    have hentry := h.directory (dirIndex v)
    rw [if_pos hd] at hentry
    rw [FrodOS.mapPage, hentry, if_neg (lowEntry_present _), lowEntry_table halign]
    refine ⟨h.directory, fun t ht i => ?_⟩
    dsimp only
    by_cases ht' : t = (dirIndex v).val
    · subst ht'
      rw [Function.update_self]
      by_cases hi : i = tableIndex v
      · rw [hi, Function.update_self, ← pageOf_eq, Function.update_self]
      · have hne : 1024 * (dirIndex v).val + i.val ≠ pageOf v := fun he => hi (Fin.ext (by
          rw [pageOf_eq] at he
          omega))
        rw [Function.update_of_ne hi, Function.update_of_ne hne, h.tables _ ht]
    · have htable : lowTable low_kernel_tables t ≠ lowTable low_kernel_tables (dirIndex v) := fun he =>
        ht' (lowTable_inj ht hd he)
      have hne : 1024 * t + i.val ≠ pageOf v := fun he => ht' (by
        rw [pageOf_eq] at he
        omega)
      rw [Function.update_of_ne htable, Function.update_of_ne hne, h.tables t ht]
  · have hsame := h.mapPage_high (Nat.le_of_not_lt hv) p f
    refine ⟨fun d => by rw [hsame.1, h.directory], fun t ht i => ?_⟩
    have hne : 1024 * t + i.val ≠ pageOf v := by omega
    rw [hsame.2, Function.update_of_ne hne, h.tables t ht]

end

/-! ### Sequences of calls -/

structure MapCall where
  (virtual_addr physical_addr flags : U32)

namespace MapCall

def run (k : Kernel) (calls : List MapCall) : Kernel :=
  calls.foldl (fun k c => mapPage k c.virtual_addr c.physical_addr c.flags) k

def word (c : MapCall) : U32 := c.physical_addr &&& ~~~0xFFF ||| c.flags

/-- The frame and the flags that the last call for the page of `v` gave it, or those it
had from the start. -/
def lastMapping (calls : List MapCall) (v : U32) : U32 × U32 :=
  ((calls.reverse.find? fun c => pageOf c.virtual_addr = pageOf v).map fun c =>
    (c.physical_addr &&& ~~~0xFFF, c.flags)).getD (v &&& ~~~0xFFF, pagePresent ||| pageWrite)

variable {k : Kernel} {low_kernel_tables : U32} {words : ℕ → U32}

theorem run_covers (halign : low_kernel_tables.toNat % 4096 = 0) (calls : List MapCall)
    (h : Covers k low_kernel_tables words) : Covers (run k calls) low_kernel_tables
      (calls.foldl (fun g c => Function.update g (pageOf c.virtual_addr) c.word) words) := by
  induction calls generalizing k words with
  | nil => exact h
  | cons c calls ih => exact ih (h.mapPage halign c.virtual_addr c.physical_addr c.flags)

theorem identityWord_eq (v : U32) :
    identityWord (pageOf v) = v &&& ~~~0xFFF ||| (pagePresent ||| pageWrite) := by
  have hframe : BitVec.ofNat 32 (4096 * pageOf v) = v &&& ~~~0xFFF := by
    apply BitVec.eq_of_toNat_eq
    rw [toNat_and_not_low low12, BitVec.toNat_ofNat, pageOf]
    omega
  rw [identityWord, hframe, BitVec.or_assoc]

theorem last_word (calls : List MapCall) (hflags : ∀ c ∈ calls, c.flags < 0x1000) (v : U32) :
    let w := calls.foldl (fun g c => Function.update g (pageOf c.virtual_addr) c.word) identityWord (pageOf v)
    (w &&& ~~~0xFFF, w &&& 0xFFF) = lastMapping calls v := by
  intro w
  have hw : w = _ := foldl_update_eq (fun c => pageOf c.virtual_addr) word calls identityWord (pageOf v)
  rw [hw, lastMapping]
  cases hfind : calls.reverse.find? fun c => pageOf c.virtual_addr = pageOf v with
  | some c =>
    have hc := hflags c (List.mem_reverse.mp (List.mem_of_find?_eq_some hfind))
    exact Prod.ext (word_frame _ hc) (word_flags _ hc)
  | none =>
    dsimp only [Option.map_none, Option.getD_none]
    rw [identityWord_eq]
    exact Prod.ext (word_frame _ (by decide)) (word_flags _ (by decide))

/-- Page-table updates are exact: from the tables of `init_paging`, after any calls of
`map_page`. -/
theorem mapPage_exact (k : Kernel) (low_kernel_tables : U32) (halign : low_kernel_tables.toNat % 4096 = 0)
    (calls : List MapCall) (hflags : ∀ c ∈ calls, c.flags < 0x1000) :
    let k₀ := initPaging k low_kernel_tables
    let k' := run k₀ calls
    (∀ v : U32, v < 0xC00000 → ∃ w, walk k' v = some w ∧
        (w &&& ~~~0xFFF, w &&& 0xFFF) = lastMapping calls v) ∧
      k'.directory = k₀.directory ∧ (∀ v : U32, 0xC00000 ≤ v → walk k' v = none) ∧
      ∀ v p f : U32, 0xC00000 ≤ v →
        (mapPage k' v p f).directory = k'.directory ∧ (mapPage k' v p f).tables = k'.tables := by
  intro k₀ k'
  have hstart : Covers k₀ low_kernel_tables identityWord := initPaging_covers k low_kernel_tables
  have hend := run_covers halign calls hstart
  have hlow (v : U32) (hv : v < 0xC00000) : pageOf v < 3072 := by
    have hn : v.toNat < 0xC00000 := hv
    rw [pageOf]
    omega
  have hhigh (v : U32) (hv : 0xC00000 ≤ v) : 3072 ≤ pageOf v := by
    have hn : 0xC00000 ≤ v.toNat := hv
    rw [pageOf]
    omega
  refine ⟨fun v hv => ⟨_, hend.walk_low halign (hlow v hv), last_word calls hflags v⟩, ?_,
    fun v hv => hend.walk_high (hhigh v hv), fun v p f hv => hend.mapPage_high (hhigh v hv) p f⟩
  funext d
  rw [hend.directory, hstart.directory]

/-- A page mapped twice, with a call past the covered region in between. -/
theorem mapPage_exact_twice :
    let k : Kernel := ⟨fun _ => 0, fun _ => ⟨fun _ => 0, 0, fun _ => 0, false, ⟨0, rfl⟩, by decide⟩, fun _ => 0,
      fun _ => 0, fun _ _ => 0, 0, 0, []⟩
    ∃ w, walk (run (initPaging k 0x110000)
        [⟨0x400123, 0x12345678, 7⟩, ⟨0xC00000, 0, 3⟩, ⟨0x400000, 0xABC000, 1⟩]) 0x400FFF = some w ∧
      (w &&& ~~~0xFFF, w &&& 0xFFF) = (0xABC000, 1) :=
  (mapPage_exact _ 0x110000 (by decide)
    [⟨0x400123, 0x12345678, 7⟩, ⟨0xC00000, 0, 3⟩, ⟨0x400000, 0xABC000, 1⟩] (by decide)).1 0x400FFF (by decide)

end MapCall

end FrodOS
