import FrodOS.Kernel.Oversized
import FrodOS.Kernel.Ustar
import FrodOS.Lib.Bits

/-!
# The other lookup (ramfs.c)

A reader for the same archives with a module range of its own. It bounds the comparison of
names and refuses sizes of more than 32 bits, but it adds the size to the address before
it compares with the end of the range, and that sum can wrap.
-/

namespace FrodOS.Ramfs
open Lib

/-! ### The source -/

/-- At most `n` bytes are compared; nothing after them counts. -/
def ramfsStrncmp (s1 s2 : View) (n : ℕ) : ℤ :=
  let k := stop s1 s2 n 0
  if k = n then 0 else (s1 k).toNat - (s2 k).toNat

def maxThreshold : U32 := (-1 : U32) >>> 3

def octalFrom (str : View) : (left i : ℕ) → U32 → U32
  | 0, _, result => result
  | left + 1, i, result =>
    if str i = 0 ∨ str i = 32 then result
    else if str i < 48 ∨ 55 < str i then octalFrom str left (i + 1) result
    else if result > maxThreshold then 0
    else octalFrom str left (i + 1) ((result <<< 3) + ((str i).setWidth 32 - 48))

def octalToInt (str : View) (max_chars : ℕ) : U32 := octalFrom str max_chars 0 0

def ramfsInit (initrd_start initrd_end : U32) : U32 × U32 :=
  if initrd_start ≥ initrd_end then (0, 0) else (initrd_start, initrd_end)

def fileSize (m : Ram) (header : U32) : U32 := octalToInt (sizeField m header) 12

def ramfsPass (m : Ram) (ramfs_end : U32) (filename : View) (current_address : U32) :
    Option (Ctl U32 (Option (U32 × U32))) :=
  if current_address + 512 ≤ ramfs_end then
    if m current_address = 0 then some (.done none)
    else
      let file_size := fileSize m current_address
      if (typeflag m current_address = 48 ∨ typeflag m current_address = 0) ∧
          ramfsStrncmp (view m current_address) filename 100 = 0 then
        if current_address + 512 + file_size > ramfs_end then some (.done none)
        else some (.done (some (current_address + 512, file_size)))
      else
        let aligned_size := (file_size + 511) &&& ~~~511
        let next_address := current_address + 512 + aligned_size
        if next_address ≤ current_address ∨ next_address > ramfs_end then some (.done none)
        else some (.next next_address)
  else some (.done none)

/-- `ramfs_read` on the stored range, with at most `fuel` passes: the data address and the
size, or null. -/
def ramfsRead (fuel : ℕ) (m : Ram) (range : U32 × U32) (filename : Option View) :
    Option (Option (U32 × U32)) :=
  match filename with
  | none => some none
  | some filename =>
    if range.1 = 0 ∨ range.2 ≤ range.1 then some none
    else loop (ramfsPass m range.2 filename) fuel range.1

/-! ### Arithmetic -/

variable {m : Ram} {initrd_start initrd_end ramfs_end addr : U32} {filename : View}

/-- The mask rounds as the division of the other lookup does. -/
theorem masked_eq_aligned (size : U32) : (size + 511) &&& ~~~511 = aligned size := by
  apply BitVec.eq_of_toNat_eq
  have hle := Nat.div_mul_le_self (size + 511).toNat (2 ^ 9)
  rw [toNat_and_not_low (k := 9) (by decide), aligned, BitVec.toNat_mul, BitVec.toNat_udiv]
  exact (Nat.mod_eq_of_lt (hle.trans_lt (size + 511).isLt)).symm

theorem nextAddress_toNat {size : U32} (h : addr < addr + 512 + aligned size) :
    (addr + 512 + aligned size).toNat = addr.toNat + 512 + (aligned size).toNat := by
  have hal := aligned_lt size
  have hlt : addr.toNat < (addr + 512 + aligned size).toNat := h
  have hsum : (addr + 512 + aligned size).toNat = (addr.toNat + 512 + (aligned size).toNat) % 2 ^ 32 := by
    rw [BitVec.toNat_add, BitVec.toNat_add, Nat.mod_add_mod]
    rfl
  have haddr := addr.isLt
  omega

theorem maxThreshold_iff (r : U32) : r > maxThreshold ↔ 2 ^ 32 ≤ 8 * r.toNat := by
  rw [gt_iff_lt, BitVec.lt_def, show maxThreshold.toNat = 2 ^ 29 - 1 by decide]
  omega

/-- The threshold lets the numbers of 32 bits pass and no others. -/
theorem octalFrom_toNat (s : View) (left i : ℕ) (r : U32) :
    (octalFrom s left i r).toNat =
      if octalRest ((List.range' i left).map s) r.toNat < 2 ^ 32 then
        octalRest ((List.range' i left).map s) r.toNat
      else 0 := by
  induction left generalizing i r with
  | zero =>
    rw [List.range'_zero, List.map_nil, octalRest_nil, if_pos r.isLt]
    rfl
  | succ left ih =>
    rw [List.range'_succ, List.map_cons, octalFrom]
    by_cases hend : s i = 0 ∨ s i = 32
    · rw [if_pos hend, octalRest_end _ hend, if_pos r.isLt]
    · by_cases hother : s i < 48 ∨ 55 < s i
      · rw [if_neg hend, if_pos hother, octalRest_other _ hend hother, ih]
      · rw [if_neg hend, if_neg hother, octalRest_digit _ hend hother]
        by_cases hbig : r > maxThreshold
        · have hle := (maxThreshold_iff r).mp hbig
          have hrest := le_octalRest ((List.range' (i + 1) left).map s) (8 * r.toNat + ((s i).toNat - 48))
          rw [if_pos hbig, if_neg (by omega)]
          rfl
        · have hlt := (maxThreshold_iff r).not.mp hbig
          have hdigit : (s i).toNat ≤ 55 := BitVec.not_lt.mp fun hg => hother (Or.inr hg)
          rw [if_neg hbig, ih, octal_digit_toNat hother, Nat.mod_eq_of_lt (by omega)]

theorem fileSize_toNat (m : Ram) (header : U32) :
    (fileSize m header).toNat = if trueSize m header < 2 ^ 32 then trueSize m header else 0 := by
  rw [fileSize, octalToInt, octalFrom_toNat, trueSize, ← octalRest_zero]
  rfl

/-! ### A pass -/

def Matches (m : Ram) (filename : View) (addr : U32) : Prop :=
  (typeflag m addr = 48 ∨ typeflag m addr = 0) ∧ ramfsStrncmp (view m addr) filename 100 = 0

instance (m : Ram) (filename : View) (addr : U32) : Decidable (Matches m filename addr) :=
  inferInstanceAs (Decidable (_ ∧ _))

theorem ramfsPass_eq (m : Ram) (ramfs_end : U32) (filename : View) (addr : U32) :
    ramfsPass m ramfs_end filename addr =
      if addr + 512 ≤ ramfs_end then
        if m addr = 0 then some (.done none)
        else if Matches m filename addr then
          if addr + 512 + fileSize m addr > ramfs_end then some (.done none)
          else some (.done (some (addr + 512, fileSize m addr)))
        else if addr + 512 + aligned (fileSize m addr) ≤ addr ∨
            addr + 512 + aligned (fileSize m addr) > ramfs_end then some (.done none)
        else some (.next (addr + 512 + aligned (fileSize m addr)))
      else some (.done none) := by
  rw [← masked_eq_aligned]
  rfl

/-- The header is that of the file looked for, and the loop looks at it. -/
structure Here (m : Ram) (ramfs_end : U32) (filename : View) (addr : U32) : Prop where
  room : addr + 512 ≤ ramfs_end
  named : m addr ≠ 0
  file : Matches m filename addr

theorem ramfsPass_cases (m : Ram) (ramfs_end : U32) (filename : View) (addr : U32) :
    ramfsPass m ramfs_end filename addr = some (.done none) ∨
    (Here m ramfs_end filename addr ∧ addr + 512 + fileSize m addr ≤ ramfs_end ∧
      ramfsPass m ramfs_end filename addr = some (.done (some (addr + 512, fileSize m addr)))) ∨
    (∃ addr' : U32, addr.toNat + 512 ≤ addr'.toNat ∧ addr' ≤ ramfs_end ∧
      ramfsPass m ramfs_end filename addr = some (.next addr')) := by
  rw [ramfsPass_eq]
  by_cases hroom : addr + 512 ≤ ramfs_end
  · rw [if_pos hroom]
    split_ifs with h0 hfile hover hstop
    · exact Or.inl rfl
    · exact Or.inl rfl
    · exact Or.inr (Or.inl ⟨⟨hroom, h0, hfile⟩, BitVec.not_lt.mp hover, rfl⟩)
    · exact Or.inl rfl
    · obtain ⟨hlow, hhigh⟩ := not_or.mp hstop
      have hnat := nextAddress_toNat (BitVec.not_le.mp hlow)
      exact Or.inr (Or.inr ⟨_, by omega, BitVec.not_lt.mp hhigh, rfl⟩)
  · exact Or.inl (if_neg hroom)

theorem ramfsPass_next {addr' : U32} (h : ramfsPass m ramfs_end filename addr = some (.next addr')) :
    addr.toNat + 512 ≤ addr'.toNat ∧ addr'.toNat ≤ ramfs_end.toNat := by
  rcases ramfsPass_cases m ramfs_end filename addr with hp | ⟨_, _, hp⟩ | ⟨next, hstep, hle, hp⟩ <;>
    rw [hp] at h
  · cases h
  · cases h
  · obtain rfl := Ctl.next.inj (Option.some.inj h)
    exact ⟨hstep, hle⟩

theorem ramfsPass_found {data size : U32}
    (h : ramfsPass m ramfs_end filename addr = some (.done (some (data, size)))) :
    Here m ramfs_end filename addr ∧ addr + 512 + fileSize m addr ≤ ramfs_end ∧
      data = addr + 512 ∧ size = fileSize m addr := by
  rcases ramfsPass_cases m ramfs_end filename addr with hp | ⟨hhere, hin, hp⟩ | ⟨_, _, _, hp⟩ <;>
    rw [hp] at h
  · cases h
  · obtain ⟨rfl, rfl⟩ := Prod.mk.inj (Option.some.inj (Ctl.done.inj (Option.some.inj h)))
    exact ⟨hhere, hin, rfl, rfl⟩
  · cases h

theorem ramfsPass_isSome (m : Ram) (ramfs_end : U32) (filename : View) (addr : U32) :
    ∃ c, ramfsPass m ramfs_end filename addr = some c := by
  rcases ramfsPass_cases m ramfs_end filename addr with hp | ⟨_, _, hp⟩ | ⟨_, _, _, hp⟩ <;> exact ⟨_, hp⟩

theorem loop_ramfsPass (hle : addr.toNat ≤ ramfs_end.toNat) {fuel : ℕ}
    (hfuel : (ramfs_end.toNat - addr.toNat) / 512 < fuel) :
    ∃ r, loop (ramfsPass m ramfs_end filename) fuel addr = some r :=
  loop_of_advance _ BitVec.toNat (by omega) (fun a _ => ramfsPass_isSome m ramfs_end filename a)
    (fun _ _ _ hp => ramfsPass_next hp) hle hfuel

/-! ### The sum that wraps -/

/-- The walk for this name ends at this header, if not before. -/
structure Matched (m : Ram) (initrd_start initrd_end : U32) (filename : Option View) (addr : U32) : Prop where
  started : initrd_start ≠ 0
  here : ∃ name, filename = some name ∧ Reached (ramfsPass m initrd_end name) initrd_start addr ∧
    Here m initrd_end name addr

/-- The size is one of 32 bits, and the end of the data is not an address. -/
def Wraps (m : Ram) (addr : U32) : Prop :=
  trueSize m addr < 2 ^ 32 ∧ 2 ^ 32 ≤ addr.toNat + 512 + trueSize m addr

structure StaysInside (m : Ram) (initrd_start initrd_end : U32) (filename : Option View) : Prop where
  returns : ∀ fuel, (initrd_end.toNat - initrd_start.toNat) / 512 < fuel →
    ∃ r, ramfsRead fuel m (ramfsInit initrd_start initrd_end) filename = some r
  inside : ∀ fuel p size,
    ramfsRead fuel m (ramfsInit initrd_start initrd_end) filename = some (some (p, size)) →
    initrd_start.toNat + 512 ≤ p.toNat ∧ p.toNat + size.toNat ≤ initrd_end.toNat

theorem ramfsInit_of_lt (h : initrd_start < initrd_end) :
    ramfsInit initrd_start initrd_end = (initrd_start, initrd_end) :=
  if_neg (BitVec.not_le.mpr h)

theorem ramfsRead_some (haccept : initrd_start < initrd_end) (h0 : initrd_start ≠ 0) (fuel : ℕ) :
    ramfsRead fuel m (ramfsInit initrd_start initrd_end) (some filename) =
      loop (ramfsPass m initrd_end filename) fuel initrd_start := by
  rw [ramfsInit_of_lt haccept]
  exact if_neg (not_or.mpr ⟨h0, BitVec.not_le.mpr haccept⟩)

theorem reached_bounds (hle : initrd_start.toNat ≤ initrd_end.toNat)
    (h : Reached (ramfsPass m initrd_end filename) initrd_start addr) :
    initrd_start.toNat ≤ addr.toNat ∧ addr.toNat ≤ initrd_end.toNat := by
  induction h with
  | start => exact ⟨le_rfl, hle⟩
  | pass _ hb ih =>
    have hnext := ramfsPass_next hb
    exact ⟨by omega, hnext.2⟩

theorem dataEnd_toNat (m : Ram) (addr : U32) : (addr + 512 + fileSize m addr).toNat =
    (addr.toNat + 512 + (fileSize m addr).toNat) % 2 ^ 32 := by
  rw [BitVec.toNat_add, BitVec.toNat_add, Nat.mod_add_mod]
  rfl

theorem wraps_iff (h : addr.toNat + 512 < 2 ^ 32) :
    Wraps m addr ↔ 2 ^ 32 ≤ addr.toNat + 512 + (fileSize m addr).toNat := by
  rw [Wraps, fileSize_toNat]
  split_ifs <;> omega

theorem Here.room_toNat (h : Here m ramfs_end filename addr) (hend : ramfs_end < 0xFFFFFE00)
    (hle : addr.toNat ≤ ramfs_end.toNat) : addr.toNat + 512 ≤ ramfs_end.toNat := by
  have hlt : ramfs_end.toNat < 0xFFFFFE00 := hend
  exact (guard_iff (by omega)).mp h.room

theorem Here.pass_of_wraps (h : Here m ramfs_end filename addr) (hin : addr.toNat + 512 ≤ ramfs_end.toNat)
    (hw : Wraps m addr) :
    ramfsPass m ramfs_end filename addr = some (.done (some (addr + 512, fileSize m addr))) := by
  have hlt := ramfs_end.isLt
  have hsize := (fileSize m addr).isLt
  have hsum := (wraps_iff (by omega)).mp hw
  have hover : ¬ addr + 512 + fileSize m addr > ramfs_end := by
    rw [gt_iff_lt, BitVec.lt_def, dataEnd_toNat]
    omega
  rw [ramfsPass_eq, if_pos h.room, if_neg h.named, if_pos h.file, if_neg hover]

theorem inside_of_not_wraps (hend : ramfs_end < 0xFFFFFE00) {start : U32}
    (hle : start.toNat ≤ ramfs_end.toNat)
    (hno : ∀ a, Reached (ramfsPass m ramfs_end filename) start a → Here m ramfs_end filename a → ¬ Wraps m a)
    {p size : U32} (h : Returns (ramfsPass m ramfs_end filename) start (some (p, size))) :
    start.toNat + 512 ≤ p.toNat ∧ p.toNat + size.toNat ≤ ramfs_end.toNat := by
  obtain ⟨a, ha, hd⟩ := h.exit
  obtain ⟨hhere, hin, rfl, rfl⟩ := ramfsPass_found hd
  obtain ⟨hlow, hhigh⟩ := reached_bounds hle ha
  have hroom := hhere.room_toNat hend hhigh
  have hlt := ramfs_end.isLt
  have hsum := (wraps_iff (by omega)).not.mp (hno a ha hhere)
  have hdata : (a + 512).toNat = a.toNat + 512 := off_toNat a 512 (by omega)
  have hin' : (a + 512 + fileSize m a).toNat ≤ ramfs_end.toNat := hin
  rw [dataEnd_toNat, Nat.mod_eq_of_lt (by omega)] at hin'
  omega

/-- The reader stays inside its range exactly as long as it does not come to a file of the
name with data that wraps. -/
theorem ramfs_stays_inside_iff (m : Ram) (initrd_start initrd_end : U32) (haccept : initrd_start < initrd_end)
    (hend : initrd_end < 0xFFFFFE00) (filename : Option View) :
    StaysInside m initrd_start initrd_end filename ↔
      ∀ addr, Matched m initrd_start initrd_end filename addr → ¬ Wraps m addr := by
  have hle : initrd_start.toNat ≤ initrd_end.toNat := (BitVec.lt_def.mp haccept).le
  constructor
  · intro h addr hm hw
    obtain ⟨name, rfl, hreached, hhere⟩ := hm.here
    obtain ⟨_, hhigh⟩ := reached_bounds hle hreached
    have hroom := hhere.room_toNat hend hhigh
    have hlt := initrd_end.isLt
    obtain ⟨fuel, hr⟩ := hreached.returns (.of_done (hhere.pass_of_wraps hroom hw))
    rw [← ramfsRead_some haccept hm.started] at hr
    obtain ⟨_, hin⟩ := h.inside fuel _ _ hr
    have hsum := (wraps_iff (by omega)).mp hw
    have hdata : (addr + 512).toNat = addr.toNat + 512 := off_toNat addr 512 (by omega)
    omega
  · intro hno
    by_cases hnull : filename = none ∨ initrd_start = 0
    · have hr : ∀ fuel, ramfsRead fuel m (ramfsInit initrd_start initrd_end) filename = some none := by
        intro fuel
        rw [ramfsInit_of_lt haccept]
        rcases hnull with rfl | rfl
        · rfl
        · cases filename with
          | none => rfl
          | some name => simp only [ramfsRead, true_or, if_true]
      exact ⟨fun fuel _ => ⟨_, hr fuel⟩, fun fuel p size h => by rw [hr] at h; cases h⟩
    · obtain ⟨hsome, h0⟩ := not_or.mp hnull
      obtain ⟨name, rfl⟩ := Option.ne_none_iff_exists'.mp hsome
      constructor
      · intro fuel hfuel
        rw [ramfsRead_some haccept h0]
        exact loop_ramfsPass hle hfuel
      · intro fuel p size h
        rw [ramfsRead_some haccept h0] at h
        exact inside_of_not_wraps hend hle (fun a ha hh => hno a ⟨h0, name, rfl, ha, hh⟩) ⟨fuel, h⟩

/-- The file in "bin/" is found behind the directory. -/
theorem ramfs_stays_inside_file :
    StaysInside binArchive 0x400000 0x400A00 (some (cstr binA)) := by
  refine (ramfs_stays_inside_iff _ _ _ (by decide) (by decide) _).mpr fun addr hm hw => ?_
  obtain ⟨name, hname, hreached, _⟩ := hm.here
  obtain rfl := Option.some.inj hname
  have hsum := hw.2
  have hpass : ramfsPass binArchive 0x400A00 (cstr binA) 0x400000 = some (.next 0x400200) := rfl
  have hfound : ramfsPass binArchive 0x400A00 (cstr binA) 0x400200 = some (.done (some (0x400400, 1))) := rfl
  rcases hreached.of_next hpass with rfl | hrest
  · rw [binArchive_sizes.1] at hsum
    exact absurd hsum (by decide)
  · obtain rfl := hrest.eq_of_done hfound
    rw [binArchive_sizes.2.1] at hsum
    exact absurd hsum (by decide)

/-- "a" with size field "37777777000": 512 less than `2 ^ 32`. -/
def wrappingSize : Ram :=
  blocks [headerBytes [97] ([51] ++ List.replicate 7 55 ++ List.replicate 3 48) 48]

theorem ramfs_not_stays_inside :
    ¬ ∀ (m : Ram) (initrd_start initrd_end : U32) (filename : Option View), initrd_start < initrd_end →
      initrd_end < 0xFFFFFE00 → StaysInside m initrd_start initrd_end filename := by
  intro h
  have hsize : trueSize wrappingSize 0x400000 = 2 ^ 32 - 512 := by decide +kernel
  have hhere : Here wrappingSize 0x400400 (cstr [97]) 0x400000 := ⟨by decide, by decide, by decide⟩
  have hw : Wraps wrappingSize 0x400000 := by
    rw [Wraps, hsize]
    decide
  obtain ⟨fuel, hr⟩ := Returns.of_done (hhere.pass_of_wraps (by decide) hw)
  rw [← ramfsRead_some (by decide) (by decide)] at hr
  have hin := (h wrappingSize 0x400000 0x400400 (some (cstr [97])) (by decide) (by decide)).inside fuel _ _ hr
  have hsum := (wraps_iff (by decide)).mp hw
  have hdata : (0x400000 + 512 : U32).toNat = 0x400000 + 512 := by decide
  have hstart : (0x400000 : U32).toNat = 0x400000 := by decide
  have hend : (0x400400 : U32).toNat = 0x400400 := by decide
  omega

end FrodOS.Ramfs
