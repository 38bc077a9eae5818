import FrodOS.Kernel.Archive
import FrodOS.Kernel.SizeField

/-!
# The lookup on any module

`ramfs_read` trusts nothing in a header before it has compared it with the end of the
module. Below the last 512 bytes of memory none of its sums wraps, so whatever the module
holds the walk stays inside it and ends.
-/

namespace FrodOS
open Lib

/-! ### One pass without wrapping -/

def stripDot : List Byte → List Byte
  | 46 :: 47 :: rest => rest
  | name => name

def Wanted (m : Ram) (filename : List Byte) (addr : U32) : Prop :=
  (typeflag m addr = 48 ∨ typeflag m addr = 0) ∧ ramfsStrcmp (view m (skipDot m addr)) filename = 0

instance (m : Ram) (filename : List Byte) (addr : U32) : Decidable (Wanted m filename addr) :=
  inferInstanceAs (Decidable (_ ∧ _))

theorem ramfsRead_eq (fuel : ℕ) (m : Ram) (ramfs_start ramfs_end : U32) (query : List Byte) :
    ramfsRead fuel m ramfs_start ramfs_end query =
      if ramfs_start = 0 ∨ ramfs_start ≥ ramfs_end then some none
      else loop (ramfsPass m ramfs_end (stripDot query)) fuel ramfs_start := rfl

theorem ramfsPass_eq (m : Ram) (ramfs_end : U32) (filename : List Byte) (addr : U32) :
    ramfsPass m ramfs_end filename addr =
      if addr + 512 ≤ ramfs_end then
        if m addr = 0 then some (.done none)
        else if fileSize m addr > ramfs_end - (addr + 512) then some (.done none)
        else if Wanted m filename addr then some (.done (some (addr + 512, fileSize m addr)))
        else if 512 + aligned (fileSize m addr) > ramfs_end - addr then some (.done none)
        else some (.next (addr + (512 + aligned (fileSize m addr))))
      else some (.done none) := rfl

theorem ramfsRead_of_returns {m : Ram} {ramfs_start ramfs_end : U32} {query : List Byte}
    {r : Option (U32 × U32)} (h0 : ramfs_start ≠ 0) (hlt : ramfs_start < ramfs_end)
    (h : Returns (ramfsPass m ramfs_end (stripDot query)) ramfs_start r) :
    ∃ fuel, ramfsRead fuel m ramfs_start ramfs_end query = some r := by
  obtain ⟨fuel, hr⟩ := h
  exact ⟨fuel, by rw [ramfsRead_eq, if_neg (not_or.mpr ⟨h0, BitVec.not_le.mpr hlt⟩), hr]⟩

theorem ramfsRead_unique {m : Ram} {ramfs_start ramfs_end : U32} {query : List Byte} {fuel fuel' : ℕ}
    {r r' : Option (U32 × U32)} (h : ramfsRead fuel m ramfs_start ramfs_end query = some r)
    (h' : ramfsRead fuel' m ramfs_start ramfs_end query = some r') : r = r' := by
  rw [ramfsRead_eq] at h h'
  split_ifs at h h'
  · exact Option.some.inj (h.symm.trans h')
  · exact Returns.unique ⟨fuel, h⟩ ⟨fuel', h'⟩

theorem aligned_eq {size : U32} (h : size.toNat + 511 < 2 ^ 32) :
    aligned size = BitVec.ofNat 32 (padded size.toNat) := by
  rw [← aligned_ofNat h, BitVec.ofNat_toNat, BitVec.setWidth_eq]

theorem le_padded (n : ℕ) : n ≤ padded n ∧ padded n ≤ n + 511 := by
  unfold padded
  omega

variable {m : Ram} {ramfs_end addr : U32} {filename : List Byte}

theorem ramfsPass_past (haddr : addr.toNat < 0xFFFFFE00) (h : ramfs_end.toNat < addr.toNat + 512) :
    ramfsPass m ramfs_end filename addr = some (.done none) := by
  have hguard : ¬ addr + 512 ≤ ramfs_end := (guard_iff haddr).not.mpr (by omega)
  simp only [ramfsPass, hguard, if_false]

theorem ramfsPass_blank (h0 : m addr = 0) : ramfsPass m ramfs_end filename addr = some (.done none) := by
  simp only [ramfsPass, h0, if_true, ite_self]

theorem ramfsPass_header (haddr : addr.toNat + 512 ≤ ramfs_end.toNat) (h0 : m addr ≠ 0)
    (hpad : addr.toNat + 512 + (fileSize m addr).toNat ≤ ramfs_end.toNat →
      addr.toNat + 512 + padded (fileSize m addr).toNat < 2 ^ 32) :
    ramfsPass m ramfs_end filename addr = some (
      if ramfs_end.toNat < addr.toNat + 512 + (fileSize m addr).toNat then .done none
      else if Wanted m filename addr then .done (some (off addr 512, fileSize m addr))
      else if ramfs_end.toNat < addr.toNat + 512 + padded (fileSize m addr).toNat then .done none
      else .next (off addr (512 + padded (fileSize m addr).toNat))) := by
  have hlt := ramfs_end.isLt
  have hguard : addr + 512 ≤ ramfs_end := (guard_iff (by omega)).mpr haddr
  have hdata : (ramfs_end - (addr + 512)).toNat = ramfs_end.toNat - (addr.toNat + 512) := by
    rw [BitVec.toNat_sub_of_le hguard, show addr + 512 = off addr 512 from rfl, off_toNat _ _ (by omega)]
  have hover : fileSize m addr > ramfs_end - (addr + 512) ↔
      ramfs_end.toNat < addr.toNat + 512 + (fileSize m addr).toNat := by
    rw [gt_iff_lt, BitVec.lt_def, hdata]
    omega
  simp only [ramfsPass_eq, hguard, h0, hover, if_true, if_false]
  by_cases hfit : ramfs_end.toNat < addr.toNat + 512 + (fileSize m addr).toNat
  · simp only [hfit, if_true]
  · have hsum := hpad (by omega)
    have hstep : 512 + aligned (fileSize m addr) =
        BitVec.ofNat 32 (512 + padded (fileSize m addr).toNat) := by
      have hle := (le_padded (fileSize m addr).toNat).1
      rw [aligned_eq (by omega), BitVec.ofNat_add]
      rfl
    have hadvance : 512 + aligned (fileSize m addr) > ramfs_end - addr ↔
        ramfs_end.toNat < addr.toNat + 512 + padded (fileSize m addr).toNat := by
      have hle : addr ≤ ramfs_end := by
        rw [BitVec.le_def]
        omega
      rw [gt_iff_lt, BitVec.lt_def, BitVec.toNat_sub_of_le hle, hstep, BitVec.toNat_ofNat,
        Nat.mod_eq_of_lt (by omega)]
      omega
    simp only [hfit, if_false, hadvance]
    rw [hstep]
    split_ifs <;> rfl

/-! ### A pass over a known entry -/

theorem skipDot_eq_off (m : Ram) (addr : U32) :
    skipDot m addr = off addr (if m addr = 46 ∧ m (off addr 1) = 47 then 2 else 0) := by
  unfold skipDot
  split_ifs
  · rfl
  · rw [off_zero]

theorem stripDot_eq_self {name : List Byte} (h : ¬ [46, 47] <+: name) : stripDot name = name := by
  unfold stripDot
  split
  · exact absurd ⟨_, rfl⟩ h
  · rfl

theorem dotted_iff {name : List Byte} (h : IsCStr (view m addr) name) :
    (m addr = 46 ∧ m (off addr 1) = 47) ↔ [46, 47] <+: name := by
  have h0 : view m addr 0 = m addr := by rw [view, off_zero]
  have h1 : view m addr 1 = m (off addr 1) := rfl
  rw [← h0, ← h1]
  constructor
  · intro hd
    obtain ⟨ha, hb⟩ := hd
    rcases name with _ | ⟨a, _ | ⟨b, rest⟩⟩
    · rw [show view m addr 0 = 0 from h.nul] at ha
      cases ha
    · rw [show view m addr 1 = 0 from h.nul] at hb
      cases hb
    · have hx : view m addr 0 = a := h.bytes 0 (by simp)
      have hy : view m addr 1 = b := h.bytes 1 (by simp)
      exact ⟨rest, by rw [← hx, ← hy, ha, hb]; rfl⟩
  · intro hd
    obtain ⟨rest, rfl⟩ := hd
    exact ⟨h.bytes 0 (by simp), h.bytes 1 (by simp)⟩

theorem isCStr_skipDot {name : List Byte} (h : IsCStr (view m addr) name) :
    IsCStr (view m (skipDot m addr)) (stripDot name) := by
  by_cases hd : [46, 47] <+: name
  · rw [skipDot, if_pos ((dotted_iff h).mpr hd)]
    obtain ⟨rest, rfl⟩ := hd
    refine (h.drop (show 2 ≤ ([46, 47] ++ rest).length by simp)).congr fun i _ => ?_
    simp only [view, off_off]
  · rw [skipDot, if_neg ((dotted_iff h).not.mpr hd), stripDot_eq_self hd]
    exact h

theorem wanted_iff {name : List Byte} (h : IsCStr (view m addr) name) (hq : ∀ b ∈ filename, b ≠ 0) :
    Wanted m filename addr ↔ (typeflag m addr = 48 ∨ typeflag m addr = 0) ∧ stripDot name = filename := by
  have hname := isCStr_skipDot h
  rw [Wanted, ramfsStrcmp, strcmp_eq_zero_comm, strcmp_eq_zero_iff (isCStr_cstr filename hq) le_rfl]
  exact and_congr_right fun _ => ⟨fun hf => hname.unique hf, fun hf => hf ▸ hname⟩

theorem ramfsPass_entry {n : ℕ} (hin : addr.toNat + 512 + padded n ≤ ramfs_end.toNat) (h0 : m addr ≠ 0)
    (hsize : (fileSize m addr).toNat = n) :
    ramfsPass m ramfs_end filename addr =
      some (if Wanted m filename addr then .done (some (off addr 512, BitVec.ofNat 32 n))
        else .next (off addr (512 + padded n))) := by
  have hlt := ramfs_end.isLt
  have hle := (le_padded n).1
  have heq : fileSize m addr = BitVec.ofNat 32 n := by
    rw [← hsize, BitVec.ofNat_toNat, BitVec.setWidth_eq]
  rw [ramfsPass_header (by omega) h0 (by rw [hsize]; omega), hsize, heq,
    if_neg (show ¬ ramfs_end.toNat < addr.toNat + 512 + n by omega),
    if_neg (show ¬ ramfs_end.toNat < addr.toNat + 512 + padded n by omega)]

/-! ### What a walk looks at -/

/-- The indices that `octal_to_int` looks at. -/
def octalSeen (s : View) : (left i : ℕ) → List ℕ
  | 0, _ => []
  | left + 1, i => if s i = 0 ∨ s i = 32 then [i] else i :: octalSeen s left (i + 1)

/-- The bytes of the header that the comparison of the name reads, behind a "./". -/
def comparedBytes (m : Ram) (filename : List Byte) (addr : U32) : List ℕ :=
  let skipped := if m addr = 46 ∧ m (off addr 1) = 47 then 2 else 0
  (List.range (strcmp filename.length (view m (skipDot m addr)) (cstr filename)).2).map (skipped + ·)

/-- The bytes read once the size is accepted: the test for "./", the typeflag, the name. -/
def entryReads (m : Ram) (filename : List Byte) (addr : U32) : List ℕ :=
  (if m addr = 46 then [0, 1] else [0]) ++
    156 :: if typeflag m addr = 48 ∨ typeflag m addr = 0 then comparedBytes m filename addr else []

/-- The bytes of the header that a pass reads. -/
def headerReads (m : Ram) (ramfs_end : U32) (filename : List Byte) (addr : U32) : List ℕ :=
  if m addr = 0 then [0]
  else
    0 :: ((octalSeen (sizeField m addr) 12 0).map (124 + ·) ++
      if fileSize m addr > ramfs_end - (addr + 512) then [] else entryReads m filename addr)

def hasRoom (ramfs_end addr : U32) : Bool := addr + 512 ≤ ramfs_end

/-- The headers that the loop of `ramfs_read` examines from `addr` on. -/
def walkedHeaders (m : Ram) (ramfs_end : U32) (filename : List Byte) (fuel : ℕ) (addr : U32) : List U32 :=
  (visited (ramfsPass m ramfs_end filename) fuel addr).filter (hasRoom ramfs_end)

def ramfsHeaders (fuel : ℕ) (m : Ram) (ramfs_start ramfs_end : U32) (query : List Byte) : List U32 :=
  if ramfs_start = 0 ∨ ramfs_start ≥ ramfs_end then []
  else walkedHeaders m ramfs_end (stripDot query) fuel ramfs_start

/-- `ramfs_read` with its out parameter: the pointer and memory afterwards. -/
def ramfsReadOut (fuel : ℕ) (m : Ram) (ramfs_start ramfs_end : U32) (query : List Byte) (out_size : U32) :
    Option (U32 × Ram) :=
  match ramfsRead fuel m ramfs_start ramfs_end query with
  | none => none
  | some none => some (0, m)
  | some (some (data, size)) => some (data, if out_size = 0 then m else store32 m out_size size)

theorem octalFrom_local {f g : View} {left i : ℕ} (h : ∀ j ∈ octalSeen f left i, g j = f j) (r : U32) :
    octalFrom g left i r = octalFrom f left i r := by
  induction left generalizing i r with
  | zero => rfl
  | succ left ih =>
    rw [octalSeen] at h
    by_cases hend : f i = 0 ∨ f i = 32
    · rw [if_pos hend] at h
      rw [octalFrom, octalFrom, h i (List.mem_cons_self ..), if_pos hend, if_pos hend]
    · rw [if_neg hend, List.forall_mem_cons] at h
      simp only [octalFrom, h.1, ih h.2]

theorem wanted_local {m' : Ram}
    (h : ∀ i ∈ 0 :: entryReads m filename addr, m' (off addr i) = m (off addr i)) :
    Wanted m' filename addr ↔ Wanted m filename addr := by
  rw [entryReads, List.forall_mem_cons, List.forall_mem_append, List.forall_mem_cons, off_zero] at h
  obtain ⟨hfirst, hdot, hflag, hname⟩ := h
  have hskip : skipDot m' addr = skipDot m addr := by
    unfold skipDot
    rw [hfirst]
    by_cases hd : m addr = 46
    · rw [if_pos hd] at hdot
      rw [hdot 1 (by decide)]
    · simp only [hd, false_and, if_false]
  unfold Wanted
  rw [show typeflag m' addr = typeflag m addr from hflag, hskip]
  refine and_congr_right fun hreg => ?_
  rw [if_pos hreg] at hname
  rw [ramfsStrcmp, ramfsStrcmp, strcmp_congr fun j hj => ?_]
  have hread := hname _ (List.mem_map.mpr ⟨j, List.mem_range.mpr (Nat.lt_succ_of_le hj), rfl⟩)
  rwa [← off_off, ← skipDot_eq_off] at hread

/-- A pass reads nothing else: it does the same on every memory with these bytes. -/
theorem ramfsPass_local {m' : Ram}
    (h : ∀ i ∈ headerReads m ramfs_end filename addr, m' (off addr i) = m (off addr i)) :
    ramfsPass m' ramfs_end filename addr = ramfsPass m ramfs_end filename addr := by
  unfold headerReads at h
  by_cases h0 : m addr = 0
  · rw [if_pos h0, List.forall_mem_singleton, off_zero] at h
    rw [ramfsPass_blank h0, ramfsPass_blank (h.trans h0)]
  · rw [if_neg h0, List.forall_mem_cons, List.forall_mem_append, off_zero] at h
    obtain ⟨hfirst, hsize, hentry⟩ := h
    have hfile : fileSize m' addr = fileSize m addr := octalFrom_local (fun j hj => by
      have hread := hsize (124 + j) (List.mem_map.mpr ⟨j, hj, rfl⟩)
      rwa [← off_off] at hread) 0
    rw [ramfsPass_eq, ramfsPass_eq, hfirst, hfile, if_neg h0, if_neg h0]
    by_cases hover : fileSize m addr > ramfs_end - (addr + 512)
    · rw [if_pos hover, if_pos hover]
    · rw [if_neg hover] at hentry
      simp only [wanted_local (List.forall_mem_cons.mpr ⟨by rwa [off_zero], hentry⟩)]

theorem octalSeen_lt (s : View) (left i : ℕ) : ∀ j ∈ octalSeen s left i, j < i + left := by
  induction left generalizing i with
  | zero => simp [octalSeen]
  | succ left ih =>
    intro j hj
    rw [octalSeen] at hj
    split_ifs at hj
    · obtain rfl := List.mem_singleton.mp hj
      omega
    · rcases List.mem_cons.mp hj with rfl | hj
      · omega
      · have := ih (i + 1) j hj
        omega

theorem forall_mem_headerReads {p : ℕ → Prop} (hfirst : p 0) (hdot : m addr = 46 → p 1)
    (hsize : ∀ j < 12, p (124 + j)) (hflag : p 156)
    (hname : typeflag m addr = 48 ∨ typeflag m addr = 0 → ∀ i ∈ comparedBytes m filename addr, p i) :
    ∀ i ∈ headerReads m ramfs_end filename addr, p i := by
  have hdots : ∀ i ∈ if m addr = 46 then [0, 1] else [0], p i := by
    split_ifs with hd
    · exact List.forall_mem_cons.mpr ⟨hfirst, List.forall_mem_singleton.mpr (hdot hd)⟩
    · exact List.forall_mem_singleton.mpr hfirst
  have hentry : ∀ i ∈ entryReads m filename addr, p i := by
    refine List.forall_mem_append.mpr ⟨hdots, List.forall_mem_cons.mpr ⟨hflag, ?_⟩⟩
    split_ifs with hreg
    · exact hname hreg
    · exact List.forall_mem_nil _
  have hdigits : ∀ i ∈ (octalSeen (sizeField m addr) 12 0).map (124 + ·), p i := by
    intro i hi
    obtain ⟨j, hj, rfl⟩ := List.mem_map.mp hi
    have hlt := octalSeen_lt _ _ _ j hj
    exact hsize j (by omega)
  unfold headerReads
  split_ifs
  · exact List.forall_mem_singleton.mpr hfirst
  · exact List.forall_mem_cons.mpr ⟨hfirst, List.forall_mem_append.mpr ⟨hdigits, List.forall_mem_nil _⟩⟩
  · exact List.forall_mem_cons.mpr ⟨hfirst, List.forall_mem_append.mpr ⟨hdigits, hentry⟩⟩

theorem comparedBytes_lt (m : Ram) (addr : U32) {filename : List Byte} (hlen : filename.length < 500) :
    ∀ i ∈ comparedBytes m filename addr, i < 512 := by
  intro i hi
  obtain ⟨j, hj, rfl⟩ := List.mem_map.mp hi
  have hstop := (stop_spec (view m (skipDot m addr)) (cstr filename) filename.length 0).2.1
  rw [List.mem_range, strcmp] at hj
  split_ifs <;> omega

theorem headerReads_lt (m : Ram) (ramfs_end addr : U32) {filename : List Byte}
    (hlen : filename.length < 500) : ∀ i ∈ headerReads m ramfs_end filename addr, i < 512 :=
  forall_mem_headerReads (by decide) (fun _ => by decide) (fun j hj => by omega) (by decide)
    fun _ => comparedBytes_lt m addr hlen

theorem stripDot_length_le (query : List Byte) : (stripDot query).length ≤ query.length := by
  unfold stripDot
  split
  · simp only [List.length_cons]
    omega
  · exact le_rfl

/-! ### The walk stays inside -/

theorem padded_fits (hend : ramfs_end < 0xFFFFFE00) {n : ℕ} :
    addr.toNat + 512 + n ≤ ramfs_end.toNat → addr.toNat + 512 + padded n < 2 ^ 32 := by
  have hlt : ramfs_end.toNat < 0xFFFFFE00 := hend
  have hle := (le_padded n).2
  omega

theorem ramfsPass_cases (m : Ram) (filename : List Byte) (hend : ramfs_end < 0xFFFFFE00)
    (hle : addr.toNat ≤ ramfs_end.toNat) :
    ramfsPass m ramfs_end filename addr = some (.done none) ∨
    (addr.toNat + 512 + (fileSize m addr).toNat ≤ ramfs_end.toNat ∧
      ramfsPass m ramfs_end filename addr = some (.done (some (off addr 512, fileSize m addr)))) ∨
    (addr.toNat + (512 + padded (fileSize m addr).toNat) ≤ ramfs_end.toNat ∧
      ramfsPass m ramfs_end filename addr =
        some (.next (off addr (512 + padded (fileSize m addr).toNat)))) := by
  have hlt : ramfs_end.toNat < 0xFFFFFE00 := hend
  by_cases hroom : addr.toNat + 512 ≤ ramfs_end.toNat
  · by_cases h0 : m addr = 0
    · exact Or.inl (ramfsPass_blank h0)
    · rw [ramfsPass_header hroom h0 (padded_fits hend)]
      split_ifs with hover hwanted hstep
      · exact Or.inl rfl
      · exact Or.inr (Or.inl ⟨by omega, rfl⟩)
      · exact Or.inl rfl
      · exact Or.inr (Or.inr ⟨by omega, rfl⟩)
  · exact Or.inl (ramfsPass_past (by omega) (by omega))

theorem ramfsPass_isSome (m : Ram) (filename : List Byte) (hend : ramfs_end < 0xFFFFFE00)
    (hle : addr.toNat ≤ ramfs_end.toNat) :
    ∃ c, ramfsPass m ramfs_end filename addr = some c := by
  rcases ramfsPass_cases m filename hend hle with h | ⟨_, h⟩ | ⟨_, h⟩ <;> exact ⟨_, h⟩

theorem ramfsPass_next (hend : ramfs_end < 0xFFFFFE00) {addr' : U32} (hle : addr.toNat ≤ ramfs_end.toNat)
    (h : ramfsPass m ramfs_end filename addr = some (.next addr')) :
    addr.toNat + 512 ≤ addr'.toNat ∧ addr'.toNat ≤ ramfs_end.toNat := by
  have hlt := ramfs_end.isLt
  rcases ramfsPass_cases m filename hend hle with hp | ⟨_, hp⟩ | ⟨hin, hp⟩ <;> rw [hp] at h
  · cases h
  · cases h
  · obtain rfl := Ctl.next.inj (Option.some.inj h)
    rw [off_toNat _ _ (by omega)]
    omega

theorem ramfsPass_found (hend : ramfs_end < 0xFFFFFE00) {data size : U32}
    (hle : addr.toNat ≤ ramfs_end.toNat)
    (h : ramfsPass m ramfs_end filename addr = some (.done (some (data, size)))) :
    data.toNat = addr.toNat + 512 ∧ data.toNat + size.toNat ≤ ramfs_end.toNat := by
  have hlt := ramfs_end.isLt
  rcases ramfsPass_cases m filename hend hle with hp | ⟨hin, hp⟩ | ⟨_, hp⟩ <;> rw [hp] at h
  · cases h
  · obtain ⟨rfl, rfl⟩ := Prod.mk.inj (Option.some.inj (Ctl.done.inj (Option.some.inj h)))
    rw [off_toNat _ _ (by omega)]
    omega
  · cases h

theorem loop_ramfsPass (m : Ram) (filename : List Byte) (hend : ramfs_end < 0xFFFFFE00)
    (hle : addr.toNat ≤ ramfs_end.toNat) {fuel : ℕ} (hfuel : (ramfs_end.toNat - addr.toNat) / 512 < fuel) :
    ∃ r, loop (ramfsPass m ramfs_end filename) fuel addr = some r :=
  loop_of_advance _ BitVec.toNat (by omega) (fun _ ha => ramfsPass_isSome m filename hend ha)
    (fun _ _ ha hp => ramfsPass_next hend ha hp) hle hfuel

theorem found_inside (hend : ramfs_end < 0xFFFFFE00) (hle : addr.toNat ≤ ramfs_end.toNat) {data size : U32}
    (h : Returns (ramfsPass m ramfs_end filename) addr (some (data, size))) :
    addr.toNat + 512 ≤ data.toNat ∧ data.toNat + size.toNat ≤ ramfs_end.toNat := by
  obtain ⟨t, ht, hd⟩ := h.exit
  obtain ⟨hlow, hhigh⟩ := ht.invariant
    (fun a => addr.toNat ≤ a.toNat ∧ a.toNat ≤ ramfs_end.toNat) ⟨le_rfl, hle⟩ fun a a' ha hp => by
      obtain ⟨hstep, hle'⟩ := ramfsPass_next hend ha.2 hp
      exact ⟨by omega, hle'⟩
  obtain ⟨hdata, hin⟩ := ramfsPass_found hend hhigh hd
  exact ⟨by omega, hin⟩

theorem walkedHeaders_inside (m : Ram) (filename : List Byte) (hend : ramfs_end < 0xFFFFFE00) (fuel : ℕ)
    (hle : addr.toNat ≤ ramfs_end.toNat) :
    512 * (walkedHeaders m ramfs_end filename fuel addr).length ≤ ramfs_end.toNat - addr.toNat ∧
      ∀ h ∈ walkedHeaders m ramfs_end filename fuel addr,
        addr.toNat ≤ h.toNat ∧ h.toNat + 512 ≤ ramfs_end.toNat := by
  have hlt : ramfs_end.toNat < 0xFFFFFE00 := hend
  unfold walkedHeaders
  induction fuel generalizing addr with
  | zero => exact ⟨Nat.zero_le _, List.forall_mem_nil _⟩
  | succ fuel ih =>
    have hguard : hasRoom ramfs_end addr = true ↔ addr.toNat + 512 ≤ ramfs_end.toNat :=
      decide_eq_true_iff.trans (guard_iff (by omega))
    by_cases hroom : addr.toNat + 512 ≤ ramfs_end.toNat
    · have hlast : 512 * [addr].length ≤ ramfs_end.toNat - addr.toNat ∧
          ∀ h ∈ [addr], addr.toNat ≤ h.toNat ∧ h.toNat + 512 ≤ ramfs_end.toNat := by
        rw [List.length_singleton]
        exact ⟨by omega, List.forall_mem_singleton.mpr ⟨le_rfl, hroom⟩⟩
      rcases ramfsPass_cases m filename hend hle with hp | ⟨_, hp⟩ | ⟨hin, hp⟩
      · rw [visited_of_done hp, List.filter_cons_of_pos (hguard.mpr hroom)]
        exact hlast
      · rw [visited_of_done hp, List.filter_cons_of_pos (hguard.mpr hroom)]
        exact hlast
      · obtain ⟨hstep, hle'⟩ := ramfsPass_next hend hle hp
        rw [visited_of_next hp, List.filter_cons_of_pos (hguard.mpr hroom), List.length_cons]
        obtain ⟨hcount, hall⟩ := ih hle'
        refine ⟨by omega, List.forall_mem_cons.mpr ⟨⟨le_rfl, hroom⟩, fun h hh => ?_⟩⟩
        obtain ⟨hl, hr⟩ := hall h hh
        exact ⟨by omega, hr⟩
    · rw [visited_of_done (ramfsPass_past (by omega) (by omega)),
        List.filter_cons_of_neg (hguard.not.mpr hroom)]
      exact ⟨Nat.zero_le _, List.forall_mem_nil _⟩

structure Robust (fuel : ℕ) (m : Ram) (ramfs_start ramfs_end : U32) (query : List Byte) (out_size : U32) :
    Prop where
  returns : ∃ p m', ramfsReadOut fuel m ramfs_start ramfs_end query out_size = some (p, m')
  headers : (ramfsHeaders fuel m ramfs_start ramfs_end query).length ≤
    (ramfs_end.toNat - ramfs_start.toNat) / 512
  reads : ∀ h ∈ ramfsHeaders fuel m ramfs_start ramfs_end query,
    ∀ i ∈ headerReads m ramfs_end (stripDot query) h,
      ramfs_start.toNat ≤ h.toNat + i ∧ h.toNat + i < ramfs_end.toNat
  found : ∀ p m', ramfsReadOut fuel m ramfs_start ramfs_end query out_size = some (p, m') → p ≠ 0 →
    ∃ size, m' = (if out_size = 0 then m else store32 m out_size size) ∧
      ramfs_start.toNat + 512 ≤ p.toNat ∧ p.toNat + size.toNat ≤ ramfs_end.toNat
  null : ∀ m', ramfsReadOut fuel m ramfs_start ramfs_end query out_size = some (0, m') → m' = m

theorem ramfsReadOut_cases {fuel : ℕ} {ramfs_start : U32} {query : List Byte} {out_size p : U32} {m' : Ram}
    (h : ramfsReadOut fuel m ramfs_start ramfs_end query out_size = some (p, m')) :
    (p = 0 ∧ m' = m) ∨ ∃ size, ramfsRead fuel m ramfs_start ramfs_end query = some (some (p, size)) ∧
      m' = if out_size = 0 then m else store32 m out_size size := by
  unfold ramfsReadOut at h
  split at h
  · cases h
  · obtain ⟨rfl, rfl⟩ := Prod.mk.inj (Option.some.inj h)
    exact Or.inl ⟨rfl, rfl⟩
  next data size hr =>
    obtain ⟨rfl, rfl⟩ := Prod.mk.inj (Option.some.inj h)
    exact Or.inr ⟨size, hr, rfl⟩

theorem ramfsRead_inside (hend : ramfs_end < 0xFFFFFE00) {fuel : ℕ} {ramfs_start : U32} {query : List Byte}
    {p size : U32} (h : ramfsRead fuel m ramfs_start ramfs_end query = some (some (p, size))) :
    ramfs_start.toNat + 512 ≤ p.toNat ∧ p.toNat + size.toNat ≤ ramfs_end.toNat := by
  rw [ramfsRead_eq] at h
  split_ifs at h with hout
  · cases h
  · have hlt : ramfs_start.toNat < ramfs_end.toNat := BitVec.not_le.mp fun hge => hout (Or.inr hge)
    exact found_inside hend hlt.le ⟨fuel, h⟩

/-- The lookup reads inside the module, ends and returns what lies inside, whatever the
module holds. -/
theorem ramfsRead_robust (m : Ram) (ramfs_start ramfs_end : U32) (hle : ramfs_start ≤ ramfs_end)
    (hend : ramfs_end < 0xFFFFFE00) (query : List Byte) (hlen : query.length < 500) (out_size : U32)
    (fuel : ℕ) (hfuel : (ramfs_end.toNat - ramfs_start.toNat) / 512 < fuel) :
    Robust fuel m ramfs_start ramfs_end query out_size where
  returns := by
    have hread : ∃ r, ramfsRead fuel m ramfs_start ramfs_end query = some r := by
      rw [ramfsRead_eq]
      split_ifs
      · exact ⟨_, rfl⟩
      · exact loop_ramfsPass _ _ hend hle hfuel
    obtain ⟨r, hr⟩ := hread
    rcases r with _ | ⟨data, size⟩ <;> simp only [ramfsReadOut, hr] <;> exact ⟨_, _, rfl⟩
  headers := by
    rw [ramfsHeaders]
    split_ifs
    · exact Nat.zero_le _
    · have := (walkedHeaders_inside m (stripDot query) hend fuel hle).1
      omega
  reads h hh i hi := by
    rw [ramfsHeaders] at hh
    split_ifs at hh
    · cases hh
    · have hb := headerReads_lt m ramfs_end h ((stripDot_length_le query).trans_lt hlen) i hi
      obtain ⟨hlow, hhigh⟩ := (walkedHeaders_inside m _ hend fuel hle).2 h hh
      omega
  found p m' h hp := by
    rcases ramfsReadOut_cases h with ⟨hz, _⟩ | ⟨size, hr, hm⟩
    · exact absurd hz hp
    · exact ⟨size, hm, ramfsRead_inside hend hr⟩
  null m' h := by
    rcases ramfsReadOut_cases h with ⟨_, hm⟩ | ⟨size, hr, _⟩
    · exact hm
    · have hlow : ramfs_start.toNat + 512 ≤ 0 := (ramfsRead_inside hend hr).1
      omega

theorem ramfsRead_robust_sevens : Robust 3 (fun _ => 55) 0x400000 0x400400 shellBin 0x300000 :=
  ramfsRead_robust _ 0x400000 0x400400 (by decide) (by decide) shellBin (by decide) 0x300000 3 (by decide)

end FrodOS
