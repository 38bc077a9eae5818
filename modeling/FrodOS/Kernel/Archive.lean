import FrodOS.Frodfs.Put
import FrodOS.Kernel.Import

/-!
# Archives

What a ustar archive says, apart from where its bytes lie, and how it is laid out
in the boot module. `ArchiveEntry.importTo` is what importing an entry does to the
map that the FrodFS table represents.
-/

namespace FrodOS
open Lib

/-! ### Names -/

def baseName (name : List Byte) : List Byte := (name.reverse.takeWhile (· ≠ 47)).reverse

def stem (name : List Byte) : List Byte := (baseName name).takeWhile (· ≠ 46)

theorem baseName_snoc (name : List Byte) (b : Byte) :
    baseName (name ++ [b]) = if b = 47 then [] else baseName name ++ [b] := by
  rw [baseName, List.reverse_append, List.reverse_singleton, List.singleton_append, List.takeWhile_cons]
  by_cases h : b = 47
  · rw [if_pos h, h]
    rfl
  · rw [if_neg h, decide_eq_true h, if_pos rfl, List.reverse_cons]
    rfl

theorem realFilename_spec {f : View} {name : List Byte} (h : IsCStr f name) {p : ℕ}
    (hp : realFilename f = some p) : p ≤ name.length ∧ name.drop p = baseName name := by
  have hret : Returns (scanPass f) (0, 0) p := ⟨2 ^ 31, hp⟩
  refine hret.invariant
    (fun s => s.1 ≤ name.length ∧ s.2 ≤ s.1 ∧ (name.take s.1).drop s.2 = baseName (name.take s.1))
    (fun p => p ≤ name.length ∧ name.drop p = baseName name)
    ⟨Nat.zero_le _, le_rfl, by simp [baseName]⟩ ?_ ?_
  · rintro ⟨i, r⟩ s' ⟨hi, hr, hbase⟩ he
    obtain ⟨hz, _, rfl⟩ := scanPass_next he
    simp only at hi hr hbase hz ⊢
    have hlt : i < name.length := by
      rcases Nat.lt_or_eq_of_le hi with hlt | rfl
      · exact hlt
      · exact absurd h.nul hz
    have htake : name.take (i + 1) = name.take i ++ [name[i]] := (List.take_append_getElem hlt).symm
    rw [htake, baseName_snoc, h.bytes i hlt]
    by_cases hs : name[i] = 47
    · refine ⟨hlt, by simp only [hs, if_true]; exact le_rfl, ?_⟩
      simp only [hs, if_true]
      exact List.drop_of_length_le (by simp)
    · refine ⟨hlt, by simp only [hs, if_false]; omega, ?_⟩
      simp only [hs, if_false]
      rw [List.drop_append_of_le_length (by rw [List.length_take]; omega), hbase]
  · rintro ⟨i, r⟩ ⟨hi, hr, hbase⟩ he
    obtain ⟨hz, rfl⟩ := scanPass_done he
    simp only at hi hr hbase hz ⊢
    have hend : i = name.length := by
      by_contra hne
      exact h.ne_zero (show i < name.length by omega) hz
    rw [hend, List.take_length] at hbase
    exact ⟨by omega, hbase⟩

theorem isCStr_realFilename {m : Ram} {addr : U32} {name : List Byte} (h : IsCStr (view m addr) name) {p : ℕ}
    (hp : realFilename (view m addr) = some p) : IsCStr (view m (off addr p)) (baseName name) := by
  obtain ⟨hle, hdrop⟩ := realFilename_spec h hp
  have hrest := h.drop hle
  rw [hdrop] at hrest
  refine hrest.congr fun i _ => ?_
  simp only [view, off_off]

theorem shortName_eq {f : View} {base : List Byte} (h : IsCStr f base) (left i : ℕ)
    (hi : i ≤ base.length) :
    shortName f left i = ((base.drop i).takeWhile (· ≠ 46)).take left := by
  induction left generalizing i with
  | zero => simp [shortName]
  | succ left ih =>
    rw [shortName]
    by_cases hend : i = base.length
    · have hz : f i = 0 := by
        rw [hend]
        exact h.nul
      rw [if_neg fun hc => hc.1 hz, hend, List.drop_length]
      rfl
    · have hlt : i < base.length := by omega
      rw [List.drop_eq_getElem_cons hlt, List.takeWhile_cons, ← h.bytes i hlt]
      by_cases hdot : f i = 46
      · simp [hdot]
      · simp only [h.ne_zero hlt, hdot, ne_eq, not_false_eq_true, and_self, if_true, decide_true,
          List.take_succ_cons, ih (i + 1) hlt]

/-! ### Sizes -/

structure OctalField (f : View) (n : ℕ) : Prop where
  digits : ∀ i < 11, f i = BitVec.ofNat 8 (48 + n / 8 ^ (10 - i) % 8)
  nul : f 11 = 0

theorem octalFrom_digit {f : View} {i d : ℕ} (hd : d < 8) (hf : f i = BitVec.ofNat 8 (48 + d))
    (left : ℕ) (r : U32) :
    octalFrom f (left + 1) i r = octalFrom f left (i + 1) ((r <<< 3) + BitVec.ofNat 32 d) := by
  have hval : (f i).toNat = 48 + d := by
    rw [hf, BitVec.toNat_ofNat]
    exact Nat.mod_eq_of_lt (by omega)
  have hstop : ¬ (f i = 0 ∨ f i = 32) := by
    rintro (he | he) <;> rw [he] at hval
    · change 0 = _ at hval
      omega
    · change 32 = _ at hval
      omega
  have hskip : ¬ (f i < 48 ∨ 55 < f i) := by
    intro h
    rcases h with he | he
    · have : (f i).toNat < 48 := he
      omega
    · have : 55 < (f i).toNat := he
      omega
  have hwide : ((f i).setWidth 32).toNat = 48 + d := by
    rw [BitVec.toNat_setWidth, hval]
    exact Nat.mod_eq_of_lt (by omega)
  have hsub : (f i).setWidth 32 - 48 = BitVec.ofNat 32 d := by
    apply BitVec.eq_of_toNat_eq
    have hle : (48 : U32) ≤ (f i).setWidth 32 := by
      rw [BitVec.le_def, hwide]
      exact Nat.le_add_right 48 d
    rw [BitVec.toNat_sub_of_le hle, hwide, BitVec.toNat_ofNat, Nat.mod_eq_of_lt (show d < 2 ^ 32 by omega)]
    exact Nat.add_sub_cancel_left 48 d
  rw [octalFrom, if_neg hstop, if_neg hskip, hsub]

theorem octalFrom_spec {f : View} {n : ℕ} (h : OctalField f n) (left : ℕ) (hl : left ≤ 11) :
    octalFrom f (left + 1) (11 - left) (BitVec.ofNat 32 (n / 8 ^ left)) = BitVec.ofNat 32 n := by
  induction left with
  | zero => simp [octalFrom, h.nul]
  | succ left ih =>
    have hf : f (11 - (left + 1)) = BitVec.ofNat 8 (48 + n / 8 ^ left % 8) := by
      rw [h.digits _ (by omega), show 10 - (11 - (left + 1)) = left by omega]
    have hshift : BitVec.ofNat 32 (n / 8 ^ (left + 1)) <<< 3 + BitVec.ofNat 32 (n / 8 ^ left % 8) =
        BitVec.ofNat 32 (n / 8 ^ left) := by
      apply BitVec.eq_of_toNat_eq
      rw [BitVec.toNat_add, BitVec.toNat_shiftLeft, BitVec.toNat_ofNat, BitVec.toNat_ofNat,
        BitVec.toNat_ofNat, Nat.shiftLeft_eq, Nat.pow_succ, ← Nat.div_div_eq_div_mul]
      omega
    rw [octalFrom_digit (Nat.mod_lt _ (by omega)) hf, hshift,
      show 11 - (left + 1) + 1 = 11 - left by omega]
    exact ih (by omega)

theorem octalToInt_spec {f : View} {n : ℕ} (h : OctalField f n) (hn : n < 2 ^ 32) :
    octalToInt f 12 = BitVec.ofNat 32 n := by
  have hspec := octalFrom_spec h 11 le_rfl
  rwa [Nat.div_eq_of_lt (by omega)] at hspec

def padded (n : ℕ) : ℕ := (n + 511) / 512 * 512

theorem aligned_ofNat {n : ℕ} (hn : n + 511 < 2 ^ 32) :
    aligned (BitVec.ofNat 32 n) = BitVec.ofNat 32 (padded n) := by
  apply BitVec.eq_of_toNat_eq
  have hsum : (BitVec.ofNat 32 n + 511 : U32).toNat = n + 511 := by
    rw [BitVec.toNat_add, BitVec.toNat_ofNat, Nat.mod_add_mod]
    exact Nat.mod_eq_of_lt hn
  rw [aligned, BitVec.toNat_mul, BitVec.toNat_udiv, hsum, BitVec.toNat_ofNat]
  rfl

/-! ### Entries -/

structure ArchiveEntry where
  name : List Byte
  flag : Byte
  data : List Byte

namespace ArchiveEntry

/-- The typeflags that `ramfs_read` takes for a file. -/
def Regular (e : ArchiveEntry) : Prop := e.flag = 48 ∨ e.flag = 0

def Eligible (e : ArchiveEntry) : Prop :=
  e.data ≠ [] ∧ baseName e.name ≠ [] ∧ baseName e.name ≠ shellBin

instance : DecidablePred Regular := fun _ => inferInstanceAs (Decidable (_ ∨ _))

instance : DecidablePred Eligible := fun _ => inferInstanceAs (Decidable (_ ∧ _))

def short (e : ArchiveEntry) : List Byte := (stem e.name).take 31

def importTo (e : ArchiveEntry) (M : FileTable) : FileTable :=
  if e.Eligible ∧ e.short ≠ [] then M.put e.short e.data else M

end ArchiveEntry

/-- The block at `addr` is the header of `e`, its name as the import reads it: on to the first
NUL, in the name field or behind it. The data follows. -/
structure HeaderOf (m : Ram) (addr : U32) (e : ArchiveEntry) : Prop where
  name : IsCStr (view m addr) e.name
  flag : typeflag m addr = e.flag
  size : OctalField (sizeField m addr) e.data.length
  data : ∀ j (h : j < e.data.length), m (off addr (512 + j)) = e.data[j]

/-- The archive from `addr` on, up to a zero block or the end of the module. -/
inductive Layout (m : Ram) (ramfs_end : U32) : U32 → List ArchiveEntry → Prop where
  | moduleEnd {addr : U32} (h : ramfs_end.toNat < addr.toNat + 512) : Layout m ramfs_end addr []
  | zeroBlock {addr : U32} (h : ∀ i < 512, m (off addr i) = 0) : Layout m ramfs_end addr []
  | entry {addr : U32} {e : ArchiveEntry} {es : List ArchiveEntry} (hh : HeaderOf m addr e)
    (hin : addr.toNat + 512 + padded e.data.length ≤ ramfs_end.toNat)
    (rest : Layout m ramfs_end (off addr (512 + padded e.data.length)) es) :
    Layout m ramfs_end addr (e :: es)

/-- The entries that come before the first with an empty name, which the loop takes for
the end of the archive. -/
def counted (es : List ArchiveEntry) : List ArchiveEntry := es.takeWhile fun e => e.name ≠ []

def importAll (es : List ArchiveEntry) (M : FileTable) : FileTable :=
  es.foldl (fun M e => e.importTo M) M

theorem importAll_snoc (es : List ArchiveEntry) (e : ArchiveEntry) (M : FileTable) :
    importAll (es ++ [e]) M = e.importTo (importAll es M) := List.foldl_concat ..

theorem nil_not_mem_importAll (es : List ArchiveEntry) : [] ∉ (importAll es .empty).keys := by
  induction es using List.reverseRecOn with
  | nil => exact List.not_mem_nil
  | append_singleton es e ih =>
    rw [importAll_snoc, ArchiveEntry.importTo]
    split_ifs with h
    · intro hmem
      rcases FileTable.mem_keys_put hmem with hm | hn
      · exact ih hm
      · exact h.2 hn.symm
    · exact ih

def extent (es : List ArchiveEntry) : ℕ := (es.map fun e => 512 + padded e.data.length).sum

theorem extent_cons (e : ArchiveEntry) (es : List ArchiveEntry) :
    extent (e :: es) = 512 + padded e.data.length + extent es := List.sum_cons

theorem extent_append (p q : List ArchiveEntry) : extent (p ++ q) = extent p + extent q := by
  simp only [extent, List.map_append, List.sum_append]

theorem snoc_eq_split {es pre post : List ArchiveEntry} {e e' : ArchiveEntry}
    (h : es ++ [e] = pre ++ e' :: post) :
    (pre = es ∧ e' = e ∧ post = []) ∨ ∃ post', post = post' ++ [e] ∧ es = pre ++ e' :: post' := by
  rcases post.eq_nil_or_concat' with rfl | ⟨post', e'', rfl⟩
  · obtain ⟨rfl, he⟩ := List.append_inj' h rfl
    exact Or.inl ⟨rfl, (List.singleton_inj.mp he).symm, rfl⟩
  · rw [← List.cons_append, ← List.append_assoc] at h
    obtain ⟨rfl, he⟩ := List.append_inj' h rfl
    exact Or.inr ⟨post', by rw [List.singleton_inj.mp he], rfl⟩

theorem Layout.extent_le {m : Ram} {ramfs_end addr : U32} {es : List ArchiveEntry}
    (hl : Layout m ramfs_end addr es) (hle : addr ≤ ramfs_end) :
    addr.toNat + extent es ≤ ramfs_end.toNat := by
  induction hl with
  | moduleEnd _ => exact hle
  | zeroBlock _ => exact hle
  | @entry addr e es _ hin _ ih =>
    have hlt := ramfs_end.isLt
    have hnext := off_toNat addr (512 + padded e.data.length) (by omega)
    have hrest := ih (by rw [BitVec.le_def, hnext]; omega)
    rw [hnext] at hrest
    rw [extent_cons]
    omega

end FrodOS
