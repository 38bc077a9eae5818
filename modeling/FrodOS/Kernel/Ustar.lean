import FrodOS.Kernel.ImportComplete
import FrodOS.Kernel.LookupWalk

/-!
# Looking up a name in an archive

A ustar header keeps a name of up to 100 bytes, and only a shorter one has a NUL behind it.
On the archives whose names have one, `ramfs_read` finds the first file of the name it is
asked for.
-/

namespace FrodOS
open Lib

/-! ### The archive -/

/-- The field of 100 bytes holds the name, up to its first NUL or its end. -/
structure NameField (f : View) (name : List Byte) : Prop where
  fits : name.length ≤ 100
  nonzero : ∀ b ∈ name, b ≠ 0
  bytes : ∀ i (h : i < name.length), f i = name[i]
  nul : name.length < 100 → f name.length = 0

theorem NameField.isCStr {f : View} {name : List Byte} (h : NameField f name) (hn : name.length ≤ 99) :
    IsCStr f name := ⟨h.nonzero, h.bytes, h.nul (by omega)⟩

/-- The header of an entry, its data behind it. The size field may be written in any way that
denotes the length of the data. -/
structure UstarHeader (m : Ram) (addr : U32) (e : ArchiveEntry) : Prop where
  name : NameField (view m addr) e.name
  flag : typeflag m addr = e.flag
  size : trueSize m addr = e.data.length
  data : ∀ j (h : j < e.data.length), m (off addr (512 + j)) = e.data[j]

/-- The entries from `addr` on, up to a zero block or the end of the module. -/
inductive Ustar (m : Ram) (ramfs_end : U32) : U32 → List ArchiveEntry → Prop where
  | moduleEnd {addr : U32} (h : ramfs_end.toNat < addr.toNat + 512) : Ustar m ramfs_end addr []
  | zeroBlock {addr : U32} (h : ∀ i < 512, m (off addr i) = 0) : Ustar m ramfs_end addr []
  | entry {addr : U32} {e : ArchiveEntry} {es : List ArchiveEntry} (hh : UstarHeader m addr e)
    (hin : addr.toNat + 512 + padded e.data.length ≤ ramfs_end.toNat)
    (rest : Ustar m ramfs_end (off addr (512 + padded e.data.length)) es) :
    Ustar m ramfs_end addr (e :: es)

def ArchiveEntry.Answers (e : ArchiveEntry) (query : List Byte) : Prop :=
  e.Regular ∧ stripDot e.name = stripDot query

instance (e : ArchiveEntry) (query : List Byte) : Decidable (e.Answers query) :=
  inferInstanceAs (Decidable (_ ∧ _))

/-- The names of the archive that end in a NUL. -/
def Terminated (es : List ArchiveEntry) : Prop := ∀ e ∈ es, 1 ≤ e.name.length ∧ e.name.length ≤ 99

/-! ### The walk over the archive -/

variable {m : Ram} {ramfs_end addr : U32} {query : List Byte} {e : ArchiveEntry}
  {pre post es : List ArchiveEntry}

theorem stripDot_nonzero (hq : ∀ b ∈ query, b ≠ 0) : ∀ b ∈ stripDot query, b ≠ 0 := by
  unfold stripDot
  split
  · exact fun b hb => hq b (List.mem_cons_of_mem _ (List.mem_cons_of_mem _ hb))
  · exact hq

theorem UstarHeader.pass (hh : UstarHeader m addr e)
    (hin : addr.toNat + 512 + padded e.data.length ≤ ramfs_end.toNat)
    (hname : 1 ≤ e.name.length ∧ e.name.length ≤ 99) (hq : ∀ b ∈ query, b ≠ 0) :
    ramfsPass m ramfs_end (stripDot query) addr =
      some (if e.Answers query then .done (some (off addr 512, BitVec.ofNat 32 e.data.length))
        else .next (off addr (512 + padded e.data.length))) := by
  have hlt := ramfs_end.isLt
  have hle := (le_padded e.data.length).1
  have hc := hh.name.isCStr hname.2
  have h0 : m addr ≠ 0 := by
    have hne := hc.ne_zero (show 0 < e.name.length by omega)
    rwa [view, off_zero] at hne
  have hsize : (fileSize m addr).toNat = e.data.length := by
    rw [fileSize_toNat, hh.size, Nat.mod_eq_of_lt (by omega)]
  have hw : Wanted m (stripDot query) addr ↔ e.Answers query := by
    rw [wanted_iff hc (stripDot_nonzero hq), hh.flag]
    exact Iff.rfl
  simp only [ramfsPass_entry hin h0 hsize, hw]

theorem extent_nil : extent [] = 0 := rfl

theorem Ustar.reached (hl : Ustar m ramfs_end addr (pre ++ es)) (hnames : Terminated pre)
    (hq : ∀ b ∈ query, b ≠ 0) (hpre : ∀ x ∈ pre, ¬ x.Answers query) :
    Reached (ramfsPass m ramfs_end (stripDot query)) addr (off addr (extent pre)) ∧
      Ustar m ramfs_end (off addr (extent pre)) es := by
  induction pre generalizing addr with
  | nil =>
    rw [extent_nil, off_zero]
    exact ⟨.start, hl⟩
  | cons x pre ih =>
    obtain ⟨hx, hrest⟩ := List.forall_mem_cons.mp hpre
    obtain ⟨hname, hnames⟩ := List.forall_mem_cons.mp hnames
    cases hl with
    | entry hh hin rest =>
      have hpass := hh.pass hin hname hq
      rw [if_neg hx] at hpass
      obtain ⟨hreached, hl'⟩ := ih rest hnames hrest
      rw [off_off, ← extent_cons] at hreached hl'
      exact ⟨(Reached.start.pass hpass).trans hreached, hl'⟩

theorem Ustar.extent_le (hl : Ustar m ramfs_end addr (pre ++ e :: post)) :
    addr.toNat + extent pre + 512 + padded e.data.length ≤ ramfs_end.toNat := by
  have hlt := ramfs_end.isLt
  induction pre generalizing addr with
  | nil =>
    cases hl with
    | entry _ hin _ => exact hin
  | cons x pre ih =>
    cases hl with
    | entry _ hin rest =>
      have hrest := ih rest
      rw [off_toNat _ _ (by omega)] at hrest
      rw [extent_cons]
      omega

theorem Ustar.split (hl : Ustar m ramfs_end addr (pre ++ es)) :
    Ustar m ramfs_end (off addr (extent pre)) es := by
  induction pre generalizing addr with
  | nil =>
    rw [extent_nil, off_zero]
    exact hl
  | cons x pre ih =>
    cases hl with
    | entry _ _ rest =>
      have hrest := ih rest
      rwa [off_off, ← extent_cons] at hrest

theorem Ustar.found (hl : Ustar m ramfs_end addr (pre ++ e :: post)) (hnames : Terminated (pre ++ [e]))
    (hq : ∀ b ∈ query, b ≠ 0) (hpre : ∀ x ∈ pre, ¬ x.Answers query) (he : e.Answers query) :
    Returns (ramfsPass m ramfs_end (stripDot query)) addr
      (some (off addr (extent pre + 512), BitVec.ofNat 32 e.data.length)) := by
  have hlt := ramfs_end.isLt
  have hfits := hl.extent_le
  have hbefore : Terminated pre := fun x hx => hnames x (List.mem_append_left _ hx)
  obtain ⟨hreached, hl'⟩ := hl.reached hbefore hq hpre
  cases hl' with
  | entry hh hin _ =>
    have hpass := hh.pass hin (hnames e (by simp)) hq
    rw [if_pos he, off_off] at hpass
    exact hreached.returns (.of_done hpass)

theorem Ustar.missing (hl : Ustar m ramfs_end addr es) (hend : ramfs_end < 0xFFFFFE00)
    (hle : addr.toNat ≤ ramfs_end.toNat) (hnames : Terminated es) (hq : ∀ b ∈ query, b ≠ 0)
    (hes : ∀ x ∈ es, ¬ x.Answers query) : Returns (ramfsPass m ramfs_end (stripDot query)) addr none := by
  have hlt : ramfs_end.toNat < 0xFFFFFE00 := hend
  induction es generalizing addr with
  | nil =>
    refine .of_done ?_
    cases hl with
    | moduleEnd hpast => exact ramfsPass_past (by omega) hpast
    | zeroBlock hz => exact ramfsPass_blank (by rw [← hz 0 (by omega), off_zero])
  | cons x es ih =>
    obtain ⟨hx, hrest⟩ := List.forall_mem_cons.mp hes
    obtain ⟨hname, hnames⟩ := List.forall_mem_cons.mp hnames
    cases hl with
    | entry hh hin rest =>
      have hpass := hh.pass hin hname hq
      rw [if_neg hx] at hpass
      exact .of_next hpass (ih rest (by rw [off_toNat _ _ (by omega)]; omega) hnames hrest)

theorem exists_first {p : ArchiveEntry → Prop} [DecidablePred p] (h : ∃ x ∈ es, p x) :
    ∃ pre e post, es = pre ++ e :: post ∧ p e ∧ ∀ x ∈ pre, ¬ p x := by
  obtain ⟨x, hx, hp⟩ := h
  cases hf : es.find? (fun e => decide (p e)) with
  | none => exact absurd hp (by simpa using List.find?_eq_none.mp hf x hx)
  | some e =>
    obtain ⟨he, pre, post, rfl, hpre⟩ := List.find?_eq_some_iff_append.mp hf
    exact ⟨pre, e, post, rfl, by simpa using he, by simpa using hpre⟩

/-! ### The lookup -/

/-- The lookup finds the first file of the name, at the address and with the size of its
data, and it comes back empty exactly when there is none. -/
theorem ramfsRead_finds_first {ramfs_start : U32} (hl : Ustar m ramfs_end ramfs_start es)
    (h0 : 0 < ramfs_start) (hlt : ramfs_start < ramfs_end) (hend : ramfs_end < 0xFFFFFE00)
    (hnames : Terminated es) (query : List Byte) (hq : ∀ b ∈ query, b ≠ 0) (fuel : ℕ)
    (hfuel : (ramfs_end.toNat - ramfs_start.toNat) / 512 < fuel) :
    (∀ pre e post, es = pre ++ e :: post → e.Answers query → (∀ x ∈ pre, ¬ x.Answers query) →
      ∃ p size, ramfsRead fuel m ramfs_start ramfs_end query = some (some (p, size)) ∧
        p.toNat = ramfs_start.toNat + extent pre + 512 ∧ size.toNat = e.data.length) ∧
    (ramfsRead fuel m ramfs_start ramfs_end query = some none ↔ ∀ e ∈ es, ¬ e.Answers query) := by
  have hle : ramfs_start.toNat ≤ ramfs_end.toNat := (BitVec.lt_def.mp hlt).le
  have hin : ¬ (ramfs_start = 0 ∨ ramfs_start ≥ ramfs_end) := by
    refine fun h => h.elim (fun hz => ?_) fun hge => absurd hlt (BitVec.not_lt.mpr hge)
    rw [hz] at h0
    exact absurd h0 (by decide)
  rw [ramfsRead_eq, if_neg hin]
  obtain ⟨r, hr⟩ := loop_ramfsPass m (stripDot query) hend hle hfuel
  have hret : Returns (ramfsPass m ramfs_end (stripDot query)) ramfs_start r := ⟨fuel, hr⟩
  have hfound : ∀ pre e post, es = pre ++ e :: post → e.Answers query → (∀ x ∈ pre, ¬ x.Answers query) →
      ∃ p size, r = some (p, size) ∧ p.toNat = ramfs_start.toNat + extent pre + 512 ∧
        size.toNat = e.data.length := by
    intro pre e post hes he hpre
    subst hes
    have hb := ramfs_end.isLt
    have hfits := hl.extent_le
    have hpad := (le_padded e.data.length).1
    have hbefore : Terminated (pre ++ [e]) := fun x hx => hnames x (by
      rcases List.mem_append.mp hx with hx | hx
      · exact List.mem_append_left _ hx
      · exact List.mem_append_right _ (List.mem_singleton.mp hx ▸ List.mem_cons_self ..))
    refine ⟨_, _, hret.unique (hl.found hbefore hq hpre he), ?_, ?_⟩
    · rw [off_toNat _ _ (by omega)]
      omega
    · rw [BitVec.toNat_ofNat, Nat.mod_eq_of_lt (by omega)]
  constructor
  · intro pre e post hes he hpre
    obtain ⟨p, size, rfl, hp, hs⟩ := hfound pre e post hes he hpre
    exact ⟨p, size, hr, hp, hs⟩
  · constructor
    · intro hnone x hx hans
      obtain ⟨pre, e, post, hes, he, hpre⟩ := exists_first (p := fun e => e.Answers query) ⟨x, hx, hans⟩
      obtain ⟨p, size, rfl, _⟩ := hfound pre e post hes he hpre
      rw [hr] at hnone
      cases hnone
    · intro hno
      rw [hr, hret.unique (hl.missing hend hle hnames hq hno)]

/-! ### A small archive -/

/-- The directory "bin/", a file in it and the file "./b". -/
def binArchive : Ram :=
  blocks [emptyHeader [98, 105, 110, 47] 53, oneByteHeader binA 48, [7], oneByteHeader dotB 48, [8]]

def binEntries : List ArchiveEntry := [⟨[98, 105, 110, 47], 53, []⟩, ⟨binA, 48, [7]⟩, ⟨dotB, 48, [8]⟩]

theorem binArchive_sizes : trueSize binArchive 0x400000 = 0 ∧ trueSize binArchive 0x400200 = 1 ∧
    trueSize binArchive 0x400600 = 1 := by decide +kernel

theorem binArchive_ustar : Ustar binArchive 0x400A00 0x400000 binEntries :=
  .entry ⟨⟨by decide, by decide, by decide, by decide⟩, by decide, binArchive_sizes.1, by decide⟩ (by decide)
    (.entry ⟨⟨by decide, by decide, by decide, by decide⟩, by decide, binArchive_sizes.2.1, by decide⟩ (by decide)
      (.entry ⟨⟨by decide, by decide, by decide, by decide⟩, by decide, binArchive_sizes.2.2, by decide⟩ (by decide)
        (.moduleEnd (by decide))))

/-- The name "b" finds the last file, the name "bin/" none. -/
theorem ramfsRead_finds_first_dot :
    (∃ p size, ramfsRead 6 binArchive 0x400000 0x400A00 [98] = some (some (p, size)) ∧
      p.toNat = 0x400800 ∧ size.toNat = 1) ∧
    ramfsRead 6 binArchive 0x400000 0x400A00 [98, 105, 110, 47] = some none := by
  have hnames : Terminated binEntries := by
    unfold Terminated
    decide
  have hfirst := fun query hq => ramfsRead_finds_first binArchive_ustar (by decide) (by decide) (by decide)
    hnames query hq 6 (by decide)
  refine ⟨(hfirst [98] (by decide)).1 [⟨[98, 105, 110, 47], 53, []⟩, ⟨binA, 48, [7]⟩] _ [] rfl (by decide) (by decide), ?_⟩
  exact (hfirst [98, 105, 110, 47] (by decide)).2.mpr (by decide)

end FrodOS
