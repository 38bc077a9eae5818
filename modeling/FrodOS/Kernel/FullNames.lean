import FrodOS.Kernel.Ustar

/-!
# Names that fill the field

A name of 100 bytes leaves no room for a NUL. The comparison in `ramfs_read` and the scan
of the import run on into the mode behind it, so they do not see the name that the field
holds.
-/

namespace FrodOS
open Lib

/-- The import takes this base name from the header, and makes this file name of it. -/
def Derives (m : Ram) (addr : U32) (base short : List Byte) : Prop :=
  ∃ p, realFilename (view m addr) = some p ∧ IsCStr (view m (off addr p)) base ∧
    shortName (view m (off addr p)) 31 0 = short

/-- The memories differ at most in the fields of the header behind the name. -/
def SameName (m m' : Ram) (addr : U32) : Prop :=
  ∀ a, (∀ i, 100 ≤ i → i < 512 → a ≠ off addr i) → m' a = m a

/-- A file with a name of its own, when `key` tells which names are the same, is found under
it, and what the import derives from a header depends on the name field only. -/
structure FieldNames (key : List Byte → List Byte) (m : Ram) (ramfs_start ramfs_end : U32)
    (es : List ArchiveEntry) : Prop where
  lookup : ∀ pre e post, es = pre ++ e :: post → e.Regular →
    (∀ x ∈ pre ++ post, key x.name ≠ key e.name) →
    ∃ fuel, ramfsRead fuel m ramfs_start ramfs_end e.name =
      some (some (off ramfs_start (extent pre + 512), BitVec.ofNat 32 e.data.length))
  derived : ∀ pre e post, es = pre ++ e :: post → ∀ m', SameName m m' (off ramfs_start (extent pre)) →
    Derives m' (off ramfs_start (extent pre)) (baseName e.name) e.short

/-- No file in front of one with a name of its own has that name but for a leading "./". -/
def DotsApart (es : List ArchiveEntry) : Prop :=
  ∀ pre e post, es = pre ++ e :: post → e.Regular → (∀ x ∈ pre ++ post, x.name ≠ e.name) →
    ∀ x ∈ pre, ¬ x.Answers e.name

variable {m m' : Ram} {ramfs_start ramfs_end addr : U32} {name : List Byte} {e : ArchiveEntry}
  {pre post es : List ArchiveEntry} {key : List Byte → List Byte}

/-! ### The scan of the import -/

theorem SameName.view_eq (h : SameName m m' addr) {i : ℕ} (hi : i < 100) : view m' addr i = view m addr i :=
  h _ fun j hj hj' he => by
    have := off_inj addr i j (by omega) (by omega) he
    omega

theorem derives_of_isCStr (h : IsCStr (view m addr) name) (hlen : name.length < 2 ^ 31) :
    Derives m addr (baseName name) ((stem name).take 31) := by
  obtain ⟨p, hp⟩ := (realFilename_isSome_iff _).mpr ⟨name.length, hlen, h.nul⟩
  have hbase := isCStr_realFilename h hp
  exact ⟨p, hp, hbase, shortName_eq hbase 31 0 (Nat.zero_le _)⟩

theorem Derives.base_eq {base short : List Byte} (h : Derives m addr base short)
    (hname : IsCStr (view m addr) name) : base = baseName name := by
  obtain ⟨p, hp, hbase, _⟩ := h
  exact hbase.unique (isCStr_realFilename hname hp)

theorem NameField.derives (hn : NameField (view m addr) name) (hlen : name.length ≤ 99)
    (hs : SameName m m' addr) : Derives m' addr (baseName name) ((stem name).take 31) :=
  derives_of_isCStr ((hn.isCStr hlen).congr fun _ hi => hs.view_eq (by omega)) (by omega)

/-- The memory with the mode "x". -/
def withMode (m : Ram) (addr : U32) : Ram :=
  Function.update (Function.update m (off addr 100) 120) (off addr 101) 0

theorem sameName_withMode (m : Ram) (addr : U32) : SameName m (withMode m addr) addr := by
  intro a ha
  rw [withMode, Function.update_of_ne (ha 101 (by omega) (by omega)),
    Function.update_of_ne (ha 100 le_rfl (by omega))]

theorem NameField.isCStr_withMode (hn : NameField (view m addr) name) (hlen : name.length = 100) :
    IsCStr (view (withMode m addr) addr) (name ++ [120]) where
  nonzero := List.forall_mem_append.mpr ⟨hn.nonzero, List.forall_mem_singleton.mpr (by decide)⟩
  bytes i hi := by
    rw [List.length_append, List.length_singleton] at hi
    by_cases hlt : i < 100
    · rw [List.getElem_append_left (by omega), ← hn.bytes i (by omega)]
      exact (sameName_withMode m addr).view_eq hlt
    · obtain rfl : i = 100 := by omega
      have hne : off addr 100 ≠ off addr 101 := fun he => by
        have := off_inj addr 100 101 (by omega) (by omega) he
        omega
      rw [view, withMode, Function.update_of_ne hne, Function.update_self,
        List.getElem_append_right (by omega)]
      simp [hlen]
  nul := by
    rw [List.length_append, List.length_singleton, hlen]
    exact Function.update_self ..

theorem baseName_append_x (name : List Byte) : baseName (name ++ [120]) ≠ baseName name := by
  rw [baseName_snoc, if_neg (by decide)]
  exact fun h => by simpa using congrArg List.length h

theorem FieldNames.short (hl : Ustar m ramfs_end ramfs_start es)
    (h : FieldNames key m ramfs_start ramfs_end es) : ∀ e ∈ es, e.name.length ≤ 99 := by
  intro e he
  obtain ⟨pre, post, rfl⟩ := List.append_of_mem he
  cases hl.split with
  | entry hh _ _ =>
    have hfits := hh.name.fits
    by_contra hlong
    have hfull := hh.name.isCStr_withMode (by omega)
    have hbase := (h.derived pre e post rfl _ (sameName_withMode m _)).base_eq hfull
    exact baseName_append_x _ hbase.symm

/-! ### The comparison of the lookup -/

theorem Ustar.lookup (hl : Ustar m ramfs_end ramfs_start (pre ++ e :: post)) (h0 : ramfs_start ≠ 0)
    (hnames : Terminated (pre ++ e :: post)) {query : List Byte} (hq : ∀ b ∈ query, b ≠ 0)
    (hpre : ∀ x ∈ pre, ¬ x.Answers query) (he : e.Answers query) :
    ∃ fuel, ramfsRead fuel m ramfs_start ramfs_end query =
      some (some (off ramfs_start (extent pre + 512), BitVec.ofNat 32 e.data.length)) := by
  have hfits := hl.extent_le
  have hlt : ramfs_start < ramfs_end := by
    rw [BitVec.lt_def]
    omega
  have hbefore : Terminated (pre ++ [e]) := fun x hx => hnames x (by
    rw [List.append_cons]
    exact List.mem_append_left _ hx)
  exact ramfsRead_of_returns h0 hlt (hl.found hbefore hq hpre he)

theorem Ustar.nonzero (hl : Ustar m ramfs_end ramfs_start (pre ++ e :: post)) : ∀ b ∈ e.name, b ≠ 0 := by
  cases hl.split with
  | entry hh _ _ => exact hh.name.nonzero

theorem fieldNames_of_short (hl : Ustar m ramfs_end ramfs_start es) (h0 : ramfs_start ≠ 0)
    (hnames : Terminated es)
    (hfirst : ∀ pre e post, es = pre ++ e :: post → e.Regular →
      (∀ x ∈ pre ++ post, key x.name ≠ key e.name) → ∀ x ∈ pre, ¬ x.Answers e.name) :
    FieldNames key m ramfs_start ramfs_end es where
  lookup pre e post hes hreg hown := by
    subst hes
    exact hl.lookup h0 hnames hl.nonzero (hfirst pre e post rfl hreg hown) ⟨hreg, rfl⟩
  derived pre e post hes m' hs := by
    subst hes
    cases hl.split with
    | entry hh _ _ => exact hh.name.derives (hnames e (by simp)).2 hs

/-- The lookup finds the first of two files that differ in a "./" only. -/
theorem FieldNames.dotsApart (hl : Ustar m ramfs_end ramfs_start es) (h0 : ramfs_start ≠ 0)
    (hnames : Terminated es) (h : FieldNames id m ramfs_start ramfs_end es) : DotsApart es := by
  intro pre e post hes hreg hown x hx hans
  obtain ⟨fuel, hr⟩ := h.lookup pre e post hes hreg hown
  obtain ⟨pre', y, post', rfl, hy, hpre'⟩ := exists_first (p := fun x => x.Answers e.name) ⟨x, hx, hans⟩
  have hq : ∀ b ∈ e.name, b ≠ 0 := (hes ▸ hl).nonzero
  have hfits := (hes ▸ hl).extent_le
  rw [List.append_assoc, List.cons_append] at hes
  obtain ⟨fuel', hr'⟩ := (hes ▸ hl).lookup h0 (hes ▸ hnames) hq hpre' hy
  have heq := ramfsRead_unique hr hr'
  have hlt := ramfs_end.isLt
  have hext := extent_append pre' (y :: post')
  rw [extent_cons] at hext
  have hoff := off_inj ramfs_start _ _ (by omega) (by omega) (Prod.mk.inj (Option.some.inj heq)).1
  omega

/-- Names are what the field holds exactly when each one leaves room for its NUL. Where
"./a" is not the name "a", the files must moreover keep these names apart. -/
theorem field_names_iff (m : Ram) (ramfs_start ramfs_end : U32) (es : List ArchiveEntry)
    (hl : Ustar m ramfs_end ramfs_start es) (h0 : ramfs_start ≠ 0) (hnames : ∀ e ∈ es, 1 ≤ e.name.length) :
    (FieldNames id m ramfs_start ramfs_end es ↔ (∀ e ∈ es, e.name.length ≤ 99) ∧ DotsApart es) ∧
    (FieldNames stripDot m ramfs_start ramfs_end es ↔ ∀ e ∈ es, e.name.length ≤ 99) := by
  have hterm : (∀ e ∈ es, e.name.length ≤ 99) → Terminated es :=
    fun hs e he => ⟨hnames e he, hs e he⟩
  refine ⟨⟨fun h => ?_, fun ⟨hs, hdots⟩ => ?_⟩, ⟨FieldNames.short hl, fun hs => ?_⟩⟩
  · have hs := FieldNames.short hl h
    exact ⟨hs, h.dotsApart hl h0 (hterm hs)⟩
  · exact fieldNames_of_short hl h0 (hterm hs) hdots
  · refine fieldNames_of_short hl h0 (hterm hs) fun pre e post _ _ hown x hx hans => ?_
    exact hown x (List.mem_append_left _ hx) hans.2

theorem field_names_iff_dot : FieldNames id binArchive 0x400000 0x400A00 binEntries := by
  refine (field_names_iff _ _ _ _ binArchive_ustar (by decide) (by decide)).1.mpr ⟨by decide, ?_⟩
  intro pre e post hes _ _ x hx
  have hapart : binEntries.Pairwise fun x y => ¬ x.Answers y.name := by decide
  rw [hes] at hapart
  exact (List.pairwise_append.mp hapart).2.2 x hx e List.mem_cons_self

/-- A file of one byte with a name of 100 bytes, and behind it the mode "0000644". -/
def fullName : Ram := blocks [oneByteHeader (List.replicate 100 97 ++ [48, 48, 48, 48, 54, 52, 52]) 48, [7]]

theorem fullName_ustar : Ustar fullName 0x400400 0x400000 [⟨List.replicate 100 97, 48, [7]⟩] := by
  have hsize : trueSize fullName 0x400000 = 1 := by decide +kernel
  have hname : NameField (view fullName 0x400000) (List.replicate 100 97) :=
    ⟨by decide, fun b hb => by rw [List.eq_of_mem_replicate hb]; decide, by decide +kernel, by decide⟩
  exact .entry ⟨hname, by decide +kernel, hsize, by decide +kernel⟩ (by decide) (.moduleEnd (by decide))

theorem fullName_not_found : ramfsRead 2 fullName 0x400000 0x400400 (List.replicate 100 97) = some none := by
  decide +kernel

theorem field_names_not_full :
    ¬ ∀ (m : Ram) (ramfs_start ramfs_end : U32) (es : List ArchiveEntry), Ustar m ramfs_end ramfs_start es →
      ramfs_start ≠ 0 → (∀ e ∈ es, 1 ≤ e.name.length) → FieldNames id m ramfs_start ramfs_end es := by
  intro h
  have hnames := h fullName _ _ _ fullName_ustar (by decide) (by decide)
  obtain ⟨fuel, hr⟩ := hnames.lookup [] _ [] rfl (by decide) (List.forall_mem_nil _)
  cases ramfsRead_unique hr fullName_not_found

end FrodOS
