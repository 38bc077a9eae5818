import FrodOS.Kernel.Lookup
import FrodOS.Kernel.Userland

/-!
# Launching the shell again

The first launch copies the image of the shell out of the boot module to `USER_BASE`,
and every later one looks it up in the module once more. The copy is safe for itself
wherever the module lies; the module is not safe from the copy.
-/

namespace FrodOS
open Lib

def launchPages (n : ℕ) : ℕ := (n + 4095) / 4096

/-- The outcome of a launch that found an image of these bytes, put it at `USER_BASE` and
jumped there. -/
structure Installed (k : Kernel) (data : List Byte) (o : Outcome) : Prop where
  found : ∃ fuel image, ramfsRead fuel k.mem k.ramfs_start k.ramfs_end shellBin =
    some (some (image, BitVec.ofNat 32 data.length))
  control : o.control = .userMode userBase userStack
  bytes : ∀ j (h : j < data.length), o.kernel.mem (off userBase j) = data[j]

/-- The shell is installed from `k`, and again by every exit that finds memory unchanged
outside of that copy and frames for its pages. -/
def Relaunches (k : Kernel) (data : List Byte) : Prop :=
  ∃ fuel o, launchUserland fuel k = some o ∧ Installed k data o ∧
    ∀ k' : Kernel, k'.ramfs_start = k.ramfs_start → k'.ramfs_end = k.ramfs_end →
      (∀ a ∉ span userBase data.length, k'.mem a = o.kernel.mem a) →
      launchPages data.length ≤ available k'.bitmap →
      ∃ fuel' o', sysExit fuel' k' = some o' ∧ Installed k' data o'

/-! ### One launch -/

theorem launchPages_fits {n : ℕ} {b : Bitmap} (h : launchPages n ≤ available b) :
    n ≤ 0x8000000 ∧ Fits userBase n := by
  have hle := available_le b
  unfold launchPages at h
  have hbase : userBase.toNat = 0x200000 := rfl
  unfold Fits
  omega

theorem shellPages_ofNat {n : ℕ} (h : n ≤ 0x8000000) :
    (shellPages (BitVec.ofNat 32 n)).toNat = launchPages n := by
  have hsum : (BitVec.ofNat 32 n + 4096 - 1 : U32) = BitVec.ofNat 32 (n + 4095) := by
    rw [add_sub_assoc, BitVec.ofNat_add]
    rfl
  rw [shellPages, hsum, BitVec.toNat_udiv, BitVec.toNat_ofNat, Nat.mod_eq_of_lt (by omega)]
  rfl

theorem launchUserland_copy {fuel : ℕ} {k : Kernel} {image : U32} {n : ℕ}
    (h : ramfsRead fuel k.mem k.ramfs_start k.ramfs_end shellBin = some (some (image, BitVec.ofNat 32 n)))
    (hfit : Fits image n) (hframes : launchPages n ≤ available k.bitmap) :
    ∃ o, launchUserland fuel k = some o ∧ o.control = .userMode userBase userStack ∧
      (∀ j < n, o.kernel.mem (off userBase j) = k.mem (off image j)) ∧
      ∀ a ∉ span userBase n, o.kernel.mem a = k.mem a := by
  obtain ⟨hle, hbase⟩ := launchPages_fits hframes
  have hn : (BitVec.ofNat 32 n).toNat = n := by
    rw [BitVec.toNat_ofNat, Nat.mod_eq_of_lt (by omega)]
  let k₁ := kprint k "Mapping virtual isolation memory windows for userland image...\n"
  obtain ⟨hok, _, _⟩ := allocAndMap_spec userBase (shellPages (BitVec.ofNat 32 n)).toNat 0 k₁
  have hmem : (allocAndMap userBase (shellPages (BitVec.ofNat 32 n)).toNat 0 k₁).kernel.mem = k.mem :=
    (allocAndMap_same userBase _ 0 k₁).mem
  rw [shellPages_ofNat hle] at hok
  have hrun : ∃ o, launchUserland fuel k = some o ∧ o.control = .userMode userBase userStack ∧
      o.kernel.mem = (kernelMemmove k.mem userBase image (BitVec.ofNat 32 n)).1 := by
    simp only [launchUserland, h]
    rw [if_pos (by rw [shellPages_ofNat hle]; exact hok.mpr hframes)]
    exact ⟨_, rfl, rfl, congrArg (fun m => (kernelMemmove m userBase image (BitVec.ofNat 32 n)).1) hmem⟩
  obtain ⟨o, ho, hc, hcopied⟩ := hrun
  refine ⟨o, ho, hc, fun j hj => ?_, fun a ha => ?_⟩
  · rw [hcopied]
    exact kernelMemmove_inside k.mem (hn.symm ▸ hbase) (hn.symm ▸ hfit) (hn.symm ▸ hj)
  · rw [hcopied]
    refine kernelMemmove_outside _ _ _ _ fun hin => ha ?_
    rw [kernelMemmove_copied] at hin
    split_ifs at hin
    · cases hin
    · rwa [hn] at hin

/-- What a launch leaves behind does not depend on how many passes the lookup may make. -/
theorem launchUserland_copied {fuel fuel' : ℕ} {k : Kernel} {o : Outcome} {image : U32} {n : ℕ}
    (ho : launchUserland fuel k = some o)
    (h : ramfsRead fuel' k.mem k.ramfs_start k.ramfs_end shellBin = some (some (image, BitVec.ofNat 32 n)))
    (hfit : Fits image n) (hframes : launchPages n ≤ available k.bitmap) :
    (∀ j < n, o.kernel.mem (off userBase j) = k.mem (off image j)) ∧
      ∀ a ∉ span userBase n, o.kernel.mem a = k.mem a := by
  cases hr : ramfsRead fuel k.mem k.ramfs_start k.ramfs_end shellBin with
  | none =>
    simp only [launchUserland, hr] at ho
    cases ho
  | some r =>
    obtain rfl := ramfsRead_unique hr h
    obtain ⟨o', ho', _, hcopy⟩ := launchUserland_copy hr hfit hframes
    obtain rfl : o = o' := Option.some.inj (ho.symm.trans ho')
    exact hcopy

/-! ### The module and the copy -/

/-- A module that `find_ramfs` accepts, with an archive in which `e` is the first
"shell.bin", and frames for its pages. -/
structure ShellModule (k : Kernel) (pre : List ArchiveEntry) (e : ArchiveEntry)
    (post : List ArchiveEntry) : Prop where
  placed : k.ramfs_start < k.ramfs_end
  layout : Layout k.mem k.ramfs_end k.ramfs_start (pre ++ e :: post)
  first : ∀ x ∈ pre, ¬ x.IsShell
  shell : e.IsShell
  frames : launchPages e.data.length ≤ available k.bitmap

def copyWindow (e : ArchiveEntry) : Set ℕ :=
  {a | userBase.toNat ≤ a ∧ a < userBase.toNat + e.data.length}

/-- The copy misses what a lookup looks at and the image itself. -/
structure OutOfReach (start : ℕ) (pre : List ArchiveEntry) (e : ArchiveEntry) : Prop where
  headers : ∀ p x q, pre ++ [e] = p ++ x :: q → ∀ i, x.LooksAt i → start + (extent p + i) ∉ copyWindow e
  image : ∀ j < e.data.length, start + (extent pre + 512 + j) ∉ copyWindow e

namespace ShellModule

variable {k : Kernel} {pre post : List ArchiveEntry} {e : ArchiveEntry}

theorem passed (h : ShellModule k pre e post) (hnamed : ∀ x ∈ pre, x.name ≠ []) :
    ∀ x ∈ pre, x.name ≠ [] ∧ ¬ x.IsShell := fun x hx => ⟨hnamed x hx, h.first x hx⟩

theorem image_fits (h : ShellModule k pre e post) (hnamed : ∀ x ∈ pre, x.name ≠ []) :
    k.ramfs_start.toNat + (extent pre + 512 + e.data.length) ≤ k.ramfs_end.toNat ∧
      ∀ j (hj : j < e.data.length), k.mem (off k.ramfs_start (extent pre + 512 + j)) = e.data[j] := by
  obtain ⟨_, hh, hfits⟩ := lookup_reached h.layout (h.passed hnamed) fun _ _ _ _ _ _ => rfl
  have hpad : e.data.length ≤ padded e.data.length := by
    unfold padded
    omega
  refine ⟨by omega, fun j hj => ?_⟩
  rw [Nat.add_assoc, ← off_off]
  exact hh.data j hj

theorem image_fit (h : ShellModule k pre e post) (hnamed : ∀ x ∈ pre, x.name ≠ []) :
    Fits (off k.ramfs_start (extent pre + 512)) e.data.length := by
  obtain ⟨hin, _⟩ := h.image_fits hnamed
  have hlt := k.ramfs_end.isLt
  unfold Fits
  rw [off_toNat _ _ (by omega)]
  omega

theorem lookup (h : ShellModule k pre e post) (h0 : k.ramfs_start ≠ 0) (hnamed : ∀ x ∈ pre, x.name ≠ [])
    {m : Ram} (hsame : SameHeaders k.mem m k.ramfs_start (pre ++ [e])) :
    ∃ fuel, ramfsRead fuel m k.ramfs_start k.ramfs_end shellBin =
      some (some (off k.ramfs_start (extent pre + 512), BitVec.ofNat 32 e.data.length)) :=
  ramfsRead_of_returns h0 h.placed (lookup_found h.layout (h.passed hnamed) h.shell hsame)

theorem install (h : ShellModule k pre e post) (h0 : k.ramfs_start ≠ 0) (hnamed : ∀ x ∈ pre, x.name ≠ [])
    {k' : Kernel} (hs : k'.ramfs_start = k.ramfs_start) (he : k'.ramfs_end = k.ramfs_end)
    (hsame : SameHeaders k.mem k'.mem k.ramfs_start (pre ++ [e]))
    (himage : ∀ j < e.data.length, k'.mem (off k.ramfs_start (extent pre + 512 + j)) =
      k.mem (off k.ramfs_start (extent pre + 512 + j)))
    (hframes : launchPages e.data.length ≤ available k'.bitmap) :
    ∃ fuel o, launchUserland fuel k' = some o ∧ Installed k' e.data o ∧
      ∀ a ∉ span userBase e.data.length, o.kernel.mem a = k'.mem a := by
  obtain ⟨_, hbytes⟩ := h.image_fits hnamed
  obtain ⟨fuel, hr⟩ := h.lookup h0 hnamed hsame
  have hfit := h.image_fit hnamed
  rw [← hs] at hfit
  rw [← hs, ← he] at hr
  obtain ⟨o, ho, hc, hcopy, hout⟩ := launchUserland_copy hr hfit hframes
  refine ⟨fuel, o, ho, ⟨⟨fuel, _, hr⟩, hc, fun j hj => ?_⟩, hout⟩
  rw [hcopy j hj, hs, off_off, himage j hj, hbytes j hj]

theorem not_mem_window (h : ShellModule k pre e post) {n : ℕ} (hn : k.ramfs_start.toNat + n < 2 ^ 32) :
    off k.ramfs_start n ∉ span userBase e.data.length ↔ k.ramfs_start.toNat + n ∉ copyWindow e := by
  rw [mem_span_iff (launchPages_fits h.frames).2, off_toNat _ _ hn]
  rfl

theorem relaunches (h : ShellModule k pre e post) (h0 : k.ramfs_start ≠ 0)
    (hnamed : ∀ x ∈ pre, x.name ≠ []) (hreach : OutOfReach k.ramfs_start.toNat pre e) :
    Relaunches k e.data := by
  obtain ⟨hin, _⟩ := h.image_fits hnamed
  have hlt := k.ramfs_end.isLt
  obtain ⟨fuel, o, ho, hinst, hout⟩ := h.install h0 hnamed rfl rfl (fun _ _ _ _ _ _ => rfl)
    (fun _ _ => rfl) h.frames
  refine ⟨fuel, o, ho, hinst, fun k' hs he hmem hframes => ?_⟩
  have hkeep : ∀ a ∉ span userBase e.data.length, k'.mem a = k.mem a :=
    fun a ha => (hmem a ha).trans (hout a ha)
  have hsame : SameHeaders k.mem k'.mem k.ramfs_start (pre ++ [e]) := by
    intro p x q hp i hi
    have hbefore := extent_before hp
    have hi' := hi.lt
    exact hkeep _ ((h.not_mem_window (by omega)).mpr (hreach.headers p x q hp i hi))
  have himage : ∀ j < e.data.length, k'.mem (off k.ramfs_start (extent pre + 512 + j)) =
      k.mem (off k.ramfs_start (extent pre + 512 + j)) :=
    fun j hj => hkeep _ ((h.not_mem_window (by omega)).mpr (hreach.image j hj))
  let k₁ := kprint k' "\nFrodFS: Application terminated cleanly. Returning to user shell...\n"
  obtain ⟨fuel', o', ho', hinst', _⟩ :
      ∃ fuel o, launchUserland fuel k₁ = some o ∧ Installed k₁ e.data o ∧ _ :=
    h.install h0 hnamed hs he hsame himage hframes
  exact ⟨fuel', o', ho', hinst'.found, hinst'.control, hinst'.bytes⟩

/-! ### What a relaunch needs -/

theorem not_installed {k : Kernel} {data : List Byte} {o : Outcome} {fuel : ℕ}
    (hr : ramfsRead fuel k.mem k.ramfs_start k.ramfs_end shellBin = some none) : ¬ Installed k data o := by
  rintro ⟨⟨fuel', image, hf⟩, _, _⟩
  cases ramfsRead_unique hr hf

theorem start_ne_zero (hr : Relaunches k e.data) : k.ramfs_start ≠ 0 := by
  intro hz
  obtain ⟨fuel, o, _, hinst, _⟩ := hr
  have hnone : ramfsRead 0 k.mem k.ramfs_start k.ramfs_end shellBin = some none := by
    rw [ramfsRead_eq, if_pos (Or.inl hz)]
  exact not_installed hnone hinst

theorem ended (h : ShellModule k pre e post) (h0 : k.ramfs_start ≠ 0) {p q : List ArchiveEntry}
    {x : ArchiveEntry} (hp : pre ++ e :: post = p ++ x :: q) (hnamed : ∀ y ∈ p, y.name ≠ [] ∧ ¬ y.IsShell)
    {m : Ram} (hsame : SameHeaders k.mem m k.ramfs_start p) (hzero : m (off k.ramfs_start (extent p)) = 0) :
    ∃ fuel, ramfsRead fuel m k.ramfs_start k.ramfs_end shellBin = some none := by
  have hl := h.layout
  rw [hp] at hl
  exact ramfsRead_of_returns h0 h.placed (lookup_ended hl hnamed hsame hzero)

/-- The shell is found before the first entry with an empty name or not at all. -/
theorem named_of_relaunches (h : ShellModule k pre e post) (hr : Relaunches k e.data) :
    ∀ x ∈ pre, x.name ≠ [] := by
  have h0 := start_ne_zero hr
  intro y hy hye
  obtain ⟨x, hx⟩ : ∃ x, pre.find? (fun x => x.name = []) = some x :=
    Option.isSome_iff_exists.mp (List.find?_isSome.mpr ⟨y, hy, by simpa using hye⟩)
  obtain ⟨hxe, p, q, rfl, hbefore⟩ := List.find?_eq_some_iff_append.mp hx
  have hnamed : ∀ z ∈ p, z.name ≠ [] ∧ ¬ z.IsShell :=
    fun z hz => ⟨by simpa using hbefore z hz, h.first z (List.mem_append_left _ hz)⟩
  have hl := h.layout
  rw [List.append_assoc, List.cons_append] at hl
  obtain ⟨_, hh, _⟩ := lookup_reached hl hnamed fun _ _ _ _ _ _ => rfl
  have hzero : k.mem (off k.ramfs_start (extent p)) = 0 := by
    have hnil := (hh.name.head_eq_zero_iff).mpr (by simpa using hxe)
    rwa [view, off_zero] at hnil
  obtain ⟨fuel, hnone⟩ := ended h h0 (by rw [List.append_assoc, List.cons_append]) hnamed
    (fun _ _ _ _ _ _ => rfl) hzero
  obtain ⟨_, o, _, hinst, _⟩ := hr
  exact not_installed hnone hinst

theorem later_installed (h : ShellModule k pre e post) (hr : Relaunches k e.data) {m : Ram}
    (hm : ∀ a ∉ span userBase e.data.length, m a = k.mem a) :
    ∃ fuel o, sysExit fuel { k with mem := m } = some o ∧ Installed { k with mem := m } e.data o := by
  have h0 := start_ne_zero hr
  have hnamed := h.named_of_relaunches hr
  obtain ⟨fuel', hfound⟩ := h.lookup h0 hnamed fun _ _ _ _ _ _ => rfl
  obtain ⟨fuel, o, ho, _, hlater⟩ := hr
  obtain ⟨_, hout⟩ := launchUserland_copied ho hfound (h.image_fit hnamed) h.frames
  exact hlater { k with mem := m } rfl rfl (fun a ha => (hm a ha).trans (hout a ha).symm) h.frames

theorem sameHeaders_update {es : List ArchiveEntry} {n : ℕ} (v : Byte)
    (hn : k.ramfs_start.toNat + n < 2 ^ 32) (hbelow : ∀ p x q, es = p ++ x :: q → extent p + 512 ≤ n) :
    SameHeaders k.mem (Function.update k.mem (off k.ramfs_start n) v) k.ramfs_start es := by
  intro p x q hp i hi
  have hle := hbelow p x q hp
  have hi' := hi.lt
  refine Function.update_of_ne (fun he => ?_) _ _
  have := off_inj _ _ _ (by omega) (by omega) he
  omega

theorem update_outside {n : ℕ} (h : ShellModule k pre e post) (v : Byte)
    (hn : k.ramfs_start.toNat + n < 2 ^ 32) (hw : k.ramfs_start.toNat + n ∈ copyWindow e) :
    ∀ a ∉ span userBase e.data.length, Function.update k.mem (off k.ramfs_start n) v a = k.mem a := by
  intro a ha
  refine Function.update_of_ne (fun he => ?_) _ _
  exact (h.not_mem_window hn).mp (he ▸ ha) hw

theorem header_apart (h : ShellModule k pre e post) (hr : Relaunches k e.data) {p q : List ArchiveEntry}
    {x : ArchiveEntry} (hp : pre ++ [e] = p ++ x :: q) : k.ramfs_start.toNat + extent p ∉ copyWindow e := by
  intro hw
  have hnamed := h.named_of_relaunches hr
  obtain ⟨hin, _⟩ := h.image_fits hnamed
  have hlt := k.ramfs_end.isLt
  have hle := extent_before hp
  have hbelow : ∀ p' y q', p = p' ++ y :: q' → extent p' + 512 ≤ extent p := by
    rintro p' y q' rfl
    rw [extent_append, extent_cons]
    omega
  have hbefore : ∀ y ∈ p, y.name ≠ [] ∧ ¬ y.IsShell := by
    intro y hy
    have hmem : y ∈ pre := by
      rcases snoc_eq_split hp with ⟨rfl, _, _⟩ | ⟨q', _, rfl⟩
      · exact hy
      · exact List.mem_append_left _ hy
    exact ⟨hnamed y hmem, h.first y hmem⟩
  have hsplit : pre ++ e :: post = p ++ x :: (q ++ post) := by
    rw [← List.singleton_append, ← List.append_assoc, hp, List.append_assoc, List.cons_append]
  -- a NUL there ends the archive for the next lookup
  obtain ⟨fuel, hnone⟩ := ended h (start_ne_zero hr) hsplit hbefore
    (sameHeaders_update 0 (by omega) hbelow) (Function.update_self ..)
  let k' : Kernel := { k with mem := Function.update k.mem (off k.ramfs_start (extent p)) 0 }
  obtain ⟨_, o, _, hinst⟩ : ∃ fuel o, sysExit fuel k' = some o ∧ Installed k' e.data o :=
    h.later_installed hr (h.update_outside 0 (by omega) hw)
  exact not_installed (k := k') hnone hinst

theorem image_apart (h : ShellModule k pre e post) (hr : Relaunches k e.data) {j : ℕ}
    (hj : j < e.data.length) : k.ramfs_start.toNat + (extent pre + 512 + j) ∉ copyWindow e := by
  intro hw
  have hnamed := h.named_of_relaunches hr
  obtain ⟨hin, _⟩ := h.image_fits hnamed
  have hlt := k.ramfs_end.isLt
  have hbelow : ∀ p x q, pre ++ [e] = p ++ x :: q → extent p + 512 ≤ extent pre + 512 + j :=
    fun p x q hp => by
      have := extent_before hp
      omega
  let m := Function.update k.mem (off k.ramfs_start (extent pre + 512 + j)) (e.data[j] + 1)
  obtain ⟨fuel, hfound⟩ := h.lookup (start_ne_zero hr) hnamed
    (sameHeaders_update (e.data[j] + 1) (by omega) hbelow)
  obtain ⟨fuel', o, ho, hinst⟩ := h.later_installed hr (h.update_outside (e.data[j] + 1) (by omega) hw)
  obtain ⟨hcopy, _⟩ := launchUserland_copied ho hfound (h.image_fit hnamed) h.frames
  have hnew : m (off k.ramfs_start (extent pre + 512 + j)) = e.data[j] + 1 := Function.update_self ..
  have hbyte : e.data[j] = m (off (off k.ramfs_start (extent pre + 512)) j) :=
    (hinst.bytes j hj).symm.trans (hcopy j hj)
  rw [off_off, hnew, left_eq_add] at hbyte
  exact absurd hbyte (by decide)

/-- A copy that reaches a byte a lookup looks at reaches the first byte of that header,
or starts within it. -/
theorem outOfReach_of_relaunches (h : ShellModule k pre e post)
    (hclear : ∀ p x q, pre ++ [e] = p ++ x :: q → userBase.toNat ≤ k.ramfs_start.toNat + extent p ∨
      k.ramfs_start.toNat + extent p + 512 ≤ userBase.toNat)
    (hr : Relaunches k e.data) : OutOfReach k.ramfs_start.toNat pre e where
  headers p x q hp i hi hw := by
    have hi' := hi.lt
    obtain ⟨hlo, hhi⟩ := hw
    rcases hclear p x q hp with hle | hge
    · exact h.header_apart hr hp ⟨hle, by omega⟩
    · omega
  image j hj := h.image_apart hr hj

end ShellModule

/-- The shell can be launched again from a module that starts above address 0, with no
empty name before the shell and all that a lookup and a copy look at out of reach of
the copy; and, unless `USER_BASE` lies within one of its headers, only from such a module. -/
theorem launchUserland_relaunches {k : Kernel} {pre post : List ArchiveEntry} {e : ArchiveEntry}
    (h : ShellModule k pre e post) :
    (k.ramfs_start ≠ 0 ∧ (∀ x ∈ pre, x.name ≠ []) ∧ OutOfReach k.ramfs_start.toNat pre e →
      Relaunches k e.data) ∧
    ((∀ p x q, pre ++ [e] = p ++ x :: q → userBase.toNat ≤ k.ramfs_start.toNat + extent p ∨
        k.ramfs_start.toNat + extent p + 512 ≤ userBase.toNat) → Relaunches k e.data →
      k.ramfs_start ≠ 0 ∧ (∀ x ∈ pre, x.name ≠ []) ∧ OutOfReach k.ramfs_start.toNat pre e) :=
  ⟨fun ⟨h0, hnamed, hreach⟩ => h.relaunches h0 hnamed hreach, fun hclear hr =>
    ⟨ShellModule.start_ne_zero hr, h.named_of_relaunches hr, h.outOfReach_of_relaunches hclear hr⟩⟩

theorem extent_mod (es : List ArchiveEntry) : extent es % 512 = 0 := by
  induction es with
  | nil => rfl
  | cons e es ih =>
    rw [extent_cons, padded]
    omega

/-- On a block boundary, as the multiboot header asks for, `USER_BASE` lies within no header. -/
theorem relaunches_iff_of_aligned {k : Kernel} {pre post : List ArchiveEntry} {e : ArchiveEntry}
    (h : ShellModule k pre e post) (ha : k.ramfs_start.toNat % 512 = 0) :
    Relaunches k e.data ↔ k.ramfs_start ≠ 0 ∧ (∀ x ∈ pre, x.name ≠ []) ∧
      OutOfReach k.ramfs_start.toNat pre e := by
  constructor
  · intro hr
    refine ⟨ShellModule.start_ne_zero hr, h.named_of_relaunches hr, h.outOfReach_of_relaunches ?_ hr⟩
    intro p x q _
    have hp := extent_mod p
    have hbase : userBase.toNat = 0x200000 := rfl
    omega
  · intro hc
    obtain ⟨h0, hnamed, hreach⟩ := hc
    exact h.relaunches h0 hnamed hreach

/-! ### A module of one shell -/

def shellHeader : List Byte :=
  shellBin ++ List.replicate 115 0 ++ List.replicate 10 48 ++ [49, 0] ++ List.replicate 20 0 ++ [48]

/-- An archive at `base` of a "shell.bin" of one byte. -/
def shellAt (base : U32) : Ram := fun a =>
  let i := (a - base).toNat
  ([shellHeader, [0xF4]].getD (i / 512) []).getD (i % 512) 0

def kernelShell (base : U32) : Kernel :=
  { kernelA [] (by decide) with mem := shellAt base, ramfs_start := base, ramfs_end := base + 1024 }

def shellEntry : ArchiveEntry := ⟨shellBin, 48, [0xF4]⟩

theorem kernelShell_high : ShellModule (kernelShell 0x400000) [] shellEntry [] where
  placed := by decide
  layout := .entry ⟨.of_leading 31 (by decide) (by decide), by decide, ⟨by decide, by decide⟩, by decide⟩
    (by decide) (.moduleEnd (by decide))
  first := by simp
  shell := by decide
  frames := le_available (b := (kernelA [] (by decide)).bitmap) (by decide) {256} (by decide)

theorem launchUserland_relaunches_high : Relaunches (kernelShell 0x400000) [0xF4] := by
  have hpre : ∀ p x q, [] ++ [shellEntry] = p ++ x :: q → p = [] ∧ x = shellEntry := by
    intro p x q hp
    rcases snoc_eq_split hp with ⟨rfl, rfl, _⟩ | ⟨q', _, hnil⟩
    · exact ⟨rfl, rfl⟩
    · simp at hnil
  refine (launchUserland_relaunches kernelShell_high).1 ⟨by decide, by simp, ?_, ?_⟩
  · rintro p x q hp i hi ⟨_, hw⟩
    obtain ⟨rfl, rfl⟩ := hpre p x q hp
    change 0x400000 + (0 + i) < 0x200000 + 1 at hw
    omega
  · rintro j hj ⟨_, hw⟩
    change 0x400000 + (0 + 512 + j) < 0x200000 + 1 at hw
    omega

theorem kernelShell_low : ShellModule (kernelShell 0x200000) [] shellEntry [] where
  placed := by decide
  layout := .entry ⟨.of_leading 31 (by decide) (by decide), by decide, ⟨by decide, by decide⟩, by decide⟩
    (by decide) (.moduleEnd (by decide))
  first := by simp
  shell := by decide
  frames := le_available (b := (kernelA [] (by decide)).bitmap) (by decide) {256} (by decide)

/-- A module at `USER_BASE`: the copy takes away the first byte of the name, and then the
lookup ends without a shell. -/
theorem launchUserland_not_relaunches_low : ¬ ∀ (k : Kernel) (pre post : List ArchiveEntry)
    (e : ArchiveEntry), ShellModule k pre e post → Relaunches k e.data := by
  intro h
  obtain ⟨fuel, o, ho, _, hlater⟩ := h (kernelShell 0x200000) [] [] shellEntry kernelShell_low
  have hfound : ramfsRead 1 (kernelShell 0x200000).mem 0x200000 0x200400 shellBin =
      some (some (0x200200, BitVec.ofNat 32 1)) := by decide
  obtain ⟨hcopy, hout⟩ := launchUserland_copied ho hfound (by decide) kernelShell_low.frames
  have hmem : o.kernel.mem = Function.update (shellAt 0x200000) 0x200000 0xF4 := by
    funext a
    by_cases ha : a = 0x200000
    · subst ha
      rw [Function.update_self]
      exact hcopy 0 (by decide)
    · rw [Function.update_of_ne ha]
      refine hout a fun hc => ha ?_
      obtain ⟨i, hi, rfl⟩ := mem_span.mp hc
      obtain rfl : i = 0 := Nat.lt_one_iff.mp hi
      rfl
  let k' : Kernel := { kernelShell 0x200000 with mem := o.kernel.mem }
  obtain ⟨_, o', _, hinst⟩ := hlater k' rfl rfl (fun _ _ => rfl) kernelShell_low.frames
  have hnone : ramfsRead 2 k'.mem 0x200000 0x200400 shellBin = some none := by
    change ramfsRead 2 o.kernel.mem 0x200000 0x200400 shellBin = some none
    rw [hmem]
    decide
  exact ShellModule.not_installed (k := k') hnone hinst

end FrodOS
