import FrodOS.Kernel.ImportArchive
import FrodOS.Kernel.LookupWalk

/-!
# Looking up shell.bin

`ramfs_read` walks the headers of the archive up to the one it looks for. It sees
little of each: the fields it reads are the only bytes its walk depends on.
-/

namespace FrodOS
open Lib

/-! ### A header of the archive -/

namespace ArchiveEntry

/-- The bytes of a leading "./". -/
def skip (e : ArchiveEntry) : ℕ := if e.name.take 2 = [46, 47] then 2 else 0

/-- The entry that `ramfs_read("shell.bin")` takes. -/
def IsShell (e : ArchiveEntry) : Prop := e.Regular ∧ e.name.drop e.skip = shellBin

instance : DecidablePred IsShell := fun _ => inferInstanceAs (Decidable (_ ∧ _))

/-- The bytes of the header that a pass of `ramfs_read("shell.bin")` looks at. -/
def LooksAt (e : ArchiveEntry) (i : ℕ) : Prop :=
  i = 0 ∨ (i = 1 ∧ e.name.head? = some 46) ∨ (124 ≤ i ∧ i < 136) ∨ i = 156 ∨
    (e.Regular ∧ e.skip ≤ i ∧ i ≤ e.skip + stop (cstr (e.name.drop e.skip)) (cstr shellBin) 9 0)

theorem skip_eq (e : ArchiveEntry) : e.skip = if [46, 47] <+: e.name then 2 else 0 := by
  unfold skip
  simp only [List.prefix_iff_eq_take, List.length_cons, List.length_nil, eq_comm]

theorem drop_skip (e : ArchiveEntry) : e.name.drop e.skip = stripDot e.name := by
  rw [skip_eq]
  split_ifs with h
  · obtain ⟨rest, hname⟩ := h
    rw [← hname]
    rfl
  · exact (stripDot_eq_self h).symm

theorem IsShell.named {e : ArchiveEntry} (h : e.IsShell) : e.name ≠ [] := by
  intro hn
  have hs := h.2
  rw [hn, List.drop_nil] at hs
  cases hs

theorem LooksAt.lt {e : ArchiveEntry} {i : ℕ} (h : e.LooksAt i) : i < 157 := by
  have hstop := (stop_spec (cstr (e.name.drop e.skip)) (cstr shellBin) 9 0).2.1
  have hskip : e.skip ≤ 2 := by
    unfold skip
    split_ifs <;> omega
  rcases h with h | ⟨h, _⟩ | ⟨_, h⟩ | h | ⟨_, _, h⟩ <;> omega

end ArchiveEntry

namespace HeaderOf

variable {m : Ram} {ramfs_end addr : U32} {e : ArchiveEntry}

theorem skipped (hh : HeaderOf m addr e) : (if m addr = 46 ∧ m (off addr 1) = 47 then 2 else 0) = e.skip := by
  rw [e.skip_eq]
  simp only [dotted_iff hh.name]

theorem shellName (hh : HeaderOf m addr e) : IsCStr (view m (skipDot m addr)) (e.name.drop e.skip) := by
  rw [e.drop_skip]
  exact isCStr_skipDot hh.name

theorem wanted_iff_isShell (hh : HeaderOf m addr e) : Wanted m shellBin addr ↔ e.IsShell := by
  rw [wanted_iff hh.name (by decide), hh.flag, ← e.drop_skip]
  exact Iff.rfl

theorem lookupPass (hh : HeaderOf m addr e)
    (hin : addr.toNat + 512 + padded e.data.length ≤ ramfs_end.toNat) (hne : e.name ≠ []) :
    ramfsPass m ramfs_end shellBin addr =
      some (if e.IsShell then .done (some (off addr 512, BitVec.ofNat 32 e.data.length))
        else .next (off addr (512 + padded e.data.length))) := by
  obtain ⟨_, _, hsize⟩ := hh.fileSize_eq hin
  have h0 : m addr ≠ 0 := by
    have hhead := (hh.name.head_eq_zero_iff).not.mpr hne
    rwa [view, off_zero] at hhead
  simp only [ramfsPass_entry hin h0 hsize, hh.wanted_iff_isShell]

theorem head_dot (hh : HeaderOf m addr e) (h : m addr = 46) : e.name.head? = some 46 := by
  have h0 : view m addr 0 = 46 := by rwa [view, off_zero]
  cases hn : e.name with
  | nil =>
    rw [(hh.name.head_eq_zero_iff).mpr hn] at h0
    cases h0
  | cons a rest =>
    have ha := hh.name.bytes 0 (by simp [hn])
    simp only [h0, hn, List.getElem_cons_zero] at ha
    rw [← ha]
    rfl

theorem looksAt_of_read (hh : HeaderOf m addr e) :
    ∀ i ∈ headerReads m ramfs_end shellBin addr, e.LooksAt i := by
  refine forall_mem_headerReads (Or.inl rfl) (fun hd => Or.inr (Or.inl ⟨rfl, hh.head_dot hd⟩))
    (fun j hj => Or.inr (Or.inr (Or.inl ⟨by omega, by omega⟩))) (by simp [ArchiveEntry.LooksAt])
    fun hreg i hi => ?_
  obtain ⟨j, hj, rfl⟩ := List.mem_map.mp hi
  have hstop := hh.shellName.stop_eq (isCStr_cstr _ hh.shellName.nonzero) (cstr shellBin) 9
  rw [List.mem_range, strcmp] at hj
  change j < stop _ _ 9 0 + 1 at hj
  rw [hstop] at hj
  rw [hh.flag] at hreg
  rw [hh.skipped]
  exact Or.inr (Or.inr (Or.inr (Or.inr ⟨hreg, by omega, by omega⟩)))

theorem lookupPass_congr {m' : Ram} (hh : HeaderOf m addr e)
    (hsame : ∀ i, e.LooksAt i → m' (off addr i) = m (off addr i)) :
    ramfsPass m' ramfs_end shellBin addr = ramfsPass m ramfs_end shellBin addr :=
  ramfsPass_local fun i hi => hsame i (hh.looksAt_of_read i hi)

end HeaderOf

/-! ### The walk -/

theorem extent_before {pre p q : List ArchiveEntry} {e x : ArchiveEntry} (h : pre ++ [e] = p ++ x :: q) :
    extent p ≤ extent pre := by
  rcases snoc_eq_split h with ⟨rfl, _, _⟩ | ⟨q', _, rfl⟩
  · exact le_rfl
  · rw [extent_append]
    exact Nat.le_add_right _ _

/-- `m'` is as good as `m` for passing over the headers of `es`. -/
def SameHeaders (m m' : Ram) (addr : U32) (es : List ArchiveEntry) : Prop :=
  ∀ p x q, es = p ++ x :: q → ∀ i, x.LooksAt i → m' (off addr (extent p + i)) = m (off addr (extent p + i))

variable {m m' : Ram} {ramfs_end addr : U32} {pre post : List ArchiveEntry} {e : ArchiveEntry}

theorem lookup_reached (hl : Layout m ramfs_end addr (pre ++ e :: post))
    (hpre : ∀ x ∈ pre, x.name ≠ [] ∧ ¬ x.IsShell) (hsame : SameHeaders m m' addr pre) :
    Reached (ramfsPass m' ramfs_end shellBin) addr (off addr (extent pre)) ∧
      HeaderOf m (off addr (extent pre)) e ∧
      addr.toNat + extent pre + 512 + padded e.data.length ≤ ramfs_end.toNat := by
  induction pre generalizing addr with
  | nil =>
    cases hl with
    | entry hh hin _ =>
      rw [show extent [] = 0 from rfl, off_zero]
      exact ⟨.start, hh, hin⟩
  | cons x pre ih =>
    obtain ⟨⟨hne, hnot⟩, hrest⟩ := List.forall_mem_cons.mp hpre
    cases hl with
    | entry hh hin rest =>
      have hlt := ramfs_end.isLt
      have hhere : ∀ i, x.LooksAt i → m' (off addr i) = m (off addr i) := fun i hi => by
        have hi' := hsame [] x pre rfl i hi
        rwa [show extent [] = 0 from rfl, Nat.zero_add] at hi'
      have hpass : ramfsPass m' ramfs_end shellBin addr = _ :=
        (hh.lookupPass_congr hhere).trans (hh.lookupPass hin hne)
      rw [if_neg hnot] at hpass
      have hnext : SameHeaders m m' (off addr (512 + padded x.data.length)) pre := by
        intro p y q hp i hi
        have := hsame (x :: p) y q (by rw [hp, List.cons_append]) i hi
        rwa [extent_cons, Nat.add_assoc, ← off_off] at this
      obtain ⟨hreached, hheader, hfits⟩ := ih rest hrest hnext
      rw [off_off, ← extent_cons] at hreached hheader
      have hnat := off_toNat addr (512 + padded x.data.length) (by omega)
      rw [hnat] at hfits
      refine ⟨(Reached.start.pass hpass).trans hreached, hheader, ?_⟩
      rw [extent_cons]
      omega

theorem lookup_found (hl : Layout m ramfs_end addr (pre ++ e :: post))
    (hpre : ∀ x ∈ pre, x.name ≠ [] ∧ ¬ x.IsShell) (he : e.IsShell)
    (hsame : SameHeaders m m' addr (pre ++ [e])) :
    Returns (ramfsPass m' ramfs_end shellBin) addr
      (some (off addr (extent pre + 512), BitVec.ofNat 32 e.data.length)) := by
  have hbefore : SameHeaders m m' addr pre := fun p x q hp =>
    hsame p x (q ++ [e]) (by rw [hp, List.append_assoc, List.cons_append])
  obtain ⟨hreached, hh, hfits⟩ := lookup_reached hl hpre hbefore
  have hlt := ramfs_end.isLt
  have hin : (off addr (extent pre)).toNat + 512 + padded e.data.length ≤ ramfs_end.toNat := by
    rw [off_toNat _ _ (by omega)]
    exact hfits
  have hhere : ∀ i, e.LooksAt i →
      m' (off (off addr (extent pre)) i) = m (off (off addr (extent pre)) i) := fun i hi => by
    rw [off_off]
    exact hsame pre e [] rfl i hi
  have hpass : ramfsPass m' ramfs_end shellBin (off addr (extent pre)) = _ :=
    (hh.lookupPass_congr hhere).trans (hh.lookupPass hin he.named)
  rw [if_pos he, off_off] at hpass
  exact hreached.returns (.of_done hpass)

/-- It ends without a result at the first header of which the first byte is gone. -/
theorem lookup_ended (hl : Layout m ramfs_end addr (pre ++ e :: post))
    (hpre : ∀ x ∈ pre, x.name ≠ [] ∧ ¬ x.IsShell) (hsame : SameHeaders m m' addr pre)
    (hzero : m' (off addr (extent pre)) = 0) :
    Returns (ramfsPass m' ramfs_end shellBin) addr none := by
  obtain ⟨hreached, _, _⟩ := lookup_reached hl hpre hsame
  exact hreached.returns (.of_done (ramfsPass_blank hzero))

end FrodOS
