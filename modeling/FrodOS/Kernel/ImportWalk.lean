import FrodOS.Kernel.ImportComplete

/-!
# Where the import walks

The loop steps by 512 bytes and the file size rounded up, modulo `2 ^ 32`, and it
checks neither sum. `HeaderAt` walks the same way with integers, so it says which
headers the module really has; the loop follows it for as long as no step leaves
the space below `0xFFFFFE00` and every name ends.
-/

namespace FrodOS
open Lib

def step (m : Ram) (h : U32) : ℕ := 512 + (aligned (fileSize m h)).toNat

/-- The headers of the module from `ramfs_start` on, by integer arithmetic. -/
inductive HeaderAt (m : Ram) (ramfs_start ramfs_end : U32) : U32 → Prop where
  | first (h : ramfs_start.toNat + 512 ≤ ramfs_end.toNat) :
    HeaderAt m ramfs_start ramfs_end ramfs_start
  | next {h h' : U32} (hh : HeaderAt m ramfs_start ramfs_end h) (h0 : m h ≠ 0)
    (hstep : h'.toNat = h.toNat + step m h) (hin : h'.toNat + 512 ≤ ramfs_end.toNat) :
    HeaderAt m ramfs_start ramfs_end h'

/-- Every header that is not blank has a name that ends and a step that does not run
into the last 512 bytes of memory. -/
def StepsFit (m : Ram) (ramfs_start ramfs_end : U32) : Prop :=
  ∀ h, HeaderAt m ramfs_start ramfs_end h → m h ≠ 0 →
    (∃ j < 2 ^ 31, view m h j = 0) ∧ h.toNat + step m h < 0xFFFFFE00

/-- The loop ends, decodes headers inside the module only, and moves 512 bytes or more
in every pass. -/
structure WalksModule (m : Ram) (ramfs_start ramfs_end : U32) (storage : Storage) : Prop where
  ends : ∃ r, Returns (importPass m ramfs_end) (ramfs_start, storage) r
  inside : ∀ s, Reached (importPass m ramfs_end) (ramfs_start, storage) s →
    s.1 + 512 ≤ ramfs_end → ramfs_start.toNat ≤ s.1.toNat ∧ s.1.toNat + 512 ≤ ramfs_end.toNat
  advances : ∀ s s', Reached (importPass m ramfs_end) (ramfs_start, storage) s →
    importPass m ramfs_end s = some (.next s') → s.1.toNat + 512 ≤ s'.1.toNat

/-! ### Arithmetic of a step -/

theorem next_toNat (m : Ram) (h : U32) :
    (h + (512 + aligned (fileSize m h))).toNat = (h.toNat + step m h) % 2 ^ 32 := by
  rw [BitVec.toNat_add, BitVec.toNat_add, Nat.add_mod_mod]
  rfl

theorem next_toNat_of_lt {m : Ram} {h : U32} (hlt : h.toNat + step m h < 2 ^ 32) :
    (h + (512 + aligned (fileSize m h))).toNat = h.toNat + step m h := by
  rw [next_toNat, Nat.mod_eq_of_lt hlt]

theorem lt_of_advance {m : Ram} {h : U32}
    (hadv : h.toNat + 512 ≤ (h + (512 + aligned (fileSize m h))).toNat) :
    h.toNat + step m h < 2 ^ 32 := by
  have hal := aligned_lt (fileSize m h)
  have hh := h.isLt
  have hstep : step m h = 512 + (aligned (fileSize m h)).toNat := rfl
  rw [next_toNat] at hadv
  by_contra hge
  have hmod : (h.toNat + step m h) % 2 ^ 32 = h.toNat + step m h - 2 ^ 32 := by
    rw [Nat.mod_eq_sub_mod (by omega), Nat.mod_eq_of_lt (by omega)]
  omega

theorem HeaderAt.bounds {m : Ram} {ramfs_start ramfs_end h : U32}
    (hh : HeaderAt m ramfs_start ramfs_end h) :
    ramfs_start.toNat ≤ h.toNat ∧ h.toNat + 512 ≤ ramfs_end.toNat := by
  induction hh with
  | first h => exact ⟨le_rfl, h⟩
  | next _ _ hstep hin ih => exact ⟨by omega, hin⟩

variable {m : Ram} {ramfs_start ramfs_end : U32} {storage : Storage}

/-! ### Steps that fit keep the loop in the module -/

/-- At the loop head the address is a header of the module or past the last one. -/
structure OnWalk (m : Ram) (ramfs_start ramfs_end : U32) (s : U32 × Storage) : Prop where
  low : ramfs_start.toNat ≤ s.1.toNat
  high : s.1.toNat < 0xFFFFFE00
  header : s.1.toNat + 512 ≤ ramfs_end.toNat → HeaderAt m ramfs_start ramfs_end s.1

theorem onWalk_start (m : Ram) (storage : Storage) (hlt : ramfs_start < ramfs_end)
    (hend : ramfs_end < 0xFFFFFE00) :
    OnWalk m ramfs_start ramfs_end (ramfs_start, storage) where
  low := le_rfl
  high := Nat.lt_trans hlt hend
  header h := .first h

theorem onWalk_pass (hfit : StepsFit m ramfs_start ramfs_end) {s : U32 × Storage}
    (hs : OnWalk m ramfs_start ramfs_end s) : ∃ c, importPass m ramfs_end s = some c ∧
      ∀ s', c = .next s' → OnWalk m ramfs_start ramfs_end s' ∧ s.1.toNat + 512 ≤ s'.1.toNat := by
  by_cases hin : s.1 + 512 ≤ ramfs_end
  · have hin' := (guard_iff hs.high).mp hin
    by_cases h0 : m s.1 = 0
    · exact ⟨_, importPass_blank hin h0, fun s' he => by cases he⟩
    · have hh := hs.header hin'
      obtain ⟨hname, hstep⟩ := hfit s.1 hh h0
      obtain ⟨p, hp⟩ := (realFilename_isSome_iff (view m s.1)).mpr hname
      refine ⟨_, importPass_entry hin h0 hp, fun s' he => ?_⟩
      obtain rfl := Ctl.next.inj he
      have hnext : (s.1 + (512 + aligned (fileSize m s.1))).toNat = s.1.toNat + step m s.1 :=
        next_toNat_of_lt (by omega)
      have hlow := hs.low
      have hmin : 512 ≤ step m s.1 := Nat.le_add_right 512 _
      exact ⟨⟨by simp only [hnext]; omega, by simp only [hnext]; exact hstep,
        fun hin'' => .next hh h0 hnext hin''⟩, by simp only [hnext]; omega⟩
  · exact ⟨_, importPass_outside hin, fun s' he => by cases he⟩

theorem walksModule_of_stepsFit (hlt : ramfs_start < ramfs_end) (hend : ramfs_end < 0xFFFFFE00)
    (hfit : StepsFit m ramfs_start ramfs_end) : WalksModule m ramfs_start ramfs_end storage := by
  have hstart := onWalk_start m storage hlt hend
  have hreach : ∀ s, Reached (importPass m ramfs_end) (ramfs_start, storage) s →
      OnWalk m ramfs_start ramfs_end s := fun s hs => hs.invariant _ hstart fun t t' ht he => by
    obtain ⟨c, hc, hnext⟩ := onWalk_pass hfit ht
    rw [he] at hc
    exact (hnext t' (Option.some.inj hc).symm).1
  refine ⟨?_, fun s hs hin => ?_, fun s s' hs he => ?_⟩
  · refine returns_of_measure _ (OnWalk m ramfs_start ramfs_end) (fun s => 2 ^ 32 - s.1.toNat) ?_ hstart
    intro s hs
    obtain ⟨c, hc, hnext⟩ := onWalk_pass hfit hs
    refine ⟨c, hc, fun s' he => ⟨(hnext s' he).1, ?_⟩⟩
    have hadv := (hnext s' he).2
    have hlt := s'.1.isLt
    omega
  · have hw := hreach s hs
    exact ⟨hw.low, (guard_iff hw.high).mp hin⟩
  · obtain ⟨c, hc, hnext⟩ := onWalk_pass hfit (hreach s hs)
    rw [he] at hc
    exact (hnext s' (Option.some.inj hc).symm).2

/-! ### A loop that stays in the module takes steps that fit -/

theorem pass_of_returns {r : Storage} {s : U32 × Storage} (hr : Returns (importPass m ramfs_end) s r)
    (hin : s.1 + 512 ≤ ramfs_end) (h0 : m s.1 ≠ 0) : ∃ p, realFilename (view m s.1) = some p ∧
      importPass m ramfs_end s = some (.next (s.1 + (512 + aligned (fileSize m s.1)),
        importEntry m ramfs_end s.1 (off s.1 p) s.2)) := by
  cases hp : realFilename (view m s.1) with
  | some p => exact ⟨p, rfl, importPass_entry hin h0 hp⟩
  | none =>
    obtain ⟨n, hn⟩ := hr
    cases n with
    | zero => cases hn
    | succ n =>
      simp only [loop, importPass, hin, if_true, h0, if_false, hp] at hn
      cases hn

theorem reached_header (hend : ramfs_end < 0xFFFFFE00)
    (hw : WalksModule m ramfs_start ramfs_end storage) {h : U32}
    (hh : HeaderAt m ramfs_start ramfs_end h) :
    ∃ s, Reached (importPass m ramfs_end) (ramfs_start, storage) s ∧ s.1 = h := by
  have hendn : ramfs_end.toNat < 0xFFFFFE00 := hend
  induction hh with
  | first _ => exact ⟨_, .start, rfl⟩
  | @next h h' hh h0 hstep hin ih =>
    obtain ⟨s, hs, rfl⟩ := ih
    have hb := hh.bounds
    have hguard : s.1 + 512 ≤ ramfs_end := (guard_iff (by omega)).mpr hb.2
    obtain ⟨r, hr⟩ := hw.ends
    obtain ⟨p, _, hpass⟩ := pass_of_returns (hr.of_reached hs) hguard h0
    refine ⟨_, hs.pass hpass, BitVec.eq_of_toNat_eq ?_⟩
    simp only
    rw [next_toNat_of_lt (by omega), hstep]

theorem stepsFit_of_walksModule (hend : ramfs_end < 0xFFFFFE00)
    (hw : WalksModule m ramfs_start ramfs_end storage) : StepsFit m ramfs_start ramfs_end := by
  have hendn : ramfs_end.toNat < 0xFFFFFE00 := hend
  intro h hh h0
  obtain ⟨s, hs, rfl⟩ := reached_header hend hw hh
  have hb := hh.bounds
  have hguard : s.1 + 512 ≤ ramfs_end := (guard_iff (by omega)).mpr hb.2
  obtain ⟨r, hr⟩ := hw.ends
  obtain ⟨p, hp, hpass⟩ := pass_of_returns (hr.of_reached hs) hguard h0
  refine ⟨(realFilename_isSome_iff _).mp ⟨p, hp⟩, ?_⟩
  have hlt := lt_of_advance (hw.advances s _ hs hpass)
  have hnext := next_toNat_of_lt hlt
  by_contra hge
  -- in the last 512 bytes the guard wraps to a small number and lets the header through
  have hwrap : s.1 + (512 + aligned (fileSize m s.1)) + 512 ≤ ramfs_end := by
    rw [BitVec.le_def, BitVec.toNat_add, hnext]
    change (s.1.toNat + step m s.1 + 512) % 2 ^ 32 ≤ ramfs_end.toNat
    rw [Nat.mod_eq_sub_mod (by omega), Nat.mod_eq_of_lt (by omega)]
    omega
  have hin := (hw.inside _ (hs.pass hpass) hwrap).2
  simp only [hnext] at hin
  omega

/-- The import loop is total and stays inside the module exactly when every header of
it that is not blank has a name that ends and a size that does not carry the loop
into the last 512 bytes of memory or past them. -/
theorem import_walks_module_iff (m : Ram) (ramfs_start ramfs_end : U32) (s₀ : Storage)
    (hlt : ramfs_start < ramfs_end) (hend : ramfs_end < 0xFFFFFE00) :
    WalksModule m ramfs_start ramfs_end (frodfsInit s₀) ↔ StepsFit m ramfs_start ramfs_end :=
  ⟨stepsFit_of_walksModule hend, walksModule_of_stepsFit hlt hend⟩

theorem fourFiles_steps : step fourFiles 0x400000 = 1024 ∧ step fourFiles 0x400400 = 1024 ∧
    step fourFiles 0x400800 = 512 ∧ step fourFiles 0x400A00 = 1024 := by decide +kernel

theorem headerAt_fourFiles {h : U32} (hh : HeaderAt fourFiles 0x400000 0x400E00 h) :
    h = 0x400000 ∨ h = 0x400400 ∨ h = 0x400800 ∨ h = 0x400A00 := by
  obtain ⟨h₁, h₂, h₃, h₄⟩ := fourFiles_steps
  induction hh with
  | first _ => exact Or.inl rfl
  | @next h h' _ _ hstep hin ih =>
    rcases ih with rfl | rfl | rfl | rfl
    · rw [h₁] at hstep
      exact Or.inr (Or.inl (BitVec.eq_of_toNat_eq hstep))
    · rw [h₂] at hstep
      exact Or.inr (Or.inr (Or.inl (BitVec.eq_of_toNat_eq hstep)))
    · rw [h₃] at hstep
      exact Or.inr (Or.inr (Or.inr (BitVec.eq_of_toNat_eq hstep)))
    · -- behind the last entry the module ends
      rw [hstep, h₄] at hin
      exact absurd hin (by decide)

theorem import_walks_module_files : WalksModule fourFiles 0x400000 0x400E00 (frodfsInit bootStorage) := by
  refine (import_walks_module_iff fourFiles 0x400000 0x400E00 bootStorage (by decide) (by decide)).mpr ?_
  obtain ⟨h₁, h₂, h₃, h₄⟩ := fourFiles_steps
  intro h hh _
  rcases headerAt_fourFiles hh with rfl | rfl | rfl | rfl
  · exact ⟨⟨99, by omega, rfl⟩, by rw [h₁]; decide⟩
  · exact ⟨⟨99, by omega, rfl⟩, by rw [h₂]; decide⟩
  · exact ⟨⟨99, by omega, rfl⟩, by rw [h₃]; decide⟩
  · exact ⟨⟨99, by omega, rfl⟩, by rw [h₄]; decide⟩

/-- A header at 0x400000 with the name "a" and the size field "37777777000". -/
def loopingHeader : Ram := fun a =>
  if a = 0x400000 then 97
  else ([51, 55, 55, 55, 55, 55, 55, 55, 48, 48, 48] : List Byte).getD (a - 0x40007C).toNat 0

theorem import_not_walks_module_looping :
    ¬ ∀ (m : Ram) (ramfs_start ramfs_end : U32) (s₀ : Storage), ramfs_start < ramfs_end →
      ramfs_end < 0xFFFFFE00 → WalksModule m ramfs_start ramfs_end (frodfsInit s₀) := by
  intro h
  have hw := h loopingHeader 0x400000 0x400400 bootStorage (by decide) (by decide)
  have hfit := stepsFit_of_walksModule (by decide) hw 0x400000 (.first (by decide)) (by decide)
  exact absurd hfit.2 (by decide)

end FrodOS
