import FrodOS.Lib.Run
import FrodOS.Pmm.Ownership
import FrodOS.Pmm.Termination

/-!
# Freeing a refused allocation

`pmm_alloc_pages` reports a failure by NULL, and to `pmm_free_pages` NULL is the address
of page 0. A caller that frees whatever it got opens pages that nobody may ever
have, and later allocations hand them out.
-/

namespace FrodOS
open Lib

/-! ### Calls -/

inductive PmmCall where
  | alloc (count : U32)
  | free (x : Block)

/-- One call on the bitmap and the results not freed yet, NULL among them. -/
def PmmCall.run (s : Bitmap × List Block) : PmmCall → (Bitmap × List Block) × U32
  | .alloc count =>
    let r := pmmAllocPages s.1 count
    ((r.2, ⟨r.1, count⟩ :: s.2), r.1)
  | .free x => ((pmmFreePages s.1 x.addr x.count, s.2.erase x), 0)

def OwnsArgument (s : Bitmap × List Block) : PmmCall → Prop
  | .alloc _ => True
  | .free x => x ∈ s.2

/-- The call leaves the pages locked that were so in `b₀`, and it changes nothing if it
is an allocation that answers NULL. -/
structure KeepsReserved (b₀ : Bitmap) (s : Bitmap × List Block) (c : PmmCall) : Prop where
  locked : Within b₀ (c.run s).1.1
  refused : ∀ count, c = .alloc count → (c.run s).2 = 0 → (c.run s).1.1 = s.1

/-- The call does not free a NULL result over pages locked in `b₀`; and, where the end of
the kernel was so high that its page boundary wrapped to 0, it does not ask for a run
that starts at page 0. -/
def Harmless (b₀ : Bitmap) (kernel_end : U32) (s : Bitmap × List Block) : PmmCall → Prop
  | .alloc count => kernel_end ≤ 0xFFFFF000 ∨ count = 0 ∨ ¬ RunFree s.1 0 count.toNat
  | .free x => x.addr = 0 → ∀ q < 1024 * 32, q < x.count.toNat → b₀.bit q = false

/-! ### Page 0 -/

/-- Freeing from NULL opens the pages from 0 on, also where the addresses wrap. -/
theorem bit_unlockPages_null (b : Bitmap) (n q : ℕ) (hq : q < 1024 * 32) :
    (runPages pmmUnlockPage b 0 n).bit q = (!decide (q < n) && b.bit q) := by
  induction n with
  | zero =>
    rw [decide_eq_false (Nat.not_lt_zero q), Bool.not_false, Bool.true_and]
    rfl
  | succ n ih =>
    have haddr : (off (0 : U32) (n * 4096)).toNat = n * 4096 % 2 ^ 32 := by
      rw [off_toNat_mod]
      exact congrArg (· % 2 ^ 32) (Nat.zero_add _)
    rw [runPages, bit_unlockPage _ _ q hq, ih, haddr]
    by_cases hlt : q < n
    · rw [decide_eq_true hlt, decide_eq_true (by omega : q < n + 1), Bool.not_true, Bool.false_and,
        Bool.and_false]
    · rw [decide_eq_false hlt, Bool.not_false, Bool.true_and]
      refine congrArg (fun d => !d && b.bit q) (decide_eq_decide.mpr ?_)
      omega

theorem pmmAllocPages_at_null {b : Bitmap} {count : U32} (h : RunFree b 0 count.toNat) :
    (pmmAllocPages b count).1 = 0 := by
  rcases pmmAllocPages_cases b count with ⟨start, _, _, _, hmin, haddr, _⟩ | ⟨_, hsame⟩
  · have h0 : start = 0 := by
      by_contra hne
      exact hmin 0 (by omega) h
    rw [h0] at haddr
    exact BitVec.eq_of_toNat_eq haddr
  · exact congrArg Prod.fst hsame

/-- An answer NULL is a refusal unless it is the address of page 0. -/
theorem pmmAllocPages_null_iff {b : Bitmap} {count : U32} (hz : (pmmAllocPages b count).1 = 0) :
    (pmmAllocPages b count).2 = b ↔ count = 0 ∨ ¬ RunFree b 0 count.toNat := by
  rcases pmmAllocPages_cases b count with ⟨start, hpos, hfree, _, _, haddr, hbits⟩ | ⟨hnone, hsame⟩
  · have h0 : start = 0 := by
      rw [hz] at haddr
      change 0 = start * 4096 at haddr
      omega
    subst h0
    have hne : count ≠ 0 := fun hc => by
      rw [hc] at hpos
      exact absurd hpos (Nat.lt_irrefl 0)
    simp only [hne, hfree, not_true_eq_false, or_self, iff_false]
    intro he
    have hbit := hbits 0 (by omega)
    rw [he, (hfree 0 hpos).2, decide_eq_true (by omega), Bool.true_or] at hbit
    cases hbit
  · simp only [hsame, true_iff]
    exact hnone.imp_right fun hn => hn 0 (by omega)

theorem pmmInit_bit_zero {fuel : ℕ} {mem_size kernel_end : U32} {b₀ : Bitmap}
    (h : pmmInit fuel mem_size kernel_end = some b₀) (hk : kernel_end ≤ 0xFFFFF000) : b₀.bit 0 = true := by
  have hm := (pmmInit_ends_iff mem_size kernel_end).mp ⟨fuel, b₀, h⟩
  have hsafe := (safeStart_toNat kernel_end hk).2.1
  rw [(pmmInit_spec mem_size kernel_end hm hk).2 fuel b₀ h 0 (by omega), decide_eq_false (by omega),
    Bool.not_false]

/-! ### The invariant -/

/-- The pages locked in `b₀` still are, and a result that is not NULL lies wholly in
pages open in `b₀`. -/
structure Held (b₀ : Bitmap) (s : Bitmap × List Block) : Prop where
  locked : Within b₀ s.1
  inside : ∀ x ∈ s.2, x.addr ≠ 0 → x.addr.toNat / 4096 + x.count.toNat ≤ 1024 * 32
  opened : ∀ x ∈ s.2, x.addr ≠ 0 → ∀ q ∈ x.pages, b₀.bit q = false

theorem held_start (b₀ : Bitmap) : Held b₀ (b₀, []) := ⟨Within.refl b₀, by simp, by simp⟩

theorem Held.alloc {b₀ : Bitmap} {s : Bitmap × List Block} (h : Held b₀ s) (count : U32) :
    Held b₀ ((PmmCall.alloc count).run s).1 := by
  simp only [PmmCall.run]
  rcases pmmAllocPages_cases s.1 count with ⟨start, _, hfree, hend, _, haddr, hbits⟩ | ⟨_, hsame⟩
  · have hpage : (pmmAllocPages s.1 count).1.toNat / 4096 = start := by omega
    refine ⟨fun q hq hb => ?_, fun x hx hne => ?_, fun x hx hne q hq => ?_⟩
    · rw [hbits q hq, h.locked q hq hb, Bool.or_true]
    · rcases List.mem_cons.mp hx with rfl | hx
      · simp only [hpage]
        exact hend
      · exact h.inside x hx hne
    · rcases List.mem_cons.mp hx with rfl | hx
      · obtain ⟨hlo, hhi⟩ := hq
        simp only [hpage] at hlo hhi
        obtain ⟨hlt, hopen⟩ := hfree (q - start) (by omega)
        rw [Nat.add_sub_cancel' hlo] at hlt hopen
        -- a page locked in b₀ would be locked now
        refine Bool.eq_false_iff.mpr fun hb => ?_
        rw [h.locked q hlt hb] at hopen
        cases hopen
      · exact h.opened x hx hne q hq
  · rw [hsame]
    refine ⟨h.locked, fun x hx hne => ?_, fun x hx hne => ?_⟩
    · rcases List.mem_cons.mp hx with rfl | hx
      · exact absurd rfl hne
      · exact h.inside x hx hne
    · rcases List.mem_cons.mp hx with rfl | hx
      · exact absurd rfl hne
      · exact h.opened x hx hne

theorem Held.within_free {b₀ : Bitmap} {s : Bitmap × List Block} (h : Held b₀ s) {x : Block} (hx : x ∈ s.2)
    (hnull : x.addr = 0 → ∀ q < 1024 * 32, q < x.count.toNat → b₀.bit q = false) :
    Within b₀ (pmmFreePages s.1 x.addr x.count) := by
  intro q hq hb
  have hnot : ∀ {p : Prop}, (p → b₀.bit q = false) → ¬ p := fun hp hc => by
    rw [hp hc] at hb
    cases hb
  by_cases hz : x.addr = 0
  · rw [pmmFreePages, hz, bit_unlockPages_null _ _ q hq, h.locked q hq hb,
      decide_eq_false (hnot (hnull hz q hq)), Bool.not_false, Bool.and_self]
  · have hout : ¬ (x.addr.toNat / 4096 ≤ q ∧ q < x.addr.toNat / 4096 + x.count.toNat) :=
      hnot (h.opened x hx hz q)
    rw [bit_freePages _ _ _ q (h.inside x hx hz) hq, h.locked q hq hb, decide_eq_false hout,
      Bool.not_false, Bool.and_self]

theorem Held.run {b₀ : Bitmap} {s : Bitmap × List Block} (h : Held b₀ s) {c : PmmCall}
    (hk : KeepsReserved b₀ s c) : Held b₀ (c.run s).1 := by
  cases c with
  | alloc count => exact h.alloc count
  | free x =>
    refine ⟨hk.locked, fun y hy => ?_, fun y hy => ?_⟩
    · exact h.inside y (List.mem_of_mem_erase hy)
    · exact h.opened y (List.mem_of_mem_erase hy)

theorem Held.keepsReserved_iff {b₀ : Bitmap} {kernel_end : U32} {s : Bitmap × List Block} (h : Held b₀ s)
    (h0 : kernel_end ≤ 0xFFFFF000 → b₀.bit 0 = true) {c : PmmCall} (hc : OwnsArgument s c) :
    KeepsReserved b₀ s c ↔ Harmless b₀ kernel_end s c := by
  cases c with
  | alloc count =>
    constructor
    · intro hk
      by_cases hfree : count ≠ 0 ∧ RunFree s.1 0 count.toNat
      · have hnull := pmmAllocPages_at_null hfree.2
        exact Or.inr ((pmmAllocPages_null_iff hnull).mp (hk.refused count rfl hnull))
      · tauto
    · intro hh
      refine ⟨(h.alloc count).locked, fun n hn hz => ?_⟩
      obtain rfl := PmmCall.alloc.inj hn
      refine (pmmAllocPages_null_iff hz).mpr ?_
      rcases hh with hk | hno
      · -- page 0 was locked at the start and so it is now
        have hbit := h.locked 0 (by omega) (h0 hk)
        by_cases hc : count = 0
        · exact Or.inl hc
        · have hpos : 0 < count.toNat := Nat.pos_of_ne_zero fun hn => hc (BitVec.eq_of_toNat_eq hn)
          exact Or.inr fun hfree => hfree.ne_zero hbit hpos rfl
      · exact hno
  | free x =>
    constructor
    · intro hk hz q hq hlt
      refine Bool.eq_false_iff.mpr fun hb => ?_
      have hbit : (pmmFreePages s.1 x.addr x.count).bit q = true := hk.locked q hq hb
      rw [pmmFreePages, hz, bit_unlockPages_null _ _ q hq, decide_eq_true hlt, Bool.not_true,
        Bool.false_and] at hbit
      cases hbit
    · intro hh
      refine ⟨h.within_free hc hh, fun n hn => ?_⟩
      cases hn

/-- Freeing whatever was returned is safe in exactly the runs without a free of NULL over
reserved pages. -/
theorem pmm_frees_safe_iff {fuel : ℕ} {mem_size kernel_end : U32} {b₀ : Bitmap}
    (hinit : pmmInit fuel mem_size kernel_end = some b₀) (calls : List PmmCall)
    (hcalls : Along PmmCall.run OwnsArgument (b₀, []) calls) :
    Along PmmCall.run (KeepsReserved b₀) (b₀, []) calls ↔
      Along PmmCall.run (Harmless b₀ kernel_end) (b₀, []) calls :=
  along_iff_of_invariant (Held b₀)
    (fun _ _ hs hc => hs.keepsReserved_iff (pmmInit_bit_zero hinit) hc)
    (fun _ _ hs _ hk => hs.run hk) (held_start b₀) hcalls

def refusedAndFreed : List PmmCall := [.alloc 3, .free ⟨0, 3⟩]

theorem twoPages_refuses : pmmAllocPages twoPages 3 = (0, twoPages) := by
  have hnone : findStart twoPages 3 = none := by decide +kernel
  simp only [pmmAllocPages, show (3 : U32) ≠ 0 by decide, if_false, show (3 : U32).toNat = 3 from rfl, hnone]

theorem refusedAndFreed_owned : Along PmmCall.run OwnsArgument (twoPages, []) refusedAndFreed := by
  refine ⟨trivial, ?_, trivial⟩
  simp only [PmmCall.run, twoPages_refuses]
  exact List.mem_singleton.mpr rfl

theorem pmm_frees_safe_iff_refused :
    Along PmmCall.run (KeepsReserved twoPages) (twoPages, []) refusedAndFreed ↔
      Along PmmCall.run (Harmless twoPages 0x100800) (twoPages, []) refusedAndFreed :=
  pmm_frees_safe_iff (show pmmInit 3 0x103000 0x100800 = some twoPages from rfl) refusedAndFreed
    refusedAndFreed_owned

theorem pmm_frees_not_safe : ¬ ∀ (fuel : ℕ) (mem_size kernel_end : U32) (b₀ : Bitmap) (calls : List PmmCall),
    pmmInit fuel mem_size kernel_end = some b₀ → Along PmmCall.run OwnsArgument (b₀, []) calls →
    Along PmmCall.run (KeepsReserved b₀) (b₀, []) calls := by
  intro h
  have hinit : pmmInit 3 0x103000 0x100800 = some twoPages := rfl
  have h0 := pmmInit_bit_zero hinit (by decide)
  obtain ⟨_, hfree, _⟩ := h 3 0x103000 0x100800 twoPages refusedAndFreed hinit refusedAndFreed_owned
  have hbit : (pmmFreePages twoPages 0 3).bit 0 = true := by
    have hkept := hfree.locked 0 (by omega) h0
    simpa only [PmmCall.run, twoPages_refuses] using hkept
  rw [pmmFreePages, bit_unlockPages_null _ _ 0 (by omega)] at hbit
  cases hbit

end FrodOS
