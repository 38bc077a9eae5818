import FrodOS.Lib.Ledger
import FrodOS.Pmm.Initialisation

/-!
# Page ownership over whole runs

The bitmap is an account of who owns which page: the pages that initialisation
locked belong to nobody for good, and every other set bit belongs to one live
block. `Accounts` says so by a ledger of blocks; allocation grants, freeing
releases.
-/

namespace FrodOS
open Lib

/-! ### Runs -/

structure Block where
  addr : U32
  count : U32
  deriving DecidableEq

def Block.bytes (x : Block) : Set ℕ :=
  {a | x.addr.toNat ≤ a ∧ a < x.addr.toNat + x.count.toNat * 4096}

def Block.pages (x : Block) : Set ℕ :=
  {q | x.addr.toNat / 4096 ≤ q ∧ q < x.addr.toNat / 4096 + x.count.toNat}

/-- A run from the bitmap `b₀`: the bitmap reached and the blocks still live. -/
inductive PmmRun (b₀ : Bitmap) : Bitmap → List Block → Prop where
  | start : PmmRun b₀ b₀ []
  | alloc {b : Bitmap} {live : List Block} (h : PmmRun b₀ b live) (count : U32)
    (hne : (pmmAllocPages b count).1 ≠ 0) :
    PmmRun b₀ (pmmAllocPages b count).2 (⟨(pmmAllocPages b count).1, count⟩ :: live)
  | refused {b : Bitmap} {live : List Block} (h : PmmRun b₀ b live) (count : U32)
    (hz : (pmmAllocPages b count).1 = 0) : PmmRun b₀ (pmmAllocPages b count).2 live
  | free {b : Bitmap} {live : List Block} (h : PmmRun b₀ b live) {x : Block} (hx : x ∈ live) :
    PmmRun b₀ (pmmFreePages b x.addr x.count) (live.erase x)

def lockedPages (b : Bitmap) : Set ℕ := {q | q < 1024 * 32 → b.bit q = true}

/-- The live blocks account for the bitmap: they are the live blocks of a ledger over
the pages of `b₀`, and its taken pages are the locked ones. -/
structure Accounts (b₀ b : Bitmap) (live : List Block) : Prop where
  ledger : ∃ L : Ledger Block.pages (lockedPages b₀), L.live = live ∧ L.taken = lockedPages b
  aligned : ∀ x ∈ live, x.addr.toNat % 4096 = 0
  inside : ∀ x ∈ live, x.addr.toNat / 4096 + x.count.toNat ≤ 1024 * 32

theorem accounts_start (b₀ : Bitmap) : Accounts b₀ b₀ [] where
  ledger := ⟨.empty, rfl, Ledger.taken_empty⟩
  aligned := by simp
  inside := by simp

theorem Accounts.grant {b₀ b b' : Bitmap} {live : List Block} (h : Accounts b₀ b live) {start : ℕ}
    {x : Block} (haddr : x.addr.toNat = start * 4096) (hend : start + x.count.toNat ≤ 1024 * 32)
    (hfree : RunFree b start x.count.toNat)
    (hbits : ∀ q < 1024 * 32, b'.bit q =
      (decide (start ≤ q ∧ q < start + x.count.toNat) || b.bit q)) :
    Accounts b₀ b' (x :: live) := by
  obtain ⟨L, hL, hT⟩ := h.ledger
  have hpages : x.pages = {q | start ≤ q ∧ q < start + x.count.toNat} := by
    rw [Block.pages, haddr, Nat.mul_div_cancel _ (by omega)]
  have hdis : Disjoint x.pages L.taken := by
    rw [hpages, hT, Set.disjoint_left]
    rintro q ⟨hlo, hhi⟩ hq
    have hf := hfree (q - start) (by omega)
    rw [show start + (q - start) = q by omega] at hf
    rw [hq hf.1] at hf
    cases hf.2
  refine ⟨⟨L.grant x hdis, congrArg _ hL, ?_⟩, ?_, ?_⟩
  · rw [L.taken_grant, hpages, hT]
    ext q
    simp only [lockedPages, Set.mem_union, Set.mem_ofPred_eq]
    by_cases hq : q < 1024 * 32
    · rw [hbits q hq]
      simp [hq]
    · simp [hq]
  · intro y hy
    rcases List.mem_cons.mp hy with rfl | hy
    · rw [haddr, Nat.mul_mod_left]
    · exact h.aligned y hy
  · intro y hy
    rcases List.mem_cons.mp hy with rfl | hy
    · rw [haddr, Nat.mul_div_cancel _ (by omega)]
      exact hend
    · exact h.inside y hy

theorem Accounts.release {b₀ b : Bitmap} {live : List Block} (h : Accounts b₀ b live) {x : Block}
    (hx : x ∈ live) : Accounts b₀ (pmmFreePages b x.addr x.count) (live.erase x) := by
  obtain ⟨L, rfl, hT⟩ := h.ledger
  refine ⟨⟨L.release x, rfl, ?_⟩, fun y hy => h.aligned y (List.mem_of_mem_erase hy),
    fun y hy => h.inside y (List.mem_of_mem_erase hy)⟩
  rw [L.taken_release hx, hT]
  ext q
  simp only [lockedPages, Block.pages, Set.mem_sdiff, Set.mem_ofPred_eq]
  by_cases hq : q < 1024 * 32
  · rw [bit_freePages _ _ _ _ (h.inside x hx) hq]
    simp only [hq, forall_const, Bool.and_eq_true, Bool.not_eq_true', decide_eq_false_iff_not]
    tauto
  · have := h.inside x hx
    simp only [hq, false_imp_iff, true_and, iff_true]
    omega

theorem PmmRun.accounts {b₀ b : Bitmap} {live : List Block} (h0 : b₀.bit 0 = true)
    (h : PmmRun b₀ b live) : Accounts b₀ b live := by
  induction h with
  | start => exact accounts_start b₀
  | @alloc b live _ count hne ih =>
    rcases pmmAllocPages_cases b count with ⟨start, _, hfree, hend, _, haddr, hbits⟩ | ⟨_, hnone⟩
    · exact ih.grant haddr hend hfree hbits
    · exact absurd (congrArg Prod.fst hnone) hne
  | @refused b live _ count hz ih =>
    rcases pmmAllocPages_cases b count with ⟨start, hpos, hfree, _, _, haddr, _⟩ | ⟨_, hnone⟩
    · -- a block at page 0 would look like a refusal, but page 0 stays locked
      have hs : start = 0 := by
        rw [hz] at haddr
        change 0 = start * 4096 at haddr
        omega
      obtain ⟨L, _, hT⟩ := ih.ledger
      have hmem : 0 ∈ lockedPages b := by
        rw [← hT]
        exact Or.inl fun _ => h0
      have hf := (hfree 0 hpos).2
      rw [hs, hmem (by omega)] at hf
      cases hf
    · rw [hnone]
      exact ih
  | free _ hx ih => exact ih.release hx

def freeAll (b : Bitmap) (order : List Block) : Bitmap :=
  order.foldl (fun b x => pmmFreePages b x.addr x.count) b

theorem PmmRun.freeAll {b₀ b : Bitmap} {live order : List Block} (h : PmmRun b₀ b live)
    (hp : order.Perm live) : PmmRun b₀ (freeAll b order) [] := by
  induction order generalizing b live with
  | nil =>
    obtain rfl := List.nil_perm.mp hp
    exact h
  | cons x rest ih =>
    obtain ⟨hx, hrest⟩ := List.cons_perm_iff_perm_erase.mp hp
    exact ih (h.free hx) hrest

theorem Accounts.eq_of_nil {b₀ b : Bitmap} (h : Accounts b₀ b []) : b = b₀ := by
  obtain ⟨L, hL, hT⟩ := h.ledger
  have hsame : lockedPages b₀ = lockedPages b := by
    rw [← hT, Ledger.taken, hL]
    simp
  refine BitArray.ext_bit fun q hq => ?_
  have hiff : q ∈ lockedPages b ↔ q ∈ lockedPages b₀ := by rw [hsame]
  simp only [lockedPages, Set.mem_ofPred_eq, hq, forall_const] at hiff
  exact Bool.eq_iff_iff.mpr hiff

/-- Page ownership: initialisation ends, and in every run from its end the set bits
are the initially locked pages and the pages of exactly one live block each, live
blocks are apart from each other, from low memory, from the kernel and from what the
memory map locked, and freeing them all in any order gives back the initial bitmap. -/
theorem pmm_ownership (mem_size kernel_end : U32) (hm : mem_size ≤ 0xFFFFF000)
    (hk : kernel_end ≤ 0xFFFFF000) :
    (∃ fuel b, pmmInit fuel mem_size kernel_end = some b) ∧
      ∀ named b₀, Initialised mem_size kernel_end named b₀ → ∀ b live, PmmRun b₀ b live →
        (∀ q < 1024 * 32, b.bit q = true ↔
          b₀.bit q = true ∨ ∃! i : Fin live.length, q ∈ live[i].pages) ∧
        live.Pairwise (fun x y => Disjoint x.bytes y.bytes) ∧
        (∀ x ∈ live, ∀ a ∈ x.bytes, max 0x100000 kernel_end.toNat ≤ a ∧ a / 4096 < 1024 * 32 ∧
          b₀.bit (a / 4096) = false ∧ a / 4096 ∉ named) ∧
        ∀ order, order.Perm live → freeAll b order = b₀ := by
  have hal := (safeStart_toNat kernel_end hk).1
  have hsafe := (safeStart_toNat kernel_end hk).2.1
  refine ⟨(pmmInit_spec mem_size kernel_end hm hk).1, ?_⟩
  intro named b₀ hinit b live hrun
  have h0 : b₀.bit 0 = true := hinit.locked hm hk (by omega) (Or.inl (by omega))
  have hacc := hrun.accounts h0
  obtain ⟨L, rfl, hT⟩ := hacc.ledger
  have hpage : ∀ x ∈ L.live, ∀ a ∈ x.bytes, a / 4096 ∈ x.pages := by
    rintro x hx a ⟨hlo, hhi⟩
    have := hacc.aligned x hx
    constructor <;> omega
  refine ⟨?_, ?_, ?_, ?_⟩
  · intro q hq
    have hiff := L.mem_taken_iff q
    rw [hT] at hiff
    simpa only [lockedPages, Set.mem_ofPred_eq, hq, forall_const] using hiff
  · refine L.disjoint.imp_of_mem fun {x y} hx hy hdis => Set.disjoint_left.mpr fun a hax hay => ?_
    exact Set.disjoint_left.mp hdis (hpage x hx a hax) (hpage y hy a hay)
  · intro x hx a ha
    have hnot := Set.disjoint_left.mp (L.fresh x hx) (hpage x hx a ha)
    simp only [lockedPages, Set.mem_ofPred_eq, not_forall, Bool.not_eq_true] at hnot
    obtain ⟨hq, hfree⟩ := hnot
    have hout : ∀ h : a / 4096 * 4096 < (safeStart kernel_end).toNat ∨ a / 4096 ∈ named, False := by
      intro hl
      rw [hinit.locked hm hk hq hl] at hfree
      cases hfree
    refine ⟨?_, hq, hfree, fun hn => hout (Or.inr hn)⟩
    by_contra hlt
    exact hout (Or.inl (by omega))
  · intro order hp
    exact ((hrun.freeAll hp).accounts h0).eq_of_nil

def twoPages : Bitmap := (pmmInit 3 0x103000 0x100800).getD fun _ => 0

theorem twoPages_initialised : Initialised 0x103000 0x100800 ∅ twoPages :=
  .bare (show pmmInit 3 0x103000 0x100800 = some twoPages from rfl)

theorem pmm_ownership_two_pages :
    (pmmAllocPages twoPages 1).1 = 0x101000 ∧
      freeAll (pmmAllocPages twoPages 1).2 [⟨(pmmAllocPages twoPages 1).1, 1⟩] = twoPages :=
  ⟨by decide +kernel,
    ((pmm_ownership 0x103000 0x100800 (by decide) (by decide)).2 ∅ twoPages twoPages_initialised _ _
      (.alloc .start 1 (by decide +kernel))).2.2.2 _ (.refl _)⟩

end FrodOS
