import FrodOS.Lib.Memory

/-!
# A stack of words in memory

A stack that grows down. What was pushed can be popped after any writes to other places.
-/

namespace Lib

variable {m m' : Mem 32} {sp : BitVec 32} {ws : List (BitVec 32)}

/-- From `sp` on memory holds the words. -/
structure Stack (m : Mem 32) (sp : BitVec 32) (ws : List (BitVec 32)) : Prop where
  fits : Fits sp (4 * ws.length)
  words : ∀ i (h : i < ws.length), load32 m (off sp (4 * i)) = ws[i]

theorem load32_congr {p : BitVec 32} (hfit : Fits p 4)
    (h : ∀ a : BitVec 32, p.toNat ≤ a.toNat → a.toNat < p.toNat + 4 → m' a = m a) : load32 m' p = load32 m p := by
  apply leWord_congr
  intro i hi
  unfold Fits at hfit
  have haddr := off_toNat p i (by omega)
  exact h _ (by omega) (by omega)

namespace Stack

theorem nil (m : Mem 32) (sp : BitVec 32) : Stack m sp [] :=
  ⟨fits_zero sp, fun i hi => absurd hi (Nat.not_lt_zero i)⟩

theorem congr (h : Stack m sp ws)
    (hsame : ∀ a : BitVec 32, sp.toNat ≤ a.toNat → a.toNat < sp.toNat + 4 * ws.length → m' a = m a) :
    Stack m' sp ws where
  fits := h.fits
  words i hi := by
    have hfits := h.fits
    unfold Fits at hfits
    have haddr := off_toNat sp (4 * i) (by omega)
    rw [load32_congr (by unfold Fits; omega) fun a hle hlt => hsame a (by omega) (by omega)]
    exact h.words i hi

theorem sub_toNat (h : 4 ≤ sp.toNat) : (sp - 4).toNat = sp.toNat - 4 :=
  BitVec.toNat_sub_of_le h

theorem off_sub (sp : BitVec 32) (i : ℕ) : off (sp - 4) (4 + i) = off sp i := by
  rw [← off_off]
  congr 1
  exact BitVec.sub_add_cancel sp 4

theorem push (h : Stack m sp ws) (hroom : 4 ≤ sp.toNat) (w : BitVec 32) :
    Stack (store32 m (sp - 4) w) (sp - 4) (w :: ws) := by
  have hsub := sub_toNat hroom
  have hfits := h.fits
  have hlow := sp.isLt
  have hslot : Fits (sp - 4) 4 := by
    unfold Fits
    omega
  refine ⟨?_, fun i hi => ?_⟩
  · unfold Fits at *
    rw [List.length_cons]
    omega
  · cases i with
    | zero =>
      rw [Nat.mul_zero, off_zero]
      exact load32_store32 m _ w (by decide)
    | succ i =>
      rw [List.length_cons] at hi
      unfold Fits at hfits
      have haddr := off_toNat sp (4 * i) (by omega)
      have hshift : 4 * (i + 1) = 4 + 4 * i := by omega
      rw [hshift, off_sub, load32_congr (by unfold Fits; omega) fun a hle hlt => ?_]
      · exact h.words i (by omega)
      · apply store32_outside
        rw [mem_span_iff hslot]
        omega

theorem head {w : BitVec 32} (h : Stack m sp (w :: ws)) : load32 m sp = w := by
  have hfirst := h.words 0 (Nat.zero_lt_succ _)
  rwa [Nat.mul_zero, off_zero] at hfirst

theorem drop {us : List (BitVec 32)} (h : Stack m sp (us ++ ws)) : Stack m (off sp (4 * us.length)) ws := by
  have hfits := h.fits
  unfold Fits at hfits
  rw [List.length_append] at hfits
  have hlow := sp.isLt
  refine ⟨?_, fun i hi => ?_⟩
  · unfold Fits
    rw [off_toNat_mod]
    rcases Nat.lt_or_ge (sp.toNat + 4 * us.length) (2 ^ 32) with hlt | hge
    · rw [Nat.mod_eq_of_lt hlt]
      omega
    · rw [show sp.toNat + 4 * us.length = 2 ^ 32 by omega, Nat.mod_self]
      omega
  · have hword := h.words (us.length + i) (by rw [List.length_append]; omega)
    rw [List.getElem_append_right (by omega)] at hword
    rw [off_off, ← Nat.mul_add, hword]
    simp

/-- Words below a stack make one stack with it. -/
theorem above {us : List (BitVec 32)} (h : Stack m sp us) (hws : Stack m (off sp (4 * us.length)) ws)
    (hfits : Fits sp (4 * (us.length + ws.length))) : Stack m sp (us ++ ws) where
  fits := by
    rw [List.length_append]
    exact hfits
  words i hi := by
    rw [List.length_append] at hi
    rcases Nat.lt_or_ge i us.length with hlt | hge
    · rw [List.getElem_append_left hlt]
      exact h.words i hlt
    · have hword := hws.words (i - us.length) (by omega)
      rw [off_off, ← Nat.mul_add, show us.length + (i - us.length) = i by omega] at hword
      rw [List.getElem_append_right hge]
      exact hword

theorem tail {w : BitVec 32} (h : Stack m sp (w :: ws)) : Stack m (sp + 4) ws := by
  have hsplit : Stack m sp ([w] ++ ws) := h
  exact hsplit.drop

end Stack

/-- From `(m, sp)` on the words were pushed, the last of the list first, to get to `(m', sp')`. -/
structure Pushed (m : Mem 32) (sp : BitVec 32) (ws : List (BitVec 32)) (m' : Mem 32)
    (sp' : BitVec 32) : Prop where
  depth : sp'.toNat + 4 * ws.length = sp.toNat
  stack : Stack m' sp' ws
  outside : ∀ a : BitVec 32, a.toNat < sp'.toNat ∨ sp.toNat ≤ a.toNat → m' a = m a

namespace Pushed

theorem nil (m : Mem 32) (sp : BitVec 32) : Pushed m sp [] m sp := ⟨rfl, .nil m sp, fun _ _ => rfl⟩

theorem push {sp' : BitVec 32} (h : Pushed m sp ws m' sp') (hroom : 4 ≤ sp'.toNat) (w : BitVec 32) :
    Pushed m sp (w :: ws) (store32 m' (sp' - 4) w) (sp' - 4) := by
  have hsub := Stack.sub_toNat hroom
  have hdepth := h.depth
  have hlow := sp'.isLt
  refine ⟨?_, h.stack.push hroom w, fun a ha => ?_⟩
  · rw [List.length_cons]
    omega
  · rw [store32_outside, h.outside a (by omega)]
    rw [mem_span_iff (by unfold Fits; omega)]
    omega

/-- What is pushed comes on top of what is there. -/
theorem onto {us : List (BitVec 32)} {sp' : BitVec 32} (h : Pushed m sp us m' sp') (hws : Stack m sp ws) :
    Stack m' sp' (us ++ ws) := by
  have hdepth := h.depth
  have hlow := sp.isLt
  have hfits := hws.fits
  unfold Fits at hfits
  have hhere : off sp' (4 * us.length) = sp := by
    apply BitVec.eq_of_toNat_eq
    rw [off_toNat _ _ (by omega), hdepth]
  refine h.stack.above ?_ (by unfold Fits; omega)
  rw [hhere]
  exact hws.congr fun a hle _ => h.outside a (Or.inr hle)

theorem append {us : List (BitVec 32)} {sp' sp'' : BitVec 32} {m'' : Mem 32} (h : Pushed m sp ws m' sp')
    (h' : Pushed m' sp' us m'' sp'') : Pushed m sp (us ++ ws) m'' sp'' where
  depth := by
    have hdepth := h.depth
    have hdepth' := h'.depth
    rw [List.length_append]
    omega
  stack := h'.onto h.stack
  outside a ha := by
    have hdepth := h.depth
    have hdepth' := h'.depth
    rw [h'.outside a (by omega), h.outside a (by omega)]

/-- The words stay as long as nothing between the two ends of the stack is written. -/
theorem keep {sp' : BitVec 32} {m'' : Mem 32} (h : Pushed m sp ws m' sp')
    (hsame : ∀ a : BitVec 32, sp'.toNat ≤ a.toNat → a.toNat < sp.toNat → m'' a = m' a) : Stack m'' sp' ws :=
  h.stack.congr fun a hle hlt => hsame a hle (by rw [← h.depth]; exact hlt)

end Pushed

end Lib
