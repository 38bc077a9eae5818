import FrodOS.Lib.Memory
import Mathlib.Data.List.TakeWhile

/-!
# NUL-terminated strings

A view holds the C string `s` when it starts with the bytes of `s`, none of
them NUL, and a NUL follows. `stop` is the index at which the usual comparison
loop `while (*a && *a == *b) { a++; b++; }` ends.
-/

namespace Lib

structure IsCStr (f : View) (s : List Byte) : Prop where
  nonzero : ∀ b ∈ s, b ≠ 0
  bytes : ∀ i (h : i < s.length), f i = s[i]
  nul : f s.length = 0

def cstr (s : List Byte) : View := fun i => s.getD i 0

def ascii (text : String) : List Byte := text.toList.map fun c => BitVec.ofNat 8 c.toNat

theorem isCStr_cstr (s : List Byte) (h : ∀ b ∈ s, b ≠ 0) : IsCStr (cstr s) s where
  nonzero := h
  bytes i hi := by simp [cstr, hi]
  nul := by simp [cstr]

theorem IsCStr.ne_zero {f : View} {s : List Byte} (h : IsCStr f s) {i : ℕ} (hi : i < s.length) :
    f i ≠ 0 := by
  rw [h.bytes i hi]
  exact h.nonzero _ (List.getElem_mem hi)

theorem IsCStr.unique {f : View} {s t : List Byte} (hs : IsCStr f s) (ht : IsCStr f t) : s = t := by
  have hle : ∀ {u v : List Byte}, IsCStr f u → IsCStr f v → u.length ≤ v.length := by
    intro u v hu hv
    by_contra hlt
    exact hu.ne_zero (by omega : v.length < u.length) hv.nul
  apply List.ext_getElem (Nat.le_antisymm (hle hs ht) (hle ht hs))
  intro i hi hi'
  rw [← hs.bytes i hi, ← ht.bytes i hi']

theorem IsCStr.congr {f g : View} {s : List Byte} (h : IsCStr f s)
    (he : ∀ i ≤ s.length, g i = f i) : IsCStr g s where
  nonzero := h.nonzero
  bytes i hi := (he i (by omega)).trans (h.bytes i hi)
  nul := (he _ le_rfl).trans h.nul

/-! ### Length -/

/-- `while (f[i] != '\0') i++;`, for at most `fuel` steps. -/
def strlen (f : View) : ℕ → ℕ → ℕ
  | 0, i => i
  | fuel + 1, i => if f i = 0 then i else strlen f fuel (i + 1)

def leading (f : View) (n : ℕ) : List Byte := (List.range (strlen f n 0)).map f

theorem strlen_spec (f : View) (fuel i : ℕ) :
    i ≤ strlen f fuel i ∧ strlen f fuel i ≤ i + fuel ∧
      (∀ j, i ≤ j → j < strlen f fuel i → f j ≠ 0) ∧
      (strlen f fuel i < i + fuel → f (strlen f fuel i) = 0) := by
  induction fuel generalizing i with
  | zero => exact ⟨le_rfl, le_rfl, fun j h h' => by simp only [strlen] at h'; omega, by simp [strlen]⟩
  | succ fuel ih =>
    rw [strlen]
    split_ifs with hc
    · exact ⟨le_rfl, by omega, fun j h h' => by omega, fun _ => hc⟩
    · obtain ⟨h1, h2, h3, h4⟩ := ih (i + 1)
      refine ⟨by omega, by omega, fun j hij hj => ?_, fun h => h4 (by omega)⟩
      by_cases he : j = i
      · subst he
        exact hc
      · exact h3 j (by omega) hj

theorem leading_length (f : View) (n : ℕ) : (leading f n).length = strlen f n 0 := by simp [leading]

theorem leading_length_le (f : View) (n : ℕ) : (leading f n).length ≤ n := by
  obtain ⟨_, h, _, _⟩ := strlen_spec f n 0
  rw [leading_length]
  omega

theorem leading_nonzero (f : View) (n : ℕ) : ∀ b ∈ leading f n, b ≠ 0 := by
  obtain ⟨_, _, h, _⟩ := strlen_spec f n 0
  intro b hb
  obtain ⟨j, hj, rfl⟩ := List.mem_map.mp hb
  exact h j (Nat.zero_le j) (List.mem_range.mp hj)

theorem leading_getElem (f : View) (n i : ℕ) (h : i < (leading f n).length) :
    (leading f n)[i] = f i := by simp [leading]

theorem isCStr_leading (f : View) (n : ℕ) (h : ∃ i ≤ n, f i = 0) : IsCStr f (leading f n) where
  nonzero := leading_nonzero f n
  bytes i hi := (leading_getElem f n i hi).symm
  nul := by
    obtain ⟨_, h2, h3, h4⟩ := strlen_spec f n 0
    obtain ⟨i, hin, hi⟩ := h
    rw [leading_length]
    by_cases hlt : strlen f n 0 < n
    · exact h4 (by omega)
    · by_cases hlt' : i < strlen f n 0
      · exact absurd hi (h3 i (Nat.zero_le i) hlt')
      · rwa [show strlen f n 0 = i by omega]

theorem IsCStr.of_leading {f : View} {s : List Byte} (n : ℕ) (h : leading f n = s)
    (h0 : f s.length = 0) : IsCStr f s := by
  have hn : s.length ≤ n := by rw [← h]; exact leading_length_le f n
  exact h ▸ isCStr_leading f n ⟨s.length, hn, h0⟩

theorem IsCStr.leading_eq {f : View} {s : List Byte} (h : IsCStr f s) {n : ℕ} (hn : s.length ≤ n) :
    leading f n = s :=
  (isCStr_leading f n ⟨s.length, hn, h.nul⟩).unique h

/-! ### Comparison -/

def stop (a b : View) : ℕ → ℕ → ℕ
  | 0, i => i
  | fuel + 1, i => if a i ≠ 0 ∧ a i = b i then stop a b fuel (i + 1) else i

/-- `strcmp`: the difference of the bytes the loop stops at, as `unsigned char`,
and how many bytes of each string it looked at. -/
def strcmp (fuel : ℕ) (a b : View) : ℤ × ℕ :=
  let k := stop a b fuel 0
  ((a k).toNat - (b k).toNat, k + 1)

theorem stop_spec (a b : View) (fuel i : ℕ) :
    i ≤ stop a b fuel i ∧ stop a b fuel i ≤ i + fuel ∧
      (∀ j, i ≤ j → j < stop a b fuel i → a j ≠ 0 ∧ a j = b j) ∧
      (stop a b fuel i < i + fuel → a (stop a b fuel i) = 0 ∨
        a (stop a b fuel i) ≠ b (stop a b fuel i)) := by
  induction fuel generalizing i with
  | zero => exact ⟨le_rfl, le_rfl, fun j h h' => by simp only [stop] at h'; omega, by simp [stop]⟩
  | succ fuel ih =>
    rw [stop]
    split_ifs with hc
    · obtain ⟨h1, h2, h3, h4⟩ := ih (i + 1)
      refine ⟨by omega, by omega, fun j hij hj => ?_, fun h => h4 (by omega)⟩
      by_cases he : j = i
      · subst he
        exact hc
      · exact h3 j (by omega) hj
    · refine ⟨le_rfl, by omega, fun j h h' => by omega, fun _ => ?_⟩
      by_cases h0 : a i = 0
      · exact Or.inl h0
      · exact Or.inr fun he => hc ⟨h0, he⟩

theorem stop_le {a b : View} {s : List Byte} (fuel : ℕ) (ha : IsCStr a s) :
    stop a b fuel 0 ≤ s.length := by
  obtain ⟨_, _, h3, _⟩ := stop_spec a b fuel 0
  by_contra hlt
  exact (h3 s.length (by omega) (by omega)).1 ha.nul

theorem stop_lt_or {a b : View} {s : List Byte} {fuel : ℕ} (ha : IsCStr a s) (hf : s.length ≤ fuel) :
    a (stop a b fuel 0) = 0 ∨ a (stop a b fuel 0) ≠ b (stop a b fuel 0) := by
  obtain ⟨_, _, _, h4⟩ := stop_spec a b fuel 0
  have hle := stop_le (b := b) fuel ha
  by_cases he : stop a b fuel 0 = s.length
  · rw [he]
    exact Or.inl ha.nul
  · exact h4 (by omega)

theorem strcmp_eq_zero_iff {a b : View} {s : List Byte} {fuel : ℕ} (ha : IsCStr a s)
    (hf : s.length ≤ fuel) : (strcmp fuel a b).1 = 0 ↔ IsCStr b s := by
  have hdiff : (strcmp fuel a b).1 = 0 ↔ a (stop a b fuel 0) = b (stop a b fuel 0) := by
    simp only [strcmp, sub_eq_zero, Nat.cast_inj, BitVec.toNat_inj]
  obtain ⟨_, _, h3, _⟩ := stop_spec a b fuel 0
  have hle := stop_le (b := b) fuel ha
  rw [hdiff]
  constructor
  · intro he
    have hz : a (stop a b fuel 0) = 0 := (stop_lt_or ha hf).resolve_right (not_not_intro he)
    have hk : stop a b fuel 0 = s.length := by
      by_contra hne
      exact ha.ne_zero (by omega) hz
    refine ha.congr fun i hi => ?_
    by_cases hil : i = s.length
    · rw [hil, ← hk]
      exact he.symm
    · exact (h3 i (Nat.zero_le i) (by omega)).2.symm
  · intro hb
    rcases stop_lt_or (b := b) ha hf with hz | hne
    · have hk : stop a b fuel 0 = s.length := by
        by_contra hne
        exact ha.ne_zero (by omega) hz
      rw [hk, ha.nul, hb.nul]
    · by_cases hk : stop a b fuel 0 = s.length
      · rw [hk, ha.nul, hb.nul]
      · have hlt : stop a b fuel 0 < s.length := by omega
        rw [ha.bytes _ hlt, hb.bytes _ hlt]

theorem stop_of_isCStr {a b : View} {s : List Byte} {fuel : ℕ} (ha : IsCStr a s) (hb : IsCStr b s)
    (hf : s.length ≤ fuel) : stop a b fuel 0 = s.length := by
  have hle := stop_le (b := b) fuel ha
  by_contra hne
  have hlt : stop a b fuel 0 < s.length := by omega
  rcases stop_lt_or (b := b) ha hf with hz | hd
  · exact ha.ne_zero hlt hz
  · exact hd (by rw [ha.bytes _ hlt, hb.bytes _ hlt])

theorem stop_le_right {a b : View} {t : List Byte} (fuel : ℕ) (hb : IsCStr b t) :
    stop a b fuel 0 ≤ t.length := by
  obtain ⟨_, _, h3, _⟩ := stop_spec a b fuel 0
  by_contra hlt
  obtain ⟨hz, he⟩ := h3 t.length (by omega) (by omega)
  exact hz (he.trans hb.nul)

theorem stop_comm (a b : View) (fuel i : ℕ) : stop a b fuel i = stop b a fuel i := by
  induction fuel generalizing i with
  | zero => rfl
  | succ fuel ih =>
    have hiff : (a i ≠ 0 ∧ a i = b i) ↔ (b i ≠ 0 ∧ b i = a i) :=
      ⟨fun ⟨h, he⟩ => ⟨he ▸ h, he.symm⟩, fun ⟨h, he⟩ => ⟨he ▸ h, he.symm⟩⟩
    simp only [stop, hiff, ih]

theorem strcmp_eq_zero_comm (a b : View) (fuel : ℕ) :
    (strcmp fuel a b).1 = 0 ↔ (strcmp fuel b a).1 = 0 := by
  simp only [strcmp, stop_comm a b, sub_eq_zero]
  exact eq_comm

/-- The comparison depends on the bytes it looks at and no others. -/
theorem stop_congr {a a' b : View} {fuel i : ℕ} (h : ∀ j, i ≤ j → j ≤ stop a b fuel i → a' j = a j) :
    stop a' b fuel i = stop a b fuel i := by
  induction fuel generalizing i with
  | zero => rfl
  | succ fuel ih =>
    have hle := (stop_spec a b (fuel + 1) i).1
    rw [stop, stop, h i le_rfl hle]
    by_cases hc : a i ≠ 0 ∧ a i = b i
    · rw [stop, if_pos hc] at h
      rw [if_pos hc, if_pos hc, ih fun j hij hj => h j (by omega) hj]
    · rw [if_neg hc, if_neg hc]

theorem strcmp_congr {a a' b : View} {fuel : ℕ} (h : ∀ j ≤ stop a b fuel 0, a' j = a j) :
    strcmp fuel a' b = strcmp fuel a b := by
  rw [strcmp, strcmp, stop_congr fun j _ hj => h j hj, h _ le_rfl]

/-- Over the length of the second string the comparison gets to the end when the first one starts with
it. -/
theorem stop_eq_length_iff {a b : View} {s t : List Byte} (ha : IsCStr a s) (hb : IsCStr b t) :
    stop a b t.length 0 = t.length ↔ t <+: s := by
  obtain ⟨-, hk, hsame, hstop⟩ := stop_spec a b t.length 0
  constructor
  · intro he
    rw [he] at hsame
    have hlen : t.length ≤ s.length := by
      by_contra hshort
      exact (hsame s.length (Nat.zero_le _) (by omega)).1 ha.nul
    rw [List.prefix_iff_eq_take]
    apply List.ext_getElem (by rw [List.length_take]; omega)
    intro j hj _
    rw [List.getElem_take, ← ha.bytes j (by omega), (hsame j (Nat.zero_le _) hj).2]
    exact (hb.bytes j hj).symm
  · intro hpre
    obtain ⟨rest, rfl⟩ := hpre
    by_contra hne
    have hlt : stop a b t.length 0 < t.length := by omega
    have hbyte := ha.bytes _ (by rw [List.length_append]; omega : stop a b t.length 0 < _)
    rw [List.getElem_append_left hlt, ← hb.bytes _ hlt] at hbyte
    rcases hstop (by omega) with hzero | hdiff
    · exact hb.ne_zero hlt (hbyte ▸ hzero)
    · exact hdiff hbyte

theorem IsCStr.eq_on {f g : View} {s : List Byte} (hf : IsCStr f s) (hg : IsCStr g s) {i : ℕ}
    (hi : i ≤ s.length) : f i = g i := by
  rcases Nat.lt_or_eq_of_le hi with hlt | rfl
  · rw [hf.bytes i hlt, hg.bytes i hlt]
  · rw [hf.nul, hg.nul]

theorem IsCStr.stop_eq {f g : View} {s : List Byte} (hf : IsCStr f s) (hg : IsCStr g s) (b : View)
    (fuel : ℕ) : stop f b fuel 0 = stop g b fuel 0 :=
  stop_congr fun _ _ hj => hf.eq_on hg (hj.trans (stop_le fuel hg))

/-! ### Scans -/

/-- `while (p(f[i])) i++;`, for at most `fuel` steps. -/
def scan (p : Byte → Bool) (f : View) : ℕ → ℕ → ℕ
  | 0, i => i
  | fuel + 1, i => if p (f i) then scan p f fuel (i + 1) else i

theorem scan_shift (p : Byte → Bool) (f : View) (n fuel i : ℕ) :
    scan p f fuel (n + i) = n + scan p (fun j => f (n + j)) fuel i := by
  induction fuel generalizing i with
  | zero => rfl
  | succ fuel ih =>
    rw [scan, scan]
    split_ifs with hc
    · exact ih (i + 1)
    · rfl

/-- A scan that stops at the NUL goes over what `takeWhile` takes. -/
theorem IsCStr.scan_eq {f : View} {s : List Byte} (h : IsCStr f s) {p : Byte → Bool} (hp : p 0 = false)
    {fuel i : ℕ} (hi : i ≤ s.length) (hf : s.length ≤ i + fuel) :
    scan p f fuel i = i + ((s.drop i).takeWhile p).length := by
  induction fuel generalizing i with
  | zero =>
    have hend : s.length ≤ i := by omega
    rw [List.drop_eq_nil_of_le hend]
    rfl
  | succ fuel ih =>
    rw [scan]
    rcases Nat.lt_or_eq_of_le hi with hlt | hend
    · rw [h.bytes i hlt, List.drop_eq_getElem_cons hlt]
      by_cases hc : p s[i] = true
      · have hrest := ih (show i + 1 ≤ s.length by omega) (by omega)
        rw [if_pos hc, hrest, List.takeWhile_cons_of_pos hc, List.length_cons]
        omega
      · rw [if_neg hc, List.takeWhile_cons_of_neg hc]
        rfl
    · rw [hend, h.nul, hp, List.drop_length]
      rfl

theorem IsCStr.scan_nul {f : View} {s : List Byte} (h : IsCStr f s) {fuel : ℕ} (hf : s.length ≤ fuel) :
    scan (fun c => c != 0) f fuel 0 = s.length := by
  have hall : (s.takeWhile fun c => c != 0) = s := by
    apply List.takeWhile_eq_self_iff.mpr
    exact fun b hb => bne_iff_ne.mpr (h.nonzero b hb)
  rw [h.scan_eq (by decide) (Nat.zero_le _) (by omega), List.drop_zero, hall, Nat.zero_add]

/-! ### Parts -/

theorem IsCStr.drop {f : View} {s : List Byte} (h : IsCStr f s) {n : ℕ} (hn : n ≤ s.length) :
    IsCStr (fun i => f (n + i)) (s.drop n) where
  nonzero b hb := h.nonzero b (List.mem_of_mem_drop hb)
  bytes i hi := by
    rw [List.length_drop] at hi
    rw [List.getElem_drop]
    exact h.bytes (n + i) (by omega)
  nul := by
    rw [List.length_drop, Nat.add_sub_cancel' hn]
    exact h.nul

theorem IsCStr.head_eq_zero_iff {f : View} {s : List Byte} (h : IsCStr f s) : f 0 = 0 ↔ s = [] := by
  constructor
  · intro h0
    by_contra hne
    exact h.ne_zero (List.length_pos_of_ne_nil hne) h0
  · rintro rfl
    exact h.nul

theorem IsCStr.cut {w : ℕ} {m : Mem w} {p : BitVec w} {s : List Byte} (h : IsCStr (view m p) s) {k : ℕ}
    (hk : k ≤ s.length) (hlen : s.length < 2 ^ w) :
    IsCStr (view (Function.update m (off p k) 0) p) (s.take k) := by
  have hne : ∀ i < k, off p i ≠ off p k := fun i hi he => by
    have heq := off_inj p i k (by omega) (by omega) he
    omega
  refine ⟨fun b hb => h.nonzero b (List.mem_of_mem_take hb), fun i hi => ?_, ?_⟩
  · rw [List.length_take] at hi
    rw [view, Function.update_of_ne (hne i (by omega)), List.getElem_take]
    exact h.bytes i (by omega)
  · rw [List.length_take, Nat.min_eq_left hk, view, Function.update_self]

theorem view_off {w : ℕ} (m : Mem w) (p : BitVec w) (i : ℕ) :
    view m (off p i) = fun j => view m p (i + j) := by
  funext j
  rw [view, view, off_off]

theorem IsCStr.behind {w : ℕ} {m : Mem w} {p : BitVec w} {s t : List Byte} (h : IsCStr (view m p) (s ++ t))
    {n : ℕ} (hn : n = s.length) : IsCStr (view m (off p n)) t := by
  have hrest := h.drop (show s.length ≤ (s ++ t).length by simp)
  rw [List.drop_left] at hrest
  rw [hn, view_off]
  exact hrest

theorem IsCStr.leading_take {f : View} {s : List Byte} (h : IsCStr f s) (n : ℕ) : leading f n = s.take n := by
  obtain ⟨-, hle, hne, hstop⟩ := strlen_spec f n 0
  have hlen : strlen f n 0 = min n s.length := by
    rcases Nat.lt_trichotomy (strlen f n 0) (min n s.length) with hlt | heq | hgt
    · exact absurd (hstop (by omega)) (h.ne_zero (by omega))
    · exact heq
    · exact absurd h.nul (hne s.length (Nat.zero_le _) (by omega))
  apply List.ext_getElem
  · rw [leading_length, hlen, List.length_take]
  · intro i hi hi'
    rw [List.length_take] at hi'
    rw [leading_getElem, List.getElem_take, h.bytes i (by omega)]

theorem IsCStr.cons {f : View} {b : Byte} {s : List Byte} (h : IsCStr (fun i => f (i + 1)) s) (h0 : f 0 = b)
    (hb : b ≠ 0) : IsCStr f (b :: s) where
  nonzero c hc := by
    rcases List.mem_cons.mp hc with rfl | hc
    · exact hb
    · exact h.nonzero c hc
  bytes i hi := by
    cases i with
    | zero => exact h0
    | succ i => exact h.bytes i (Nat.lt_of_succ_lt_succ hi)
  nul := h.nul

/-- An array that ends in a NUL holds the string up to its first one. -/
theorem isCStr_takeWhile {s : List Byte} {f : View} (hbytes : ∀ i (h : i < s.length), f i = s[i])
    (hnul : f s.length = 0) : IsCStr f (s.takeWhile fun c => c != 0) := by
  induction s generalizing f with
  | nil => exact ⟨nofun, fun i hi => absurd hi (Nat.not_lt_zero i), hnul⟩
  | cons b s ih =>
    have hfirst : f 0 = b := hbytes 0 (Nat.zero_lt_succ _)
    have hrest := ih (f := fun i => f (i + 1)) (fun i hi => hbytes (i + 1) (Nat.succ_lt_succ hi)) hnul
    by_cases hb : b = 0
    · subst hb
      rw [List.takeWhile_cons_of_neg (by decide)]
      exact ⟨nofun, fun i hi => absurd hi (Nat.not_lt_zero i), hfirst⟩
    · rw [List.takeWhile_cons, if_pos (bne_iff_ne.mpr hb)]
      exact hrest.cons hfirst hb

end Lib
