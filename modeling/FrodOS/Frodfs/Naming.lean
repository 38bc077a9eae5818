import FrodOS.Frodfs.Refinement

/-!
# Names longer than a slot

`frodfs_create` compares the whole argument with the stored names but stores at
most 31 bytes of it. A longer name is therefore never found again, and creating
it twice gives two slots one name. For runs of `frodfs_create` this is the only
way in which names can clash.
-/

namespace FrodOS
open Lib

theorem frodfsCreate_cases (s : Storage) {mem : Ram} {name : U32} {n : List Byte}
    (h : StrArg mem name n) :
    let r := frodfsCreate s (ptr mem name)
    (∃ i, (findName s (view mem name) slots).1 = some i ∧ r.1 = -2 ∧ r.2.1 = s) ∨
    ((∀ i, (s i).used = true → (s i).nameStr ≠ n) ∧ ∃ i, (s i).used = false ∧ r.1 = 0 ∧
      r.2.1 = Function.update s i ((s i).created (view mem name))) ∨
    ((∀ i, (s i).used = true → (s i).nameStr ≠ n) ∧ (∀ i, (s i).used = true) ∧ r.1 = -3 ∧
      r.2.1 = s) := by
  have h0 : view mem name 0 ≠ 0 := h.string.ne_zero (List.length_pos_of_ne_nil h.nonempty)
  simp only [ptr_of_ne _ h.nonnull, frodfsCreate, h0, if_false]
  cases hf : (findName s (view mem name) slots).1 with
  | some i => exact Or.inl ⟨i, rfl, rfl, rfl⟩
  | none =>
    have hne : ∀ i, (s i).used = true → (s i).nameStr ≠ n := by
      intro i hu he
      exact (findName_none_iff _ _ _).mp hf i (List.mem_finRange i) hu (he ▸ h.string)
    cases hr : findFree s with
    | some i => exact Or.inr (Or.inl ⟨hne, i, (findFree_some s hr).1, rfl, rfl⟩)
    | none => exact Or.inr (Or.inr ⟨hne, (findFree_none_iff s).mp hr, rfl, rfl⟩)

def NamesDistinct (s : Storage) : Prop :=
  ∀ i j, (s i).used = true → (s j).used = true → (s i).nameStr = (s j).nameStr → i = j

theorem NamesDistinct.find {s : Storage} (h : NamesDistinct s) {name : View} {i : Fin 32}
    (hu : (s i).used = true) (hc : IsCStr name (s i).nameStr) :
    (findName s name slots).1 = some i := by
  cases hf : (findName s name slots).1 with
  | none => exact absurd hc ((findName_none_iff _ _ _).mp hf i (List.mem_finRange i) hu)
  | some j =>
    obtain ⟨_, huj, hcj⟩ := findName_some s name hf
    rw [h j i huj hu (hcj.unique hc)]

def afterCreates (s₀ : Storage) (calls : List (Ram × U32)) : Storage :=
  final FsCall.run (frodfsInit s₀) (calls.map fun c => .create c.1 c.2)

theorem afterCreates_succ (s₀ : Storage) (calls : List (Ram × U32)) {k : ℕ} {c : Ram × U32}
    (hc : calls[k]? = some c) :
    afterCreates s₀ (calls.take (k + 1)) =
      (frodfsCreate (afterCreates s₀ (calls.take k)) (ptr c.1 c.2)).2.1 := by
  rw [List.take_add_one, hc, afterCreates, List.map_append, final_append]
  rfl

/-- A lookup of a stored name reaches slot `i`: creating it again is refused, a
write fills that slot and no other, and a read delivers that slot. -/
structure Finds (t : Storage) (i : Fin 32) (name : Option View) : Prop where
  create : (frodfsCreate t name).1 = -2
  write : ∀ buffer size, ∀ h : size.toNat ≤ 4096,
    (frodfsWrite t name (some buffer) size).1 = 0 ∧
      (frodfsWrite t name (some buffer) size).2.1 = Function.update t i ((t i).written buffer size h)
  read : ∀ m buffer max_size out_size, buffer ≠ 0 → out_size ≠ 0 →
    let n := if (t i).size > max_size then max_size else (t i).size
    (frodfsRead t m name buffer max_size out_size).1 = 0 ∧
      (frodfsRead t m name buffer max_size out_size).2.1 =
        store32 (writeBytes m buffer (t i).dataView n.toNat) out_size n

theorem finds_of_find {t : Storage} {i : Fin 32} {mem : Ram} {name : U32} {n : List Byte}
    (h : StrArg mem name n) (hf : (findName t (view mem name) slots).1 = some i) :
    Finds t i (ptr mem name) := by
  have h0 : view mem name 0 ≠ 0 := h.string.ne_zero (List.length_pos_of_ne_nil h.nonempty)
  rw [ptr_of_ne _ h.nonnull]
  refine ⟨?_, fun buffer size hs => ?_, fun m buffer max_size out_size hb ho => ?_⟩
  · simp only [frodfsCreate, h0, if_false, hf]
  · simp only [frodfsWrite, hs, dite_true, hf, and_self]
  · simp only [frodfsRead, hb, ho, or_self, if_false, hf, and_self]

/-- In every state of the run the used names are distinct, and a name whose
creation returned 0 in slot `i` goes on being found there. -/
structure NamingHolds (s₀ : Storage) (calls : List (Ram × U32)) : Prop where
  distinct : ∀ k ≤ calls.length, NamesDistinct (afterCreates s₀ (calls.take k))
  found : ∀ j k c n i, calls[j]? = some c → j < k → k ≤ calls.length → StrArg c.1 c.2 n →
    let s := afterCreates s₀ (calls.take j)
    let s' := (frodfsCreate s (ptr c.1 c.2)).2.1
    (frodfsCreate s (ptr c.1 c.2)).1 = 0 → (s i).used = false → (s' i).used = true →
    ∀ mem name, StrArg mem name n →
      Finds (afterCreates s₀ (calls.take k)) i (ptr mem name)

/-- No call of the run creates a name of more than 31 bytes while a slot is free. -/
def LongNamesRefused (s₀ : Storage) (calls : List (Ram × U32)) : Prop :=
  ∀ j c n, calls[j]? = some c → StrArg c.1 c.2 n →
    n.length ≤ 31 ∨ ∀ i, (afterCreates s₀ (calls.take j) i).used = true

/-! ### Short names -/

theorem frodfsCreate_distinct {s : Storage} {mem : Ram} {name : U32} {n : List Byte}
    (h : StrArg mem name n) (hd : NamesDistinct s)
    (hshort : n.length ≤ 31 ∨ ∀ i, (s i).used = true) :
    NamesDistinct (frodfsCreate s (ptr mem name)).2.1 := by
  rcases frodfsCreate_cases s h with ⟨_, _, _, hs⟩ | ⟨hne, i, hi, _, hs⟩ | ⟨_, _, _, hs⟩
  · rwa [hs]
  · have hlen : n.length ≤ 31 := hshort.resolve_right fun hall => by simp [hall i] at hi
    have hnew : ((s i).created (view mem name)).nameStr = n := by
      rw [FrodfsEntry.created_nameStr, h.string.leading_eq hlen]
    rw [hs]
    intro a b hua hub hab
    by_cases ha : a = i <;> by_cases hb : b = i
    · rw [ha, hb]
    · subst ha
      rw [Function.update_self, Function.update_of_ne hb, hnew] at hab
      rw [Function.update_of_ne hb] at hub
      exact absurd hab.symm (hne b hub)
    · subst hb
      rw [Function.update_self, Function.update_of_ne ha, hnew] at hab
      rw [Function.update_of_ne ha] at hua
      exact absurd hab (hne a hua)
    · rw [Function.update_of_ne ha, Function.update_of_ne hb] at hab
      rw [Function.update_of_ne ha] at hua
      rw [Function.update_of_ne hb] at hub
      exact hd a b hua hub hab
  · rwa [hs]

theorem frodfsCreate_keeps (s : Storage) (name : Option View) {i : Fin 32}
    (hu : (s i).used = true) : (frodfsCreate s name).2.1 i = s i := by
  cases name with
  | none => rfl
  | some name =>
    simp only [frodfsCreate]
    split_ifs
    · rfl
    · cases (findName s name slots).1 with
      | some _ => rfl
      | none =>
        cases hr : findFree s with
        | none => rfl
        | some j =>
          have hne : i ≠ j := fun he => by
            have := (findFree_some s hr).1
            simp [← he, hu] at this
          exact Function.update_of_ne hne _ _

theorem afterCreates_distinct (s₀ : Storage) (calls : List (Ram × U32))
    (hargs : ∀ c ∈ calls, ∃ n, StrArg c.1 c.2 n) (hl : LongNamesRefused s₀ calls) (k : ℕ)
    (hk : k ≤ calls.length) : NamesDistinct (afterCreates s₀ (calls.take k)) := by
  induction k with
  | zero =>
    intro i j hi
    cases hi
  | succ k ih =>
    have hc : calls[k]? = some calls[k] := List.getElem?_eq_getElem hk
    obtain ⟨n, hn⟩ := hargs _ (List.getElem_mem hk)
    rw [afterCreates_succ s₀ calls hc]
    exact frodfsCreate_distinct hn (ih (by omega)) (hl k _ n hc hn)

theorem afterCreates_keeps (s₀ : Storage) (calls : List (Ram × U32)) {j k : ℕ} (hjk : j ≤ k)
    (hk : k ≤ calls.length) {i : Fin 32} (hu : (afterCreates s₀ (calls.take j) i).used = true) :
    afterCreates s₀ (calls.take k) i = afterCreates s₀ (calls.take j) i := by
  induction k with
  | zero =>
    obtain rfl : j = 0 := by omega
    rfl
  | succ k ih =>
    by_cases he : j = k + 1
    · rw [he]
    · have hi := ih (by omega) (by omega)
      rw [afterCreates_succ s₀ calls (List.getElem?_eq_getElem hk), ← hi]
      exact frodfsCreate_keeps _ _ (by rw [hi]; exact hu)

theorem namingHolds_of_short (s₀ : Storage) (calls : List (Ram × U32))
    (hargs : ∀ c ∈ calls, ∃ n, StrArg c.1 c.2 n) (hl : LongNamesRefused s₀ calls) :
    NamingHolds s₀ calls := by
  refine ⟨afterCreates_distinct s₀ calls hargs hl, ?_⟩
  intro j k c n i hc hjk hk hn s s' hret hfree hused mem name hm
  have hnew : s' i = (s i).created (view c.1 c.2) := by
    rcases frodfsCreate_cases s hn with ⟨_, _, hr, _⟩ | ⟨_, i', _, _, hs⟩ | ⟨_, _, hr, _⟩
    · omega
    · have hi : i = i' := by
        by_contra hne
        rw [show s' = _ from hs, Function.update_of_ne hne, hfree] at hused
        cases hused
      rw [show s' = _ from hs, hi, Function.update_self]
    · omega
  -- the slot was free, so the name is short and stored in full
  have hlen : n.length ≤ 31 := (hl j c n hc hn).resolve_right fun hall => by
    rw [show s = _ from rfl, hall i] at hfree
    cases hfree
  have hkeep : afterCreates s₀ (calls.take k) i = s' i := by
    rw [show s' = _ from (afterCreates_succ s₀ calls hc).symm]
    refine afterCreates_keeps s₀ calls hjk hk ?_
    rw [afterCreates_succ s₀ calls hc]
    exact hused
  have hname : (afterCreates s₀ (calls.take k) i).nameStr = n := by
    rw [hkeep, hnew, FrodfsEntry.created_nameStr, hn.string.leading_eq hlen]
  refine finds_of_find hm ((afterCreates_distinct s₀ calls hargs hl k hk).find ?_ ?_)
  · rw [hkeep]
    exact hused
  · rw [hname]
    exact hm.string

/-! ### Long names -/

theorem nameStr_ne_long (s : Storage) {n : List Byte} (hlong : 31 < n.length) (i : Fin 32) :
    (s i).nameStr ≠ n := fun he => by
  have := (s i).nameStr_length
  rw [he] at this
  omega

theorem not_namingHolds_of_long (s₀ : Storage) (calls : List (Ram × U32)) {j : ℕ} {c : Ram × U32}
    {n : List Byte} (hc : calls[j]? = some c) (hn : StrArg c.1 c.2 n) (hlong : 31 < n.length)
    (hfree : ∃ i, (afterCreates s₀ (calls.take j) i).used = false) : ¬ NamingHolds s₀ calls := by
  intro h
  have hjlt : j < calls.length := (List.getElem?_eq_some_iff.mp hc).1
  obtain ⟨i₀, hi₀⟩ := hfree
  rcases frodfsCreate_cases (afterCreates s₀ (calls.take j)) hn with
    ⟨i, hf, _⟩ | ⟨_, i, hi, hr, hs⟩ | ⟨_, hall, _⟩
  · obtain ⟨_, _, hi⟩ := findName_some _ _ hf
    exact nameStr_ne_long _ hlong i (hi.unique hn.string)
  · -- the creation succeeded, yet the same name is not found right after it
    have hfinds := h.found j (j + 1) c n i hc (by omega) (by omega) hn hr hi
      (by rw [hs, Function.update_self]; rfl) c.1 c.2 hn
    rcases frodfsCreate_cases (afterCreates s₀ (calls.take (j + 1))) hn with
      ⟨i', hf, _⟩ | ⟨_, _, _, hr', _⟩ | ⟨_, _, hr', _⟩
    · obtain ⟨_, _, hi'⟩ := findName_some _ _ hf
      exact nameStr_ne_long _ hlong i' (hi'.unique hn.string)
    · have := hfinds.create
      omega
    · have := hfinds.create
      omega
  · rw [hall i₀] at hi₀
    cases hi₀

/-- Over runs of `frodfs_create` with names of any length, the names stay distinct
and created names are found exactly when no name of more than 31 bytes is created
while a slot is free. -/
theorem naming_holds_iff (s₀ : Storage) (calls : List (Ram × U32))
    (hargs : ∀ c ∈ calls, ∃ n, StrArg c.1 c.2 n) :
    NamingHolds s₀ calls ↔ LongNamesRefused s₀ calls := by
  refine ⟨fun h j c n hc hn => ?_, namingHolds_of_short s₀ calls hargs⟩
  by_contra hbad
  obtain ⟨hlong, hfull⟩ := not_or.mp hbad
  obtain ⟨i, hi⟩ := not_forall.mp hfull
  exact not_namingHolds_of_long s₀ calls hc hn (by omega) ⟨i, by simpa using hi⟩ h

theorem demoRam_str : StrArg demoRam 0x300000 [97] := demoRam_name.toStrArg

theorem naming_holds_iff_short :
    NamingHolds bootStorage [(demoRam, 0x300000), (demoRam, 0x300000)] := by
  have hargs : ∀ c ∈ [(demoRam, (0x300000 : U32)), (demoRam, 0x300000)],
      ∃ n, StrArg c.1 c.2 n := by
    intro c hc
    simp only [List.mem_cons, List.not_mem_nil, or_false, or_self] at hc
    subst hc
    exact ⟨_, demoRam_str⟩
  refine (naming_holds_iff bootStorage _ hargs).mpr fun j c n hc hn => Or.inl ?_
  have hmem : c ∈ [(demoRam, (0x300000 : U32)), (demoRam, 0x300000)] := List.mem_of_getElem? hc
  simp only [List.mem_cons, List.not_mem_nil, or_false, or_self] at hmem
  subst hmem
  rw [hn.string.unique demoRam_str.string]
  decide

def longNameRam : Ram := fun a => if 0x300000 ≤ a ∧ a < 0x300020 then 97 else 0

theorem longNameRam_str : StrArg longNameRam 0x300000 (List.replicate 32 97) where
  nonnull := by decide
  string := .of_leading 32 (by decide) (by decide)
  nonempty := by decide

theorem naming_fails_on_long_name :
    ¬ NamingHolds bootStorage [(longNameRam, 0x300000), (longNameRam, 0x300000)] :=
  not_namingHolds_of_long bootStorage _ (j := 0) rfl longNameRam_str (by decide) ⟨0, rfl⟩

end FrodOS
