import FrodOS.Frodfs.Slots

/-!
# How far the routines look behind their pointers

Each routine reports how many bytes it touched behind a pointer argument. Here
the numbers are put in terms of the table and the bytes of the name: whether that
many bytes fit below the top of memory.
-/

namespace FrodOS
open Lib

def FrodfsEntry.compared (e : FrodfsEntry) (name : View) : ℕ := stop e.nameView name 32 0 + 1

variable {s : Storage} {name : View}

/-! ### The scan for a name -/

theorem compared_of_isCStr {e : FrodfsEntry} (h : IsCStr name e.nameStr) :
    e.compared name = e.nameStr.length + 1 := by
  have := e.nameStr_length
  rw [FrodfsEntry.compared, stop_of_isCStr e.isCStr_nameStr h (by omega)]

theorem compared_le_seen {l : List (Fin 32)} {i : Fin 32} (hi : i ∈ l) (hu : (s i).used = true) :
    (s i).compared name ≤ (findName s name l).2 := by
  induction l with
  | nil => cases hi
  | cons j l ih =>
    simp only [findName]
    by_cases huj : (s j).used = true
    · simp only [huj, if_true]
      by_cases hc : (fsStrcmp (s j).nameView name).1 = 0
      · have hj := (fsStrcmp_eq_zero_iff (s j) name).mp hc
        have hseen := compared_of_isCStr hj
        have hle := stop_le_right (a := (s i).nameView) 32 hj
        simp only [hc, if_true]
        change (s i).compared name ≤ (s j).compared name
        rw [hseen, FrodfsEntry.compared]
        omega
      · simp only [hc, if_false]
        rcases List.mem_cons.mp hi with rfl | hi
        · exact Nat.le_max_left _ _
        · exact (ih hi).trans (Nat.le_max_right _ _)
    · have hne : i ≠ j := fun he => huj (he ▸ hu)
      simp only [huj, if_false, Bool.false_eq_true]
      exact ih ((List.mem_cons.mp hi).resolve_left hne)

theorem seen_attained (s : Storage) (name : View) (l : List (Fin 32)) :
    (findName s name l).2 = 0 ∨
      ∃ i ∈ l, (s i).used = true ∧ (findName s name l).2 = (s i).compared name := by
  induction l with
  | nil => exact Or.inl rfl
  | cons j l ih =>
    have hlift : (findName s name l).2 = 0 ∨ ∃ i ∈ j :: l, (s i).used = true ∧
        (findName s name l).2 = (s i).compared name := by
      rcases ih with h | ⟨i, hi, hui⟩
      · exact Or.inl h
      · exact Or.inr ⟨i, List.mem_cons_of_mem _ hi, hui⟩
    by_cases huj : (s j).used = true
    · have hself : ∃ i ∈ j :: l, (s i).used = true ∧ (s j).compared name = (s i).compared name :=
        ⟨j, List.mem_cons_self .., huj, rfl⟩
      simp only [findName, huj, if_true]
      by_cases hc : (fsStrcmp (s j).nameView name).1 = 0
      · simp only [hc, if_true]
        exact Or.inr hself
      · simp only [hc, if_false]
        rcases Nat.le_total (findName s name l).2 (fsStrcmp (s j).nameView name).2 with hle | hle
        · rw [Nat.max_eq_left hle]
          exact Or.inr hself
        · rw [Nat.max_eq_right hle]
          exact hlift
    · simp only [findName, huj, if_false, Bool.false_eq_true]
      exact hlift

def NameFits (s : Storage) (name : View) (p : U32) : Prop :=
  ∀ i, (s i).used = true → Fits p ((s i).compared name)

theorem fits_seen_iff (s : Storage) (name : View) (p : U32) :
    Fits p (findName s name slots).2 ↔ NameFits s name p := by
  constructor
  · intro h i hu
    exact h.mono (compared_le_seen (List.mem_finRange i) hu)
  · intro h
    rcases seen_attained s name slots with hz | ⟨i, _, hu, he⟩
    · rw [hz]
      exact fits_zero p
    · rw [he]
      exact h i hu

open Classical in
theorem findName_eq_find (s : Storage) (name : View) (l : List (Fin 32)) :
    (findName s name l).1 =
      l.find? fun i => decide ((s i).used = true ∧ IsCStr name (s i).nameStr) := by
  induction l with
  | nil => rfl
  | cons j l ih =>
    rw [findName_cons, List.find?_cons]
    by_cases h : (s j).used = true ∧ IsCStr name (s j).nameStr
    · rw [if_pos h, decide_eq_true h]
    · rw [if_neg h, decide_eq_false h, ih]

/-- Slot `i` is the first used one with this name. -/
def FirstNamed (s : Storage) (name : View) (i : Fin 32) : Prop :=
  ((s i).used = true ∧ IsCStr name (s i).nameStr) ∧
    ∀ j < i, ¬ ((s j).used = true ∧ IsCStr name (s j).nameStr)

theorem findName_eq_some_iff (i : Fin 32) :
    (findName s name slots).1 = some i ↔ FirstNamed s name i := by
  classical
  rw [findName_eq_find, List.find?_eq_some_iff_getElem]
  constructor
  · intro h
    obtain ⟨hi, k, hk, hki, hj⟩ := h
    obtain rfl : k = i.val := by simpa using congrArg Fin.val hki
    refine ⟨of_decide_eq_true hi, fun j hlt hc => ?_⟩
    have hn := hj j.val hlt
    simp [hc] at hn
  · intro h
    obtain ⟨hi, hj⟩ := h
    refine ⟨decide_eq_true hi, i.val, by simp, by simp, fun j hlt => ?_⟩
    have hn := hj ⟨j, by omega⟩ hlt
    simp only [List.getElem_finRange, Fin.cast_mk, hn, decide_false, Bool.not_false]

theorem firstNamed_unique {i j : Fin 32} (hi : FirstNamed s name i) (hj : FirstNamed s name j) :
    i = j := by
  have he := (findName_eq_some_iff i).mpr hi
  rw [(findName_eq_some_iff j).mpr hj] at he
  exact (Option.some.inj he).symm

/-! ### The routines -/

def CreateFits (s : Storage) (name : View) (p : U32) : Prop :=
  name 0 ≠ 0 → NameFits s name p ∧
    ((∀ i, (s i).used = true → ¬ IsCStr name (s i).nameStr) → (∃ i, (s i).used = false) →
      Fits p (min (strlen name 31 0 + 1) 31))

theorem fits_one (p : U32) : Fits p 1 := by
  have := p.isLt
  unfold Fits
  omega

theorem frodfsCreate_fits_iff (s : Storage) (name : View) (p : U32) :
    Fits p (frodfsCreate s (some name)).2.2 ↔ CreateFits s name p := by
  unfold CreateFits
  simp only [frodfsCreate]
  by_cases h0 : name 0 = 0
  · simp only [h0, if_true, ne_eq, not_true_eq_false, false_imp_iff, iff_true]
    exact fits_one p
  · simp only [h0, if_false, ne_eq, not_false_eq_true, forall_const]
    have hscan : Fits p (max 1 (findName s name slots).2) ↔ NameFits s name p := by
      rw [fits_max, fits_seen_iff]
      exact and_iff_right (fits_one p)
    cases hf : (findName s name slots).1 with
    | some i =>
      obtain ⟨_, hu, hc⟩ := findName_some s name hf
      simp only [hscan, iff_self_and]
      exact fun _ hno => absurd hc (hno i hu)
    | none =>
      have hno : ∀ i, (s i).used = true → ¬ IsCStr name (s i).nameStr := fun i =>
        (findName_none_iff s name slots).mp hf i (List.mem_finRange i)
      cases hr : findFree s with
      | some i =>
        have hfree : ∃ i, (s i).used = false := ⟨i, (findFree_some s hr).1⟩
        simp only [fsStrncpy_seen]
        rw [fits_max, hscan]
        exact and_congr_right fun _ => ⟨fun h _ _ => h, fun h => h hno hfree⟩
      | none =>
        simp only [hscan, iff_self_and]
        rintro _ _ ⟨i, hi⟩
        rw [(findFree_none_iff s).mp hr i] at hi
        cases hi

def WriteFits (s : Storage) (name : View) (p buffer size : U32) : Prop :=
  size.toNat ≤ 4096 → NameFits s name p ∧
    ((∃ i, FirstNamed s name i) → Fits buffer size.toNat)

theorem frodfsWrite_fits_iff (s : Storage) (name source : View) (p buffer size : U32) :
    (Fits p (frodfsWrite s (some name) (some source) size).2.2.1 ∧
      Fits buffer (frodfsWrite s (some name) (some source) size).2.2.2) ↔
      WriteFits s name p buffer size := by
  unfold WriteFits
  simp only [frodfsWrite]
  by_cases hs : size.toNat ≤ 4096
  · simp only [hs, dite_true, forall_const]
    cases hf : (findName s name slots).1 with
    | some i =>
      have hi : ∃ i, FirstNamed s name i := ⟨i, (findName_eq_some_iff i).mp hf⟩
      simp only [fits_seen_iff, hi, forall_const]
    | none =>
      simp only [fits_seen_iff, fits_zero, and_true, iff_self_and]
      rintro _ ⟨i, hi⟩
      rw [(findName_eq_some_iff i).mpr hi] at hf
      cases hf
  · simp only [hs, dite_false, fits_zero, and_self, false_imp_iff]

def ReadFits (s : Storage) (name : View) (p buffer max_size out_size : U32) : Prop :=
  NameFits s name p ∧ ∀ i, FirstNamed s name i →
    Fits buffer (min (s i).size.toNat max_size.toNat) ∧ Fits out_size 4

theorem compared_le (e : FrodfsEntry) (name : View) : e.compared name ≤ 32 := by
  have hlen := e.nameStr_length
  have hstop := stop_le (b := name) 32 e.isCStr_nameStr
  unfold FrodfsEntry.compared
  omega

/-- With room for the longest name and the largest file nothing runs past the top of memory. -/
theorem readFits_of_room (s : Storage) (name : View) {p buffer out_size : U32} (max_size : U32)
    (hp : Fits p 32) (hb : Fits buffer 4096) (ho : Fits out_size 4) :
    ReadFits s name p buffer max_size out_size :=
  ⟨fun i _ => hp.mono (compared_le (s i) name),
    fun i _ => ⟨hb.mono ((Nat.min_le_left _ _).trans (s i).size_le), ho⟩⟩

theorem frodfsRead_fits_iff (s : Storage) (m : Ram) (name : View) (p : U32) {buffer out_size : U32}
    (max_size : U32) (hb : buffer ≠ 0) (ho : out_size ≠ 0) :
    (Fits p (frodfsRead s m (some name) buffer max_size out_size).2.2.1 ∧
      Fits buffer (frodfsRead s m (some name) buffer max_size out_size).2.2.2 ∧
      ((frodfsRead s m (some name) buffer max_size out_size).1 = 0 → Fits out_size 4)) ↔
      ReadFits s name p buffer max_size out_size := by
  unfold ReadFits
  simp only [frodfsRead, hb, ho, or_self, if_false]
  cases hf : (findName s name slots).1 with
  | some i =>
    have hi := (findName_eq_some_iff i).mp hf
    simp only [fits_seen_iff, readBytes_toNat, forall_const]
    refine and_congr_right fun _ => ⟨fun h j hj => ?_, fun h => h i hi⟩
    rw [firstNamed_unique hj hi]
    exact h
  | none =>
    simp only [fits_seen_iff, fits_zero, show (-2 : ℤ) ≠ 0 by decide, false_imp_iff, and_true,
      iff_self_and]
    intro _ j hj
    rw [(findName_eq_some_iff j).mpr hj] at hf
    cases hf

/-! ### The listing -/

def usedNames (s : Storage) (l : List (Fin 32)) : List (List Byte) :=
  (l.filter fun i => (s i).used).map fun i => (s i).nameStr

/-- The bytes of the first `n` names, each with its newline. -/
def listed (names : List (List Byte)) (n : ℕ) : ℕ :=
  ((names.take n).map fun a => a.length + 1).sum

theorem listed_cons (a : List Byte) (names : List (List Byte)) (n : ℕ) :
    listed (a :: names) (n + 1) = a.length + 1 + listed names n := by simp [listed]

/-- The text of every number of names that `max_bytes` leaves room for fits, with its NUL. -/
def ListFits (names : List (List Byte)) (out : U32) (max_bytes idx : ℕ) : Prop :=
  ∀ n ≤ names.length, n = 0 ∨ idx + listed names n + 1 < max_bytes →
    Fits out (idx + listed names n + 1)

theorem listFits_nil (out : U32) (max_bytes idx : ℕ) :
    ListFits [] out max_bytes idx ↔ Fits out (idx + 1) := by
  constructor
  · intro h
    exact h 0 le_rfl (Or.inl rfl)
  · intro h n hn _
    obtain rfl : n = 0 := Nat.le_zero.mp hn
    exact h

theorem listFits_full (a : List Byte) (names : List (List Byte)) (out : U32) {max_bytes idx : ℕ}
    (hfull : max_bytes ≤ idx + a.length + 2) :
    ListFits (a :: names) out max_bytes idx ↔ Fits out (idx + 1) := by
  constructor
  · intro h
    exact h 0 (Nat.zero_le _) (Or.inl rfl)
  · intro h n _ hroom
    cases n with
    | zero => exact h
    | succ n =>
      rw [listed_cons] at hroom
      omega

theorem listFits_cons (a : List Byte) (names : List (List Byte)) (out : U32) {max_bytes idx : ℕ}
    (hroom : ¬ max_bytes ≤ idx + a.length + 2) :
    ListFits (a :: names) out max_bytes idx ↔ ListFits names out max_bytes (idx + a.length + 1) := by
  have hsum : ∀ n, idx + listed (a :: names) (n + 1) + 1 =
      idx + a.length + 1 + listed names n + 1 := fun n => by
    rw [listed_cons]
    omega
  constructor
  · intro h n hn hn'
    have hnext := h (n + 1) (Nat.succ_le_succ hn)
    rw [hsum] at hnext
    refine hnext (Or.inr ?_)
    rcases hn' with rfl | hlt
    · simp only [listed, List.take_zero, List.map_nil, List.sum_nil]
      omega
    · exact hlt
  · intro h n hn hn'
    cases n with
    | zero =>
      refine (h 0 (Nat.zero_le _) (Or.inl rfl)).mono ?_
      simp only [listed, List.take_zero, List.map_nil, List.sum_nil]
      omega
    | succ n =>
      rw [hsum] at hn' ⊢
      exact h n (Nat.le_of_succ_le_succ hn) (Or.inr (by omega))

theorem frodfsListFrom_fits_iff (s : Storage) (out max_bytes : U32) (l : List (Fin 32)) (idx : ℕ)
    (m : Ram) : Fits out ((frodfsListFrom s out max_bytes l idx m).1 + 1) ↔
      ListFits (usedNames s l) out max_bytes.toNat idx := by
  induction l generalizing idx m with
  | nil => exact (listFits_nil out _ idx).symm
  | cons i l ih =>
    simp only [frodfsListFrom]
    by_cases hu : (s i).used = true
    · have hnames : usedNames s (i :: l) = (s i).nameStr :: usedNames s l := by
        simp [usedNames, hu]
      have hlen : strlen (s i).nameView 31 0 = (s i).nameStr.length := (leading_length _ _).symm
      simp only [hu, if_true, hnames, hlen]
      by_cases hfull : max_bytes.toNat ≤ idx + (s i).nameStr.length + 2
      · simp only [ge_iff_le, hfull, if_true]
        exact (listFits_full _ _ out hfull).symm
      · simp only [ge_iff_le, hfull, if_false, ih]
        exact (listFits_cons _ _ out hfull).symm
    · have hnames : usedNames s (i :: l) = usedNames s l := by simp [usedNames, hu]
      simp only [hu, if_false, Bool.false_eq_true, hnames, ih]

/-- A read changes the bytes it reports and, when it succeeds, the size word. -/
theorem frodfsRead_outside (s : Storage) (m : Ram) (name : Option View)
    (buffer max_size out_size : U32) {a : U32}
    (hb : a ∉ span buffer (frodfsRead s m name buffer max_size out_size).2.2.2)
    (ho : (frodfsRead s m name buffer max_size out_size).1 = 0 → a ∉ span out_size 4) :
    (frodfsRead s m name buffer max_size out_size).2.1 a = m a := by
  cases name with
  | none => rfl
  | some name =>
    simp only [frodfsRead] at hb ho ⊢
    split_ifs at hb ho ⊢ with hz
    · rfl
    · cases hf : (findName s name slots).1 with
      | none => rfl
      | some i =>
        simp only [hf] at hb ho ⊢
        rw [store32_outside _ _ _ (ho trivial)]
        exact writeBytes_outside _ _ _ _ _ fun j hj he => hb (mem_span.mpr ⟨j, hj, he.symm⟩)

theorem le_frodfsListFrom (s : Storage) (out max_bytes : U32) (l : List (Fin 32)) (idx : ℕ) (m : Ram) :
    idx ≤ (frodfsListFrom s out max_bytes l idx m).1 := by
  induction l generalizing idx m with
  | nil => exact le_rfl
  | cons i l ih =>
    simp only [frodfsListFrom]
    split_ifs
    · exact le_rfl
    · exact (by omega : idx ≤ idx + strlen (s i).nameView 31 0 + 1).trans (ih _ _)
    · exact ih idx m

theorem frodfsListFrom_outside (s : Storage) (out max_bytes : U32) (l : List (Fin 32)) (idx : ℕ)
    (m : Ram) {a : U32}
    (h : ∀ j, idx ≤ j → j < (frodfsListFrom s out max_bytes l idx m).1 → a ≠ off out j) :
    (frodfsListFrom s out max_bytes l idx m).2 a = m a := by
  induction l generalizing idx m with
  | nil => rfl
  | cons i l ih =>
    simp only [frodfsListFrom] at h ⊢
    split_ifs at h ⊢
    · rfl
    · have hle := le_frodfsListFrom s out max_bytes l (idx + strlen (s i).nameView 31 0 + 1)
        (Function.update (writeBytes m (off out idx) (s i).nameView (strlen (s i).nameView 31 0))
          (off out (idx + strlen (s i).nameView 31 0)) 10)
      rw [ih _ _ fun j hj hj' => h j (by omega) hj',
        Function.update_of_ne (h _ (by omega) (by omega))]
      refine writeBytes_outside _ _ _ _ _ fun j hj => ?_
      rw [off_off]
      exact h (idx + j) (by omega) (by omega)
    · exact ih idx m h

theorem frodfsList_outside (s : Storage) (m : Ram) (out max_bytes : U32) {a : U32}
    (h : a ∉ span out (frodfsList s m out max_bytes).2.2) :
    (frodfsList s m out max_bytes).2.1 a = m a := by
  unfold frodfsList at h ⊢
  split_ifs at h ⊢
  · rfl
  · have hne : ∀ j ≤ (frodfsListFrom s out max_bytes slots 0 (Function.update m out 0)).1, a ≠ off out j :=
      fun j hj he => h (mem_span.mpr ⟨j, Nat.lt_succ_of_le hj, he.symm⟩)
    have hfirst := hne 0 (Nat.zero_le _)
    rw [off_zero] at hfirst
    simp only
    rw [Function.update_of_ne (hne _ le_rfl), frodfsListFrom_outside _ _ _ _ _ _ fun j _ hj => hne j hj.le,
      Function.update_of_ne hfirst]

theorem frodfsList_fits_iff (s : Storage) (m : Ram) {out : U32} (max_bytes : U32) (h : out ≠ 0) :
    Fits out (frodfsList s m out max_bytes).2.2 ↔
      (max_bytes ≠ 0 → ListFits (usedNames s slots) out max_bytes.toNat 0) := by
  by_cases hm : max_bytes = 0
  · simp only [frodfsList, hm, or_true, if_true, fits_zero, ne_eq, not_true_eq_false, false_imp_iff]
  · simp only [frodfsList, h, hm, or_self, if_false, frodfsListFrom_fits_iff, ne_eq, not_false_eq_true,
      forall_const]

end FrodOS
