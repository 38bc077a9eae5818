import FrodOS.Frodfs.Extent
import FrodOS.Frodfs.Refinement

/-!
# The directory listing

`frodfs_list` writes whole lines as long as they fit. Its test asks for one byte more
than the text and its NUL need, so a buffer of exactly the right size loses the last
name.
-/

namespace FrodOS
open Lib

def newline : Byte := 10

def listing (names : List (List Byte)) : List Byte := names.flatMap (· ++ [newline])

/-- The bytes of all lines: each name and its newline. -/
def listSize (names : List (List Byte)) : ℕ := (names.map fun a => a.length + 1).sum

/-- Every line ends in a newline, so the last piece is empty and no line. -/
def splitLines (text : List Byte) : List (List Byte) := (text.splitOn newline).dropLast

/-- The names that `frodfs_list` gets to from output index `idx` on. -/
def fitting (max_bytes : ℕ) : List (List Byte) → ℕ → List (List Byte)
  | [], _ => []
  | a :: names, idx =>
    if idx + a.length + 2 ≥ max_bytes then [] else a :: fitting max_bytes names (idx + a.length + 1)

@[simp] theorem listing_nil : listing [] = [] := rfl

@[simp] theorem listing_cons (a : List Byte) (names : List (List Byte)) :
    listing (a :: names) = a ++ newline :: listing names := by simp [listing]

@[simp] theorem listSize_nil : listSize [] = 0 := rfl

@[simp] theorem listSize_cons (a : List Byte) (names : List (List Byte)) :
    listSize (a :: names) = a.length + 1 + listSize names := by simp [listSize]

theorem listing_length (names : List (List Byte)) : (listing names).length = listSize names := by
  induction names with
  | nil => rfl
  | cons a names ih =>
    simp only [listing_cons, listSize_cons, List.length_append, List.length_cons, ih]
    omega

theorem listing_nonzero {names : List (List Byte)} (h : ∀ a ∈ names, ∀ b ∈ a, b ≠ 0) :
    ∀ b ∈ listing names, b ≠ 0 := by
  induction names with
  | nil => simp
  | cons a names ih =>
    have ha := h a (List.mem_cons_self ..)
    have hrest := ih fun c hc => h c (List.mem_cons_of_mem _ hc)
    intro b hb
    rw [listing_cons, List.mem_append, List.mem_cons] at hb
    rcases hb with hb | rfl | hb
    · exact ha b hb
    · decide
    · exact hrest b hb

theorem splitLines_listing {names : List (List Byte)} (h : ∀ a ∈ names, newline ∉ a) :
    splitLines (listing names) = names := by
  have hsplit : (listing names).splitOn newline = names ++ [[]] := by
    induction names with
    | nil => rfl
    | cons a names ih =>
      rw [listing_cons, List.splitOn_append_cons_self_of_not_mem (h a (List.mem_cons_self ..)),
        ih fun c hc => h c (List.mem_cons_of_mem _ hc), List.cons_append]
  rw [splitLines, hsplit, List.dropLast_concat]

theorem fitting_initial (max_bytes : ℕ) (names : List (List Byte)) (idx : ℕ) :
    fitting max_bytes names idx <+: names := by
  induction names generalizing idx with
  | nil => exact List.prefix_refl _
  | cons a names ih =>
    rw [fitting]
    split_ifs
    · exact List.nil_prefix
    · exact List.cons_prefix_cons.mpr ⟨rfl, ih _⟩

theorem fitting_lt {max_bytes idx : ℕ} (names : List (List Byte)) (h : idx < max_bytes) :
    idx + listSize (fitting max_bytes names idx) < max_bytes := by
  induction names generalizing idx with
  | nil => exact h
  | cons a names ih =>
    rw [fitting]
    split_ifs with hfull
    · exact h
    · have hrest := ih (show idx + a.length + 1 < max_bytes by omega)
      rw [listSize_cons]
      omega

/-- All names are listed exactly when there are none or a byte is left over. -/
theorem fitting_eq_self_iff (max_bytes : ℕ) (names : List (List Byte)) (idx : ℕ) :
    fitting max_bytes names idx = names ↔ names = [] ∨ idx + listSize names + 1 < max_bytes := by
  induction names generalizing idx with
  | nil => simp [fitting]
  | cons a names ih =>
    rw [fitting, listSize_cons]
    by_cases hfull : idx + a.length + 2 ≥ max_bytes
    · rw [if_pos hfull]
      simp only [List.nil_eq, reduceCtorEq, false_or, false_iff]
      omega
    · rw [if_neg hfull]
      simp only [List.cons.injEq, true_and, ih, reduceCtorEq, false_or]
      constructor
      · intro h
        rcases h with rfl | h
        · rw [listSize_nil]
          omega
        · omega
      · exact fun h => Or.inr (by omega)

/-! ### The loop -/

def Shows (m : Ram) (p : U32) (text : List Byte) : Prop := ∀ j (h : j < text.length), m (off p j) = text[j]

theorem shows_nil (m : Ram) (p : U32) : Shows m p [] := fun j h => absurd h (Nat.not_lt_zero j)

theorem Shows.append {m : Ram} {p : U32} {a b : List Byte} (ha : Shows m p a)
    (hb : Shows m (off p a.length) b) : Shows m p (a ++ b) := by
  intro j hj
  rcases Nat.lt_or_ge j a.length with hlt | hge
  · rw [ha j hlt, List.getElem_append_left hlt]
  · rw [List.length_append] at hj
    have hnext := hb (j - a.length) (by omega)
    rw [off_off, Nat.add_sub_cancel' hge] at hnext
    rw [hnext, List.getElem_append_right hge]

theorem Shows.congr {m m' : Ram} {p : U32} {a : List Byte} (h : Shows m p a)
    (he : ∀ j < a.length, m' (off p j) = m (off p j)) : Shows m' p a :=
  fun j hj => (he j hj).trans (h j hj)

/-- The memory after a name has been copied and its newline put behind it. -/
def writeLine (m : Ram) (p : U32) (f : View) (n : ℕ) : Ram :=
  Function.update (writeBytes m p f n) (off p n) newline

theorem shows_writeLine (m : Ram) (p : U32) {f : View} {a : List Byte} (hf : IsCStr f a)
    (hlen : a.length < 2 ^ 32) : Shows (writeLine m p f a.length) p (a ++ [newline]) := by
  have hname : Shows (writeLine m p f a.length) p a := by
    intro j hj
    have hne : off p j ≠ off p a.length := fun he => by
      have := off_inj p _ _ (by omega) hlen he
      omega
    rw [writeLine, Function.update_of_ne hne, writeBytes_inside _ _ _ _ _ hlen.le hj, hf.bytes j hj]
  refine hname.append fun j hj => ?_
  obtain rfl : j = 0 := by simpa using hj
  rw [off_zero, writeLine, Function.update_self]
  rfl

theorem usedNames_used {s : Storage} {i : Fin 32} (l : List (Fin 32)) (h : (s i).used = true) :
    usedNames s (i :: l) = (s i).nameStr :: usedNames s l := by simp [usedNames, h]

theorem usedNames_unused {s : Storage} {i : Fin 32} (l : List (Fin 32)) (h : ¬ (s i).used = true) :
    usedNames s (i :: l) = usedNames s l := by simp [usedNames, h]

theorem frodfsListFrom_full {s : Storage} {out max_bytes : U32} {i : Fin 32} {l : List (Fin 32)}
    {idx : ℕ} {m : Ram} (hu : (s i).used = true)
    (h : max_bytes.toNat ≤ idx + (s i).nameStr.length + 2) :
    frodfsListFrom s out max_bytes (i :: l) idx m = (idx, m) := by
  rw [FrodfsEntry.nameStr, leading_length] at h
  simp only [frodfsListFrom, hu, if_true, ge_iff_le, h]

theorem frodfsListFrom_room {s : Storage} {out max_bytes : U32} {i : Fin 32} {l : List (Fin 32)}
    {idx : ℕ} {m : Ram} (hu : (s i).used = true)
    (h : ¬ max_bytes.toNat ≤ idx + (s i).nameStr.length + 2) :
    frodfsListFrom s out max_bytes (i :: l) idx m =
      frodfsListFrom s out max_bytes l (idx + (s i).nameStr.length + 1)
        (writeLine m (off out idx) (s i).nameView (s i).nameStr.length) := by
  rw [FrodfsEntry.nameStr, leading_length] at h ⊢
  simp only [frodfsListFrom, hu, if_true, ge_iff_le, h, if_false, writeLine, off_off]
  rfl

/-- From index `idx` on the loop writes the lines of the names that fit and stops behind
the last of them. -/
theorem frodfsListFrom_text (s : Storage) (out max_bytes : U32) (l : List (Fin 32)) {idx : ℕ} (m : Ram)
    (hidx : idx < max_bytes.toNat) :
    let names := fitting max_bytes.toNat (usedNames s l) idx
    let r := frodfsListFrom s out max_bytes l idx m
    r.1 = idx + listSize names ∧ Shows r.2 (off out idx) (listing names) := by
  induction l generalizing idx m with
  | nil => exact ⟨rfl, shows_nil _ _⟩
  | cons i l ih =>
    by_cases hu : (s i).used = true
    · obtain ⟨a, ha⟩ : ∃ a, a = (s i).nameStr := ⟨_, rfl⟩
      by_cases hfull : max_bytes.toNat ≤ idx + a.length + 2
      · simp only [usedNames_used l hu, ← ha, fitting, ge_iff_le, hfull, if_true,
          frodfsListFrom_full hu (ha ▸ hfull)]
        exact ⟨rfl, shows_nil _ _⟩
      · have hmax := max_bytes.isLt
        simp only [usedNames_used l hu, ← ha, fitting, ge_iff_le, hfull, if_false, listing_cons,
          listSize_cons, frodfsListFrom_room hu (ha ▸ hfull)]
        have hnext : idx + a.length + 1 < max_bytes.toNat := by omega
        obtain ⟨hend, hrest⟩ := ih (writeLine m (off out idx) (s i).nameView a.length) hnext
        have hlt := fitting_lt (usedNames s l) hnext
        refine ⟨by omega, ?_⟩
        have hline := shows_writeLine m (off out idx) (ha ▸ (s i).isCStr_nameStr) (by omega : a.length < _)
        rw [List.append_cons]
        refine (hline.congr fun j hj => ?_).append ?_
        · -- the lines behind this one do not come back to it
          rw [List.length_append, List.length_singleton] at hj
          rw [off_off]
          refine frodfsListFrom_outside _ _ _ _ _ _ fun n hn hn' he => ?_
          have := off_inj out _ _ (by omega) (by omega) he
          omega
        · rw [off_off, List.length_append, List.length_singleton]
          exact hrest
    · simp only [frodfsListFrom, hu, if_false, Bool.false_eq_true, usedNames_unused l hu]
      exact ih m hidx

theorem usedNames_nonzero (s : Storage) (l : List (Fin 32)) : ∀ a ∈ usedNames s l, ∀ b ∈ a, b ≠ 0 := by
  intro a ha
  obtain ⟨i, _, rfl⟩ := List.mem_map.mp ha
  exact (s i).isCStr_nameStr.nonzero

theorem frodfsList_text (s : Storage) (m : Ram) {out max_bytes : U32} (hout : out ≠ 0)
    (hmax : 1 ≤ max_bytes.toNat) :
    let names := fitting max_bytes.toNat (usedNames s slots) 0
    let r := frodfsList s m out max_bytes
    r.1 = 0 ∧ r.2.2 = listSize names + 1 ∧ IsCStr (view r.2.1 out) (listing names) := by
  obtain ⟨hend, htext⟩ := frodfsListFrom_text s out max_bytes slots (Function.update m out 0) hmax
  have hlt := fitting_lt (usedNames s slots) hmax
  have hbound := max_bytes.isLt
  rw [off_zero] at htext
  rw [Nat.zero_add] at hend hlt
  have hz : ¬ (out = 0 ∨ max_bytes = 0) := by
    intro h
    rcases h with h | rfl
    · exact hout h
    · exact absurd hmax (by decide)
  simp only [frodfsList, hz, if_false, hend]
  refine ⟨trivial, trivial, ?_, fun j hj => ?_, ?_⟩
  · exact listing_nonzero fun a ha => usedNames_nonzero s slots a ((fitting_initial _ _ _).subset ha)
  · have hlen := listing_length (fitting max_bytes.toNat (usedNames s slots) 0)
    rw [view, Function.update_of_ne fun he => ?_, htext j hj]
    have := off_inj out _ _ (by omega) (by omega) he
    omega
  · rw [view, listing_length, Function.update_self]

theorem frodfsList_refused (s : Storage) (m : Ram) {out max_bytes : U32} (h : out = 0 ∨ max_bytes = 0) :
    frodfsList s m out max_bytes = (-1, m, 0) := if_pos h

/-! ### The list of files -/

/-- The text of a listing into `max_bytes` bytes. -/
def Disk.list (d : Disk) (max_bytes : ℕ) : List Byte := listing (fitting max_bytes d.names 0)

theorem filterMap_getElem? {α : Type} {l : List α} {n : ℕ} (h : l.length ≤ n) :
    ((List.finRange n).filterMap fun i => l[i.val]?) = l := by
  induction n generalizing l with
  | zero => rw [List.length_eq_zero_iff.mp (Nat.le_zero.mp h), List.finRange_zero, List.filterMap_nil]
  | succ n ih =>
    rw [List.finRange_succ]
    cases l with
    | nil => simp
    | cons a l =>
      have hrest := ih (l := l) (Nat.le_of_succ_le_succ h)
      simpa [List.filterMap_map, Function.comp_def] using hrest

theorem Mirrors.usedNames_eq {s : Storage} {d : Disk} (h : Mirrors s d) : usedNames s slots = d.names := by
  have hmap : ∀ l : List (Fin 32), usedNames s l = (l.filterMap fun i => d.files[i.val]?).map Prod.fst := by
    intro l
    induction l with
    | nil => rfl
    | cons i l ih =>
      rw [List.filterMap_cons, ← h i]
      by_cases hu : (s i).used = true
      · rw [usedNames_used l hu, FrodfsEntry.contents, if_pos hu, ih]
        rfl
      · rw [usedNames_unused l hu, FrodfsEntry.contents, if_neg hu, ih]
  rw [hmap, filterMap_getElem? d.room]
  rfl

/-! ### Runs -/

inductive FsOp where
  | call (c : FsCall)
  | list (mem : Ram) (out max_bytes : U32)

def FsOp.run (s : Storage) : FsOp → Storage × (ℤ × Ram)
  | .call c => c.run s
  | .list mem out max_bytes =>
    let r := frodfsList s mem out max_bytes
    (s, r.1, r.2.1)

/-- The listing of `s` writes at indices below `max_bytes` and nowhere else, leaves the
lines of the first used slots there with a NUL behind them, and keeps the table. -/
structure ListsWithin (s : Storage) (mem : Ram) (out max_bytes : U32) : Prop where
  store : ((FsOp.list mem out max_bytes).run s).1 = s
  count : (frodfsList s mem out max_bytes).2.2 ≤ max_bytes.toNat
  outside : ∀ a ∉ span out (frodfsList s mem out max_bytes).2.2,
    (frodfsList s mem out max_bytes).2.1 a = mem a
  text : out ≠ 0 → ∃ k ≤ (usedNames s slots).length,
    IsCStr (view (frodfsList s mem out max_bytes).2.1 out) (listing ((usedNames s slots).take k))

theorem listsWithin (s : Storage) (mem : Ram) (out : U32) {max_bytes : U32} (hmax : 1 ≤ max_bytes.toNat) :
    ListsWithin s mem out max_bytes where
  store := rfl
  count := by
    by_cases hout : out = 0
    · rw [frodfsList_refused s mem (Or.inl hout)]
      exact Nat.zero_le _
    · obtain ⟨_, hcount, _⟩ := frodfsList_text s mem hout hmax
      have hlt := fitting_lt (usedNames s slots) hmax
      omega
  outside _ ha := frodfsList_outside s mem out max_bytes ha
  text hout := by
    obtain ⟨_, _, htext⟩ := frodfsList_text s mem hout hmax
    have hpre := fitting_initial max_bytes.toNat (usedNames s slots) 0
    rw [List.prefix_iff_eq_take.mp hpre] at htext
    exact ⟨_, hpre.length_le, htext⟩

/-- A listing never overruns, whatever calls came before it. -/
theorem frodfsList_never_overruns (s₀ : Storage) (ops : List FsOp) (mem : Ram) (out max_bytes : U32)
    (hmax : 1 ≤ max_bytes.toNat) :
    ListsWithin (final FsOp.run (frodfsInit s₀) ops) mem out max_bytes :=
  listsWithin _ mem out hmax

theorem frodfsList_never_overruns_tiny :
    ListsWithin (final FsOp.run (frodfsInit bootStorage) [.call (.create demoRam 0x300000)]) demoRam
      0x300100 1 :=
  frodfsList_never_overruns bootStorage _ demoRam 0x300100 1 (by decide)

/-! ### Complete listings -/

def NewlineFree (f : View) : Prop := ∀ i, (∀ j < i, f j ≠ 0) → f i ≠ newline

def FsOp.NewlineFree : FsOp → Prop
  | .call (.create mem name) => FrodOS.NewlineFree (view mem name)
  | _ => True

def NamesNewlineFree (s : Storage) : Prop := ∀ i, (s i).used = true → newline ∉ (s i).nameStr

theorem NewlineFree.leading {f : View} (h : NewlineFree f) (n : ℕ) : newline ∉ leading f n := by
  intro hin
  obtain ⟨i, hi, he⟩ := List.mem_map.mp hin
  obtain ⟨_, _, hnz, _⟩ := strlen_spec f n 0
  rw [List.mem_range] at hi
  exact h i (fun j hj => hnz j (Nat.zero_le j) (hj.trans hi)) he

theorem NamesNewlineFree.update {s : Storage} (h : NamesNewlineFree s) (i : Fin 32) {e : FrodfsEntry}
    (he : newline ∉ e.nameStr) : NamesNewlineFree (Function.update s i e) := by
  intro j hu
  by_cases hj : j = i
  · subst hj
    rwa [Function.update_self]
  · rw [Function.update_of_ne hj] at hu ⊢
    exact h j hu

theorem NamesNewlineFree.create {s : Storage} (h : NamesNewlineFree s) {mem : Ram} {name : U32}
    (hn : NewlineFree (view mem name)) : NamesNewlineFree (frodfsCreate s (ptr mem name)).2.1 := by
  by_cases hz : name = 0
  · rw [ptr, if_pos hz]
    exact h
  · simp only [ptr_of_ne mem hz, frodfsCreate]
    split_ifs
    · exact h
    · cases (findName s (view mem name) slots).1 with
      | some i => exact h
      | none =>
        cases findFree s with
        | some i =>
          refine h.update i ?_
          rw [FrodfsEntry.created_nameStr]
          exact hn.leading 31
        | none => exact h

theorem NamesNewlineFree.write {s : Storage} (h : NamesNewlineFree s) (name buffer : Option View)
    (size : U32) : NamesNewlineFree (frodfsWrite s name buffer size).2.1 := by
  cases name with
  | none => exact h
  | some name =>
    cases buffer with
    | none => exact h
    | some buffer =>
      simp only [frodfsWrite]
      split_ifs with hs
      · cases hf : (findName s name slots).1 with
        | none => exact h
        | some i =>
          refine h.update i ?_
          rw [FrodfsEntry.written_nameStr]
          exact h i (findName_some s name hf).2.1
      · exact h

theorem NamesNewlineFree.run {s : Storage} (h : NamesNewlineFree s) {op : FsOp} (hop : op.NewlineFree) :
    NamesNewlineFree (op.run s).1 := by
  cases op with
  | list => exact h
  | call c =>
    cases c with
    | create mem name => exact h.create hop
    | write mem name buffer size => exact h.write _ _ size
    | read => exact h

theorem NamesNewlineFree.final {s : Storage} (h : NamesNewlineFree s) {ops : List FsOp}
    (hops : ∀ op ∈ ops, op.NewlineFree) : NamesNewlineFree (final FsOp.run s ops) := by
  induction ops generalizing s with
  | nil => exact h
  | cons op ops ih =>
    exact ih (h.run (hops op (List.mem_cons_self ..))) fun o ho => hops o (List.mem_cons_of_mem _ ho)

theorem namesNewlineFree_init (s₀ : Storage) : NamesNewlineFree (frodfsInit s₀) :=
  fun _ hu => absurd hu (by simp [frodfsInit, FrodfsEntry.cleared])

/-- The listing succeeds and its lines are the names of the used slots in order. -/
def ListsAll (s : Storage) (mem : Ram) (out max_bytes : U32) : Prop :=
  (frodfsList s mem out max_bytes).1 = 0 ∧
    ∃ text, IsCStr (view (frodfsList s mem out max_bytes).2.1 out) text ∧
      splitLines text = usedNames s slots

theorem listsAll_iff {s : Storage} (h : NamesNewlineFree s) (mem : Ram) {out max_bytes : U32}
    (hout : out ≠ 0) (hmax : 1 ≤ max_bytes.toNat) :
    ListsAll s mem out max_bytes ↔ fitting max_bytes.toNat (usedNames s slots) 0 = usedNames s slots := by
  obtain ⟨hcode, _, htext⟩ := frodfsList_text s mem hout hmax
  have hfree : ∀ a ∈ fitting max_bytes.toNat (usedNames s slots) 0, newline ∉ a := by
    intro a ha
    obtain ⟨i, hi, rfl⟩ := List.mem_map.mp ((fitting_initial _ _ _).subset ha)
    exact h i (List.mem_filter.mp hi).2
  constructor
  · intro hall
    obtain ⟨_, text, ht, hsplit⟩ := hall
    rw [ht.unique htext, splitLines_listing hfree] at hsplit
    exact hsplit
  · intro he
    exact ⟨hcode, _, htext, (splitLines_listing hfree).trans he⟩

/-- With room for all lines and the NUL the listing is complete exactly when there is
nothing to list or one byte more. -/
theorem frodfsList_complete_iff (s₀ : Storage) (ops : List FsOp) (hops : ∀ op ∈ ops, op.NewlineFree)
    (mem : Ram) (out max_bytes : U32) (hout : out ≠ 0)
    (hmax : 1 + listSize (usedNames (final FsOp.run (frodfsInit s₀) ops) slots) ≤ max_bytes.toNat) :
    let s := final FsOp.run (frodfsInit s₀) ops
    ListsAll s mem out max_bytes ↔
      usedNames s slots = [] ∨ max_bytes.toNat ≠ 1 + listSize (usedNames s slots) := by
  intro s
  have hfree : NamesNewlineFree s := (namesNewlineFree_init s₀).final hops
  change 1 + listSize (usedNames s slots) ≤ max_bytes.toNat at hmax
  rw [listsAll_iff hfree mem hout (by omega), fitting_eq_self_iff]
  exact or_congr Iff.rfl (by omega)

def createdA : List FsOp := [.call (.create demoRam 0x300000)]

theorem createdA_newlineFree : ∀ op ∈ createdA, op.NewlineFree := by
  intro op hop
  obtain rfl := List.mem_singleton.mp hop
  intro i hi
  cases i with
  | zero => decide
  | succ i =>
    -- the second byte of the name is its NUL
    cases i with
    | zero => decide
    | succ i => exact absurd (by decide : view demoRam 0x300000 1 = 0) (hi 1 (by omega))

theorem createdA_names : usedNames (final FsOp.run (frodfsInit bootStorage) createdA) slots = [[97]] := by
  decide

theorem frodfsList_complete_iff_four :
    ListsAll (final FsOp.run (frodfsInit bootStorage) createdA) demoRam 0x300100 4 ↔
      usedNames (final FsOp.run (frodfsInit bootStorage) createdA) slots = [] ∨
        (4 : U32).toNat ≠ 1 + listSize (usedNames (final FsOp.run (frodfsInit bootStorage) createdA) slots) :=
  frodfsList_complete_iff bootStorage createdA createdA_newlineFree demoRam 0x300100 4 (by decide)
    (by rw [createdA_names]; decide)

/-- The listing of one file named "a" into three bytes comes back empty. -/
theorem frodfsList_not_complete_three :
    ¬ ∀ (s₀ : Storage) (ops : List FsOp) (mem : Ram) (out max_bytes : U32),
      (∀ op ∈ ops, op.NewlineFree) → out ≠ 0 →
      1 + listSize (usedNames (final FsOp.run (frodfsInit s₀) ops) slots) ≤ max_bytes.toNat →
      ListsAll (final FsOp.run (frodfsInit s₀) ops) mem out max_bytes := by
  intro h
  have hall := h bootStorage createdA demoRam 0x300100 3 createdA_newlineFree (by decide)
    (by rw [createdA_names]; decide)
  have hfree := (namesNewlineFree_init bootStorage).final createdA_newlineFree
  rw [listsAll_iff hfree demoRam (by decide) (by decide), createdA_names] at hall
  exact absurd hall (by decide)

end FrodOS
