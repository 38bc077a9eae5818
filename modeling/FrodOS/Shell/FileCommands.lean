import FrodOS.Shell.Language

/-!
# touch, write and cat (shell.c)

Which command a line in the buffer is for, and what each of the three makes of it: the name
that it passes to the kernel, what happens to the storage, and what it prints.
-/

namespace FrodOS
open Lib

/-! ### Parameter blocks and arrays -/

theorem storeArgs_outside (args : List U32) (m : Ram) (p : U32) {a : U32} (h : a ∉ span p (4 * args.length)) :
    storeArgs m p args a = m a := by
  induction args generalizing m p with
  | nil => rfl
  | cons v vs ih =>
    have hfirst : a ∉ span p 4 := fun hmem => h (span_mono p (by rw [List.length_cons]; omega) hmem)
    have hrest : a ∉ span (off p 4) (4 * vs.length) := fun hmem => by
      obtain ⟨j, hj, he⟩ := mem_span.mp hmem
      rw [off_off] at he
      exact h (mem_span.mpr ⟨4 + j, by rw [List.length_cons]; omega, he⟩)
    rw [storeArgs, ih _ _ hrest, store32_outside _ _ _ hfirst]

theorem load32_storeArgs (args : List U32) (m : Ram) (p : U32) (hlen : 4 * args.length ≤ 2 ^ 32) {i : ℕ}
    (hi : i < args.length) : load32 (storeArgs m p args) (off p (4 * i)) = args[i] := by
  induction args generalizing m p i with
  | nil => exact absurd hi (Nat.not_lt_zero i)
  | cons v vs ih =>
    rw [List.length_cons] at hlen hi
    rw [storeArgs]
    cases i with
    | zero =>
      have hkept : ∀ j < 4, view (storeArgs (store32 m p v) (off p 4) vs) p j = view (store32 m p v) p j := by
        intro j hj
        apply storeArgs_outside
        intro hmem
        obtain ⟨l, hl, he⟩ := mem_span.mp hmem
        rw [off_off] at he
        have hjl := off_inj p _ _ (by omega) (by omega) he
        omega
      rw [Nat.mul_zero, off_zero, load32, leWord_congr _ _ hkept]
      exact load32_store32 m p v (by decide)
    | succ i =>
      have hshift : off p (4 * (i + 1)) = off (off p 4) (4 * i) := by
        rw [off_off]
        congr 1
        omega
      rw [hshift, ih _ _ (by omega) (by omega)]
      rfl

theorem Apart.not_mem {p q : U32} {m n : ℕ} (h : Apart (p, m) (q, n)) (hp : Fits p m) (hq : Fits q n) {i : ℕ}
    (hi : i < m) : off p i ∉ span q n := by
  intro hmem
  obtain ⟨hle, hlt⟩ := (mem_span_iff hq).mp hmem
  unfold Fits at hp
  rw [off_toNat p i (by omega)] at hle hlt
  unfold Apart at h
  dsimp only at h
  omega

theorem userPtrOk_off {p : U32} {n i : ℕ} (hp : userBase ≤ p) (hfit : Fits p n) (hi : i < n) :
    userPtrOk (off p i) = true := by
  rw [userPtrOk_iff]
  have hle : userBase.toNat ≤ p.toNat := hp
  unfold Fits at hfit
  change userBase.toNat ≤ (off p i).toNat
  rw [off_toNat p i (by omega)]
  omega

namespace ShellFrame

variable {frame : ShellFrame}

theorem fits_buf : Fits frame.buf 256 := frame.fits _ (List.mem_cons_self ..)

theorem user_buf : userBase ≤ frame.buf := frame.user _ (List.mem_cons_self ..)

theorem user_object (frame : ShellFrame) {p : U32} (hp : p ∈ [frame.buf, frame.io_buffer, frame.bytes_read,
    frame.list_args, frame.write_args, frame.read_args]) : userPtrOk p = true :=
  (userPtrOk_iff p).mpr (frame.user p hp)

abbrev others (frame : ShellFrame) : List (U32 × ℕ) :=
  [(frame.io_buffer, 4096), (frame.bytes_read, 4), (frame.list_args, 8), (frame.write_args, 12),
    (frame.read_args, 16)]

/-- Writes to the other objects leave the buffer alone. -/
theorem buf_not_mem {p : U32} {n : ℕ} (hp : (p, n) ∈ frame.others) {i : ℕ} (hi : i < 256) :
    off frame.buf i ∉ span p n :=
  Apart.not_mem (frame.apart_buf _ hp) fits_buf (frame.fits _ (List.mem_cons_of_mem _ hp)) hi

end ShellFrame

/-! ### The calls -/

theorem ofInt_eq_zero_iff {c : ℤ} (h : -4 < c ∧ c ≤ 0) : BitVec.ofInt 32 c = 0 ↔ c = 0 := by
  have hcases : c = 0 ∨ c = -1 ∨ c = -2 ∨ c = -3 := by omega
  obtain rfl | rfl | rfl | rfl := hcases <;> decide

theorem ofInt_eq_neg_two_iff {c : ℤ} (h : -4 < c ∧ c ≤ 0) : BitVec.ofInt 32 c = -2 ↔ c = -2 := by
  have hcases : c = 0 ∨ c = -1 ∨ c = -2 ∨ c = -3 := by omega
  obtain rfl | rfl | rfl | rfl := hcases <;> decide

theorem frodfsCreate_code (s : Storage) (name : Option View) :
    -4 < (frodfsCreate s name).1 ∧ (frodfsCreate s name).1 ≤ 0 := by
  cases name with
  | none =>
    dsimp only [frodfsCreate]
    omega
  | some name =>
    rw [frodfsCreate]
    split_ifs with h0
    · dsimp only
      omega
    · dsimp only
      cases (findName s name slots).1 <;> cases findFree s <;> dsimp only <;> omega

theorem frodfsWrite_code (s : Storage) (name buffer : Option View) (size : U32) :
    -4 < (frodfsWrite s name buffer size).1 ∧ (frodfsWrite s name buffer size).1 ≤ 0 := by
  unfold frodfsWrite
  cases name with
  | none =>
    dsimp only
    omega
  | some name =>
    cases buffer with
    | none =>
      dsimp only
      omega
    | some buffer =>
      dsimp only
      split_ifs with hs
      · cases (findName s name slots).1 <;> dsimp only <;> omega
      · dsimp only
        omega

theorem makeSyscall_create (k : Kernel) {p : U32} (hp : userPtrOk p = true) :
    let r := frodfsCreate k.storage (some (view k.mem p))
    makeSyscall k 10 p = ({ k with storage := r.2.1 }, BitVec.ofInt 32 r.1) := by
  have hcall : fsCall k ⟨0, 0, 0, 0, p, 0, 0, 10⟩ = sysFsCreate k ⟨0, 0, 0, 0, p, 0, 0, 10⟩ := rfl
  simp only [makeSyscall, hcall, sysFsCreate, hp, if_true, answer, view_of_userPtrOk _ hp]

theorem param_storeArgs (k : Kernel) (m : Ram) (args : List U32) (p : U32) (hlen : 4 * args.length ≤ 2 ^ 32)
    {i : ℕ} (hi : i < args.length) : param { k with mem := storeArgs m p args } p i = args[i] :=
  load32_storeArgs args m p hlen hi

theorem makeSyscall_write (k : Kernel) (m : Ram) {p name source : U32} (size : U32) (hp : userPtrOk p = true)
    (hn : userPtrOk name = true) (hs : userPtrOk source = true) :
    let m' := storeArgs m p [name, source, size]
    let r := frodfsWrite k.storage (some (view m' name)) (some (view m' source)) size
    makeSyscall { k with mem := m' } 11 p = ({ k with mem := m', storage := r.2.1 }, BitVec.ofInt 32 r.1) := by
  have hparam : ∀ i (hi : i < 3), param { k with mem := storeArgs m p [name, source, size] } p i =
      [name, source, size][i] := fun i hi => param_storeArgs k m _ p (by simp) hi
  have h₀ := hparam 0 (by omega)
  have h₁ := hparam 1 (by omega)
  have h₂ := hparam 2 (by omega)
  clear hparam
  simp only [List.getElem_cons_zero, List.getElem_cons_succ] at h₀ h₁ h₂
  generalize storeArgs m p [name, source, size] = m' at h₀ h₁ h₂ ⊢
  have hcall : fsCall { k with mem := m' } ⟨0, 0, 0, 0, p, 0, 0, 11⟩ =
      sysFsWrite { k with mem := m' } ⟨0, 0, 0, 0, p, 0, 0, 11⟩ := rfl
  simp only [makeSyscall, hcall, sysFsWrite, hp, h₀, h₁, h₂, hn, hs, Bool.and_self, if_true, answer,
    view_of_userPtrOk _ hn, view_of_userPtrOk _ hs]

theorem makeSyscall_read (k : Kernel) (m : Ram) {p name dest out : U32} (max : U32) (hp : userPtrOk p = true)
    (hn : userPtrOk name = true) (hd : userPtrOk dest = true) (ho : userPtrOk out = true) :
    let m' := storeArgs m p [name, dest, max, out]
    let r := frodfsRead k.storage m' (some (view m' name)) dest max out
    makeSyscall { k with mem := m' } 12 p = ({ k with mem := r.2.1 }, BitVec.ofInt 32 r.1) := by
  have hparam : ∀ i (hi : i < 4), param { k with mem := storeArgs m p [name, dest, max, out] } p i =
      [name, dest, max, out][i] := fun i hi => param_storeArgs k m _ p (by simp) hi
  have h₀ := hparam 0 (by omega)
  have h₁ := hparam 1 (by omega)
  have h₂ := hparam 2 (by omega)
  have h₃ := hparam 3 (by omega)
  clear hparam
  simp only [List.getElem_cons_zero, List.getElem_cons_succ] at h₀ h₁ h₂ h₃
  generalize storeArgs m p [name, dest, max, out] = m' at h₀ h₁ h₂ h₃ ⊢
  have hcall : fsCall { k with mem := m' } ⟨0, 0, 0, 0, p, 0, 0, 12⟩ =
      sysFsRead { k with mem := m' } ⟨0, 0, 0, 0, p, 0, 0, 12⟩ := rfl
  simp only [makeSyscall, hcall, sysFsRead, hp, h₀, h₁, h₂, h₃, hn, hd, ho, Bool.and_self, if_true, answer,
    view_of_userPtrOk _ hn]

/-! ### The line and its command -/

/-- What is left of a line that ends at its first carriage return or newline. -/
def lineOf (line : List Byte) : List Byte := line.takeWhile fun c => c != 0 && c != 13 && c != 10

theorem lineOf_head {l : List Byte} {b : Byte} (h : l.head? ≠ some b) : (lineOf l).head? ≠ some b := by
  cases l with
  | nil => exact h
  | cons c cs =>
    rw [lineOf, List.takeWhile_cons]
    split_ifs
    · exact h
    · exact nofun

theorem lineOf_append {u : List Byte} (hnul : ∀ b ∈ u, b ≠ 0) (hcr : 13 ∉ u) (hlf : 10 ∉ u) (v : List Byte) :
    lineOf (u ++ v) = u ++ lineOf v := by
  apply List.takeWhile_append_of_pos
  intro b hb
  rw [Bool.and_eq_true, Bool.and_eq_true]
  exact ⟨⟨bne_iff_ne.mpr (hnul b hb), bne_iff_ne.mpr fun he => hcr (he ▸ hb)⟩,
    bne_iff_ne.mpr fun he => hlf (he ▸ hb)⟩

theorem lineOf_eq_self_iff {u : List Byte} (hnul : ∀ b ∈ u, b ≠ 0) : lineOf u = u ↔ 10 ∉ u ∧ 13 ∉ u := by
  constructor
  · intro he
    have hall := List.takeWhile_eq_self_iff.mp he
    constructor
    · exact fun hb => absurd (hall 10 hb) (by decide)
    · exact fun hb => absurd (hall 13 hb) (by decide)
  · intro hbreaks
    have hsplit := lineOf_append hnul hbreaks.2 hbreaks.1 []
    rwa [List.append_nil, show lineOf [] = [] from rfl, List.append_nil] at hsplit

/-- What comes behind a carriage return is not looked at. -/
theorem lineOf_cut {u : List Byte} (hcr : 13 ∈ u) (v : List Byte) : lineOf (u ++ v) = lineOf u := by
  rw [lineOf, List.takeWhile_append, if_neg]
  · rfl
  · intro hall
    have hself := (List.takeWhile_prefix _).eq_of_length hall
    exact absurd (List.takeWhile_eq_self_iff.mp hself 13 hcr) (by decide)

theorem userStrcmp_eq_zero_iff {cmd : View} {line word : List Byte} (h : IsCStr cmd line)
    (hlen : line.length ≤ 255) (hword : 0 ∉ word) : userStrcmp cmd (cstr word) = 0 ↔ line = word := by
  have hw := isCStr_cstr word fun b hb he => hword (he ▸ hb)
  rw [userStrcmp, strcmp_eq_zero_iff h (by omega)]
  constructor
  · exact fun hc => hc.unique hw
  · intro he
    rw [he]
    exact hw

theorem userStrncmp_eq_zero_iff {cmd : View} {line : List Byte} (h : IsCStr cmd line) {word : List Byte}
    (hword : 0 ∉ word) : userStrncmp cmd (cstr word) word.length = 0 ↔ word <+: line := by
  have hw := isCStr_cstr word fun b hb he => hword (he ▸ hb)
  rw [← stop_eq_length_iff h hw, userStrncmp]
  constructor
  · intro hz
    by_contra hne
    rw [if_neg hne] at hz
    obtain ⟨-, hk, -, hstop⟩ := stop_spec cmd (cstr word) word.length 0
    have hlt : stop cmd (cstr word) word.length 0 < word.length := by omega
    have hbytes : cmd (stop cmd (cstr word) word.length 0) =
        cstr word (stop cmd (cstr word) word.length 0) := by
      apply BitVec.eq_of_toNat_eq
      omega
    rcases hstop (by omega) with hzero | hdiff
    · exact hw.ne_zero hlt (hbytes ▸ hzero)
    · exact hdiff hbytes
  · exact fun he => if_pos he

namespace ShellFrame

variable {frame : ShellFrame} {m : Ram} {line : List Byte}

theorem endLine_line (h : IsCStr (view m frame.buf) line) (hlen : line.length ≤ 255) :
    IsCStr (view (frame.endLine m) frame.buf) (lineOf line) := by
  have hscan := h.scan_eq (p := fun c => c != 0 && c != 13 && c != 10) (by decide) (Nat.zero_le _)
    (show line.length ≤ 0 + 256 by omega)
  rw [List.drop_zero, Nat.zero_add] at hscan
  have htake : line.take (lineOf line).length = lineOf line :=
    (List.prefix_iff_eq_take.mp (List.takeWhile_prefix _)).symm
  have hle : (lineOf line).length ≤ line.length := List.takeWhile_prefix _ |>.length_le
  rw [endLine, hscan]
  split_ifs with hz
  · -- the line ends at its NUL
    have hend : (lineOf line).length = line.length := by
      by_contra hne
      exact h.ne_zero (show (lineOf line).length < line.length by omega) hz
    rw [← htake, hend, List.take_length]
    exact h
  · rw [← htake]
    exact h.cut hle (by omega)

theorem ascii_help : ascii "help" = [104, 101, 108, 112] := by decide

theorem ascii_clear : ascii "clear" = [99, 108, 101, 97, 114] := by decide

theorem ascii_beep : ascii "beep" = [98, 101, 101, 112] := by decide

theorem ascii_ls : ascii "ls" = [108, 115] := by decide

theorem ascii_touch : ascii "touch " = [116, 111, 117, 99, 104, 32] := by decide

theorem ascii_write : ascii "write " = [119, 114, 105, 116, 101, 32] := by decide

theorem ascii_cat : ascii "cat " = [99, 97, 116, 32] := by decide

theorem length_touch : (ascii "touch ").length = 6 := by rw [ascii_touch]; rfl

theorem length_write : (ascii "write ").length = 6 := by rw [ascii_write]; rfl

theorem length_cat : (ascii "cat ").length = 4 := by rw [ascii_cat]; rfl

variable (exec : ExecFrame) {k : Kernel} {A : List Byte}

/-- The kernel once the end of the line has been cut off. -/
def cutLine (frame : ShellFrame) (k : Kernel) : Kernel := { k with mem := frame.endLine k.mem }

theorem runCommand_eq (h : IsCStr (view k.mem frame.buf) line) (hlen : line.length ≤ 255) :
    let k' := frame.cutLine k
    frame.runCommand exec k = Command.select (lineOf line) (help k') ⟨k', [.clear], none⟩
      ⟨k', [say "Sounding hardware test\n", .playSound 1000, .noSound], none⟩ (frame.ls k') (frame.touch k')
      (frame.write k') (frame.cat k') (frame.launch exec k') := by
  have hcut := endLine_line h hlen
  have hle : (lineOf line).length ≤ 255 := (List.takeWhile_prefix _).length_le.trans hlen
  generalize lineOf line = cmd at hcut hle ⊢
  have hword : ∀ word : List Byte, 0 ∉ word →
      (userStrcmp (view (frame.endLine k.mem) frame.buf) (cstr word) = 0 ↔ cmd = word) :=
    fun _ hw => userStrcmp_eq_zero_iff hcut hle hw
  have hstart : ∀ (word : List Byte) (n : ℕ), 0 ∉ word → word.length = n →
      (userStrncmp (view (frame.endLine k.mem) frame.buf) (cstr word) n = 0 ↔ word <+: cmd) :=
    fun _ _ hw hn => hn ▸ userStrncmp_eq_zero_iff hcut hw
  unfold runCommand Command.select
  dsimp only
  simp only [hword (ascii "help") (by rw [ascii_help]; decide), hword (ascii "clear") (by rw [ascii_clear]; decide),
    hword (ascii "beep") (by rw [ascii_beep]; decide), hword (ascii "ls") (by rw [ascii_ls]; decide),
    hstart (ascii "touch ") 6 (by rw [ascii_touch]; decide) length_touch,
    hstart (ascii "write ") 6 (by rw [ascii_write]; decide) length_write,
    hstart (ascii "cat ") 4 (by rw [ascii_cat]; decide) length_cat]
  rfl

section

variable {α : Type} {help clear beep ls touch write cat launch : α}

theorem ne_of_start {word other line : List Byte} (h : word <+: line) (hne : ¬ word <+: other) : line ≠ other :=
  fun he => hne (he ▸ h)

theorem not_start_of_start {word other line : List Byte} (h : word <+: line) (hlen : word.length ≤ other.length)
    (hne : ¬ word <+: other) : ¬ other <+: line := fun ho => hne (List.prefix_of_prefix_length_le h ho hlen)

theorem select_touch (h : ascii "touch " <+: line) :
    Command.select line help clear beep ls touch write cat launch = touch := by
  unfold Command.select
  rw [ascii_touch] at h
  simp only [ascii_help, ascii_clear, ascii_beep, ascii_ls, ascii_touch]
  rw [if_neg (ne_of_start h (by decide)), if_neg (ne_of_start h (by decide)), if_neg (ne_of_start h (by decide)),
    if_neg (ne_of_start h (by decide)), if_pos h]

theorem select_write (h : ascii "write " <+: line) :
    Command.select line help clear beep ls touch write cat launch = write := by
  unfold Command.select
  rw [ascii_write] at h
  simp only [ascii_help, ascii_clear, ascii_beep, ascii_ls, ascii_touch, ascii_write]
  rw [if_neg (ne_of_start h (by decide)), if_neg (ne_of_start h (by decide)), if_neg (ne_of_start h (by decide)),
    if_neg (ne_of_start h (by decide)), if_neg (not_start_of_start h (by decide) (by decide)), if_pos h]

theorem select_cat (h : ascii "cat " <+: line) :
    Command.select line help clear beep ls touch write cat launch = cat := by
  unfold Command.select
  rw [ascii_cat] at h
  simp only [ascii_help, ascii_clear, ascii_beep, ascii_ls, ascii_touch, ascii_write, ascii_cat]
  rw [if_neg (ne_of_start h (by decide)), if_neg (ne_of_start h (by decide)), if_neg (ne_of_start h (by decide)),
    if_neg (ne_of_start h (by decide)), if_neg (not_start_of_start h (by decide) (by decide)),
    if_neg (not_start_of_start h (by decide) (by decide)), if_pos h]

end

theorem cutLine_line {word : List Byte} (hword : lineOf word = word)
    (h : IsCStr (view k.mem frame.buf) (word ++ A)) (hlen : (word ++ A).length ≤ 255) :
    lineOf (word ++ A) = word ++ lineOf A ∧
      IsCStr (view (frame.cutLine k).mem frame.buf) (word ++ lineOf A) ∧ (word ++ lineOf A).length ≤ 255 := by
  have hsplit : lineOf (word ++ A) = word ++ lineOf A :=
    List.takeWhile_append_of_pos (List.takeWhile_eq_self_iff.mp hword)
  rw [← hsplit]
  exact ⟨rfl, endLine_line h hlen, (List.takeWhile_prefix _).length_le.trans hlen⟩

theorem runCommand_touch (h : IsCStr (view k.mem frame.buf) (ascii "touch " ++ A))
    (hlen : (ascii "touch " ++ A).length ≤ 255) :
    frame.runCommand exec k = frame.touch (frame.cutLine k) ∧
      IsCStr (view (frame.cutLine k).mem frame.buf) (ascii "touch " ++ lineOf A) ∧
      (ascii "touch " ++ lineOf A).length ≤ 255 := by
  obtain ⟨hsplit, hline⟩ := cutLine_line (by rw [ascii_touch]; decide) h hlen
  refine ⟨(runCommand_eq exec h hlen).trans ?_, hline⟩
  rw [hsplit]
  exact select_touch (List.prefix_append _ _)

theorem runCommand_write (h : IsCStr (view k.mem frame.buf) (ascii "write " ++ A))
    (hlen : (ascii "write " ++ A).length ≤ 255) :
    frame.runCommand exec k = frame.write (frame.cutLine k) ∧
      IsCStr (view (frame.cutLine k).mem frame.buf) (ascii "write " ++ lineOf A) ∧
      (ascii "write " ++ lineOf A).length ≤ 255 := by
  obtain ⟨hsplit, hline⟩ := cutLine_line (by rw [ascii_write]; decide) h hlen
  refine ⟨(runCommand_eq exec h hlen).trans ?_, hline⟩
  rw [hsplit]
  exact select_write (List.prefix_append _ _)

theorem runCommand_cat (h : IsCStr (view k.mem frame.buf) (ascii "cat " ++ A))
    (hlen : (ascii "cat " ++ A).length ≤ 255) :
    frame.runCommand exec k = frame.cat (frame.cutLine k) ∧
      IsCStr (view (frame.cutLine k).mem frame.buf) (ascii "cat " ++ lineOf A) ∧
      (ascii "cat " ++ lineOf A).length ≤ 255 := by
  obtain ⟨hsplit, hline⟩ := cutLine_line (by rw [ascii_cat]; decide) h hlen
  refine ⟨(runCommand_eq exec h hlen).trans ?_, hline⟩
  rw [hsplit]
  exact select_cat (List.prefix_append _ _)

/-! ### What the commands are given -/

theorem kept {m m' : Ram} {s : List Byte} {i : ℕ} (h : IsCStr (view m (off frame.buf i)) s)
    (hi : i + s.length < 256) {p : U32} {n : ℕ} (hp : (p, n) ∈ frame.others)
    (hm : ∀ a, a ∉ span p n → m' a = m a) : IsCStr (view m' (off frame.buf i)) s := by
  apply h.congr
  intro j hj
  rw [view, view, off_off]
  exact hm _ (buf_not_mem hp (by omega))

theorem user_at {i : ℕ} (hi : i < 256) : userPtrOk (off frame.buf i) = true :=
  userPtrOk_off user_buf fits_buf hi

theorem skip_at {m : Ram} {j : ℕ} {s : List Byte} (h : IsCStr (view m (off frame.buf j)) s)
    (hlen : s.length ≤ 255) :
    let i := skipSpaces (view m frame.buf) j
    let rest := s.dropWhile fun c => c == 32
    IsCStr (view m (off frame.buf i)) rest ∧ i + rest.length = j + s.length := by
  have hscan := h.scan_eq (p := fun c => c == 32) (by decide) (Nat.zero_le _) (show s.length ≤ 0 + 256 by omega)
  have hshift := scan_shift (fun c => c == 32) (view m frame.buf) j 256 0
  rw [view_off] at hscan
  rw [hscan, List.drop_zero, Nat.zero_add, Nat.add_zero] at hshift
  have hparts : (s.takeWhile fun c => c == 32) ++ (s.dropWhile fun c => c == 32) = s :=
    List.takeWhile_append_dropWhile
  have hcount := congrArg List.length hparts
  rw [List.length_append] at hcount
  dsimp only
  rw [skipSpaces, hshift]
  refine ⟨?_, by omega⟩
  rw [← off_off]
  rw [← hparts] at h
  exact h.behind rfl

theorem operand_at {m : Ram} (h : IsCStr (view m frame.buf) line) (hlen : line.length ≤ 255) {n : ℕ}
    (hn : n ≤ line.length) :
    let i := skipSpaces (view m frame.buf) n
    IsCStr (view m (off frame.buf i)) (Command.operand n line) ∧ i + (Command.operand n line).length = line.length := by
  have hrest := h.drop hn
  rw [← view_off] at hrest
  have hsplit := List.length_drop (i := n) (l := line)
  obtain ⟨hoperand, hend⟩ := skip_at hrest (by omega)
  exact ⟨hoperand, hend.trans (by omega)⟩

/-- The word and what is behind it, once the space between them is a NUL. -/
theorem split_word {m : Ram} {i : ℕ} {name tail : List Byte}
    (h : IsCStr (view m (off frame.buf i)) (name ++ 32 :: tail)) (hlen : i + (name ++ 32 :: tail).length ≤ 255) :
    let m' := Function.update m (off frame.buf (i + name.length)) 0
    m (off frame.buf (i + name.length)) = 32 ∧ IsCStr (view m' (off frame.buf i)) name ∧
      IsCStr (view m' (off frame.buf (i + name.length + 1))) tail := by
  have hword : name.length < (name ++ 32 :: tail).length := by
    rw [List.length_append, List.length_cons]
    omega
  have hspace := h.bytes name.length hword
  rw [view, off_off, List.getElem_append_right (Nat.le_refl _)] at hspace
  have hcut := h.cut hword.le (by omega)
  rw [off_off, List.take_left] at hcut
  refine ⟨hspace.trans (by simp), hcut, ?_⟩
  have hsplit : name ++ 32 :: tail = (name ++ [32]) ++ tail := by rw [List.append_assoc]; rfl
  rw [hsplit] at h hlen
  have hthere := h.behind (n := name.length + 1) (by rw [List.length_append, List.length_singleton])
  rw [off_off, ← Nat.add_assoc] at hthere
  apply hthere.congr
  intro j hj
  rw [List.length_append, List.length_append, List.length_singleton] at hlen
  rw [view, view, off_off, Function.update_of_ne]
  intro he
  have heq := off_inj frame.buf _ _ (by omega) (by omega) he
  omega

/-! ### The three commands -/

/-- A touch creates the rest of the line. -/
theorem touch_eq {k : Kernel} (hline : IsCStr (view k.mem frame.buf) line) (hlen : line.length ≤ 255)
    (hword : 6 ≤ line.length) :
    let name := Command.operand 6 line
    (name = [] → frame.touch k = ⟨k, [say "Usage: touch <filename>\n"], none⟩) ∧
      (name ≠ [] → ∃ arg : View, IsCStr arg name ∧
        let r := frodfsCreate k.storage (some arg)
        frame.touch k = ⟨{ k with storage := r.2.1 }, [say (Command.touchText r.1)], none⟩) := by
  obtain ⟨hname, hend⟩ := operand_at hline hlen hword
  rw [touch]
  dsimp only
  generalize skipSpaces (view k.mem frame.buf) 6 = i at hname hend ⊢
  generalize Command.operand 6 line = name at hname hend ⊢
  have hfirst : k.mem (off frame.buf i) = 0 ↔ name = [] := by
    have hzero := hname.head_eq_zero_iff
    rwa [view, off_zero] at hzero
  refine ⟨fun hempty => if_pos (hfirst.mpr hempty), fun hpos => ⟨_, hname, ?_⟩⟩
  rw [if_neg (mt hfirst.mp hpos), makeSyscall_create k (user_at (by omega))]
  have hcode := frodfsCreate_code k.storage (some (view k.mem (off frame.buf i)))
  dsimp only
  simp only [ofInt_eq_zero_iff hcode, ofInt_eq_neg_two_iff hcode]
  generalize frodfsCreate k.storage (some (view k.mem (off frame.buf i))) = r
  unfold Command.touchText
  split_ifs
  all_goals rfl

/-- A write names the first word and stores what follows the spaces behind it. -/
theorem write_eq {k : Kernel} (hline : IsCStr (view k.mem frame.buf) line) (hlen : line.length ≤ 255)
    (hword : 6 ≤ line.length) :
    let rest := Command.operand 6 line
    let name := Command.firstWord rest
    let text := Command.operand (name.length + 1) rest
    (name = rest → frame.write k = ⟨k, [say "Usage: write <filename> <text payload contents>\n"], none⟩) ∧
      (name ≠ rest → ∃ (m : Ram) (arg source : View), IsCStr arg name ∧ IsCStr source text ∧ text.length ≤ 255 ∧
        let r := frodfsWrite k.storage (some arg) (some source) (BitVec.ofNat 32 text.length)
        frame.write k = ⟨{ k with mem := m, storage := r.2.1 }, [say (Command.writeText r.1)], none⟩) := by
  obtain ⟨hrest, hend⟩ := operand_at hline hlen hword
  rw [write]
  dsimp only
  generalize skipSpaces (view k.mem frame.buf) 6 = i at hrest hend ⊢
  generalize Command.operand 6 line = rest at hrest hend ⊢
  have hscan : scan (fun c => c != 0 && c != 32) (view k.mem frame.buf) 256 i =
      i + (Command.firstWord rest).length := by
    have hword := hrest.scan_eq (p := fun c => c != 0 && c != 32) (by decide) (Nat.zero_le _)
      (show rest.length ≤ 0 + 256 by omega)
    have hshift := scan_shift (fun c => c != 0 && c != 32) (view k.mem frame.buf) i 256 0
    rw [view_off] at hword
    rw [hword, List.drop_zero, Nat.zero_add, Nat.add_zero] at hshift
    exact hshift
  rw [hscan]
  refine ⟨fun hall => ?_, fun hne => ?_⟩
  · -- the word goes to the end of the line
    have hnul : k.mem (off frame.buf (i + (Command.firstWord rest).length)) = 0 := by
      have hnul := hrest.nul
      rwa [view, off_off, ← hall] at hnul
    rw [hnul, if_neg (by decide)]
  · obtain ⟨tail, htail⟩ := (Command.firstWord_cases hrest.nonzero).resolve_left hne
    generalize Command.firstWord rest = name at htail ⊢
    subst htail
    obtain ⟨hspace, hname, hbehind⟩ := split_word hrest (by omega)
    rw [List.length_append, List.length_cons] at hend
    obtain ⟨htext, hfits⟩ := skip_at hbehind (by omega)
    rw [hspace, if_pos rfl, Command.operand_text]
    generalize Function.update k.mem (off frame.buf (i + name.length)) 0 = m at hname htext hfits ⊢
    generalize skipSpaces (view m frame.buf) (i + name.length + 1) = start at htext hfits ⊢
    generalize (tail.dropWhile fun c => c == 32) = text at htext hfits ⊢
    rw [htext.scan_nul (by omega), makeSyscall_write k m _ (frame.user_object (by simp)) (user_at (by omega))
      (user_at (by omega))]
    have hblock : ∀ a, a ∉ span frame.write_args 12 → storeArgs m frame.write_args
        [off frame.buf i, off frame.buf start, BitVec.ofNat 32 text.length] a = m a :=
      fun a ha => storeArgs_outside _ m _ ha
    generalize storeArgs m frame.write_args
      [off frame.buf i, off frame.buf start, BitVec.ofNat 32 text.length] = m' at hblock ⊢
    refine ⟨m', view m' (off frame.buf i), view m' (off frame.buf start),
      kept hname (by omega) (p := frame.write_args) (n := 12) (by simp) hblock,
      kept htext (by omega) (p := frame.write_args) (n := 12) (by simp) hblock, by omega, ?_⟩
    have hcode := ofInt_eq_zero_iff (frodfsWrite_code k.storage (some (view m' (off frame.buf i)))
      (some (view m' (off frame.buf start))) (BitVec.ofNat 32 text.length))
    dsimp only
    simp only [hcode]
    unfold Command.writeText
    split_ifs
    all_goals rfl

/-- A cat reads the file that has the rest of the line for its name, or tries to. -/
theorem cat_eq {k : Kernel} (hline : IsCStr (view k.mem frame.buf) line) (hlen : line.length ≤ 255)
    (hword : 4 ≤ line.length) :
    let name := Command.operand 4 line
    (name = [] → frame.cat k = ⟨k, [say "Usage: cat <filename>\n"], none⟩) ∧
      (name ≠ [] → ∃ (m : Ram) (arg : View), IsCStr arg name ∧
        let r := frodfsRead k.storage m (some arg) frame.io_buffer (4096 - 1) frame.bytes_read
        let shown := Function.update r.2.1 (off frame.io_buffer (load32 r.2.1 frame.bytes_read).toNat) 0
        frame.cat k =
          if BitVec.ofInt 32 r.1 = 0 then
            ⟨{ k with mem := shown }, [.print (leading (view shown frame.io_buffer) 4096), say "\n"], none⟩
          else ⟨{ k with mem := r.2.1 }, [say "Error: Target file not found or unreadable.\n"], none⟩) := by
  obtain ⟨hname, hend⟩ := operand_at hline hlen hword
  rw [cat]
  dsimp only
  generalize skipSpaces (view k.mem frame.buf) 4 = i at hname hend ⊢
  generalize Command.operand 4 line = name at hname hend ⊢
  have hfirst : k.mem (off frame.buf i) = 0 ↔ name = [] := by
    have hzero := hname.head_eq_zero_iff
    rwa [view, off_zero] at hzero
  refine ⟨fun hempty => if_pos (hfirst.mpr hempty), fun hpos => ?_⟩
  rw [if_neg (mt hfirst.mp hpos)]
  have hcount : IsCStr (view (store32 k.mem frame.bytes_read 0) (off frame.buf i)) name :=
    kept hname (by omega) (p := frame.bytes_read) (n := 4) (by simp) fun a ha => store32_outside _ _ _ ha
  generalize store32 k.mem frame.bytes_read 0 = m at hcount ⊢
  have hblock : IsCStr (view (storeArgs m frame.read_args
      [off frame.buf i, frame.io_buffer, 4096 - 1, frame.bytes_read]) (off frame.buf i)) name :=
    kept hcount (by omega) (p := frame.read_args) (n := 16) (by simp) fun a ha => storeArgs_outside _ m _ ha
  rw [makeSyscall_read k m _ (frame.user_object (by simp)) (user_at (by omega)) (frame.user_object (by simp))
    (frame.user_object (by simp))]
  generalize storeArgs m frame.read_args [off frame.buf i, frame.io_buffer, 4096 - 1, frame.bytes_read] = m'
    at hblock ⊢
  exact ⟨m', view m' (off frame.buf i), hblock, rfl⟩

/-- The bytes that a read left in `io_buffer`, once the byte behind them is cleared. -/
theorem delivered_shown (m : Ram) {file : List Byte} (hfits : file.length ≤ 4095) (v : U32) :
    leading (view (Function.update
      (store32 (writeBytes m frame.io_buffer (cstr file) file.length) frame.bytes_read v)
      (off frame.io_buffer file.length) 0) frame.io_buffer) 4096 = file.takeWhile fun c => c != 0 := by
  have hstring := isCStr_takeWhile (s := file) (f := view (Function.update
      (store32 (writeBytes m frame.io_buffer (cstr file) file.length) frame.bytes_read v)
      (off frame.io_buffer file.length) 0) frame.io_buffer) (fun j hj => ?_) ?_
  · exact hstring.leading_eq ((List.takeWhile_prefix _).length_le.trans (by omega))
  · have hne : off frame.io_buffer j ≠ off frame.io_buffer file.length := fun he => by
      have heq := off_inj frame.io_buffer _ _ (by omega) (by omega) he
      omega
    have hapart : off frame.io_buffer j ∉ span frame.bytes_read 4 :=
      (frame.apart_io (frame.bytes_read, 4) (by simp)).not_mem (frame.fits (frame.io_buffer, 4096) (by simp))
        (frame.fits (frame.bytes_read, 4) (by simp)) (by omega)
    rw [view, Function.update_of_ne hne, store32_outside _ _ _ hapart,
      writeBytes_inside m _ _ _ _ (by omega) hj]
    exact List.getD_eq_getElem _ _ hj
  · rw [view, Function.update_self]

/-! ### On their own words -/

theorem starts_length {word B : List Byte} {n : ℕ} (h : word.length = n) : n ≤ (word ++ B).length := by
  rw [List.length_append]
  omega

/-- A touch that reports success has created the rest of the line. -/
theorem touch_created {k : Kernel} {B : List Byte} (h : IsCStr (view k.mem frame.buf) (ascii "touch " ++ B))
    (hlen : (ascii "touch " ++ B).length ≤ 255) (hB : B.head? ≠ some 32)
    (hok : (frame.touch k).effects = [say "File created successfully.\n"]) :
    B ≠ [] ∧ ∃ arg : View, IsCStr arg B ∧
      let r := frodfsCreate k.storage (some arg)
      r.1 = 0 ∧ (frame.touch k).kernel.storage = r.2.1 := by
  obtain ⟨husage, hcreate⟩ := touch_eq h hlen (starts_length length_touch)
  rw [Command.operand_word length_touch.symm hB] at husage hcreate
  by_cases hempty : B = []
  · rw [husage hempty] at hok
    dsimp only at hok
    exact absurd hok (by decide)
  · obtain ⟨arg, harg, htouch⟩ := hcreate hempty
    rw [htouch] at hok ⊢
    refine ⟨hempty, arg, harg, ?_, rfl⟩
    by_contra hcode
    dsimp only [Command.touchText] at hok
    rw [if_neg hcode] at hok
    split_ifs at hok
    all_goals exact absurd hok (by decide)

theorem write_usage {k : Kernel} {B : List Byte} (h : IsCStr (view k.mem frame.buf) (ascii "write " ++ B))
    (hlen : (ascii "write " ++ B).length ≤ 255) (hB : B.head? ≠ some 32) (hword : 32 ∉ B) :
    (frame.write k).effects = [say "Usage: write <filename> <text payload contents>\n"] := by
  obtain ⟨husage, -⟩ := write_eq h hlen (starts_length length_write)
  rw [Command.operand_word length_write.symm hB] at husage
  have hall : Command.firstWord B = B := List.takeWhile_eq_self_iff.mpr fun b hb =>
    Command.in_word (h.nonzero b (List.mem_append_right _ hb)) fun he => hword (he ▸ hb)
  rw [husage hall]

theorem write_stored {k : Kernel} {w rest : List Byte}
    (h : IsCStr (view k.mem frame.buf) (ascii "write " ++ (w ++ 32 :: rest)))
    (hlen : (ascii "write " ++ (w ++ 32 :: rest)).length ≤ 255) (hpos : w ≠ []) (hw : 32 ∉ w) :
    let text := rest.dropWhile fun c => c == 32
    ∃ name source : View, IsCStr name w ∧ IsCStr source text ∧
      let r := frodfsWrite k.storage (some name) (some source) (BitVec.ofNat 32 text.length)
      (frame.write k).kernel.storage = r.2.1 ∧
        ((frame.write k).effects = [say "Payload written to node successfully.\n"] ↔ r.1 = 0) := by
  have hB : (w ++ 32 :: rest).head? ≠ some 32 := by
    rw [List.head?_append_of_ne_nil _ hpos]
    exact fun he => hw (List.mem_of_mem_head? he)
  have hfirst : Command.firstWord (w ++ 32 :: rest) = w := Command.firstWord_append (fun b hb =>
    ⟨h.nonzero b (List.mem_append_right _ (List.mem_append_left _ hb)), fun he => hw (he ▸ hb)⟩) rest
  obtain ⟨-, hstore⟩ := write_eq h hlen (starts_length length_write)
  rw [Command.operand_word length_write.symm hB, hfirst, Command.operand_text] at hstore
  obtain ⟨m, name, source, hname, hsource, -, hwrite⟩ := hstore (Command.ne_word_space w rest)
  refine ⟨name, source, hname, hsource, ?_⟩
  rw [hwrite]
  refine ⟨rfl, fun hok => ?_, fun hcode => congrArg (fun t => [say t]) (if_pos hcode)⟩
  by_contra hcode
  dsimp only [Command.writeText] at hok
  rw [if_neg hcode] at hok
  exact absurd hok (by decide)

theorem cat_missing {k : Kernel} {B : List Byte} (h : IsCStr (view k.mem frame.buf) (ascii "cat " ++ B))
    (hlen : (ascii "cat " ++ B).length ≤ 255) (hB : B.head? ≠ some 32) (hlong : 31 < B.length) :
    (frame.cat k).effects = [say "Error: Target file not found or unreadable.\n"] := by
  have hpos : B ≠ [] := List.ne_nil_of_length_pos (by omega)
  obtain ⟨-, hread⟩ := cat_eq h hlen (starts_length length_cat)
  rw [Command.operand_word length_cat.symm hB] at hread
  obtain ⟨m, name, hname, hcat⟩ := hread hpos
  have hcode := frodfsRead_none (findName_long k.storage hname hlong) m (4096 - 1)
    (ne_zero_of_userPtrOk (frame.user_object (p := frame.io_buffer) (by simp)))
    (ne_zero_of_userPtrOk (frame.user_object (p := frame.bytes_read) (by simp)))
  dsimp only at hcat
  rw [hcat, hcode, if_neg (by decide)]

/-- A cat prints the file that has the rest of the line for its name. -/
theorem cat_shows {k : Kernel} {B : List Byte} (h : IsCStr (view k.mem frame.buf) (ascii "cat " ++ B))
    (hlen : (ascii "cat " ++ B).length ≤ 255) (hB : B.head? ≠ some 32) (hpos : B ≠ []) {file : List Byte}
    {i : Fin 32} (hfile : HoldsFile k.storage B file i) (hfits : file.length ≤ 4095)
    (hnul : ∀ b ∈ file, b ≠ 0) : (frame.cat k).effects = [.print file, say "\n"] := by
  obtain ⟨-, hread⟩ := cat_eq h hlen (starts_length length_cat)
  rw [Command.operand_word length_cat.symm hB] at hread
  obtain ⟨m, name, hname, hcat⟩ := hread hpos
  have hio := ne_zero_of_userPtrOk (frame.user_object (p := frame.io_buffer) (by simp))
  have hcount := ne_zero_of_userPtrOk (frame.user_object (p := frame.bytes_read) (by simp))
  have hmax : (4096 - 1 : U32).toNat = 4095 := by decide
  obtain ⟨hcode, hmem⟩ := hfile.read hname m (4096 - 1) hio hcount (by omega)
  have hbytes : (BitVec.ofNat 32 file.length).toNat = file.length := by
    rw [BitVec.toNat_ofNat, Nat.mod_eq_of_lt (by omega)]
  have hwhole : (file.takeWhile fun c => c != 0) = file :=
    List.takeWhile_eq_self_iff.mpr fun b hb => bne_iff_ne.mpr (hnul b hb)
  dsimp only at hcat hcode hmem
  rw [hcat, hcode, if_pos (by decide), hmem, load32_store32 _ _ _ (by decide), hbytes, delivered_shown m hfits, hwhole]

end ShellFrame

end FrodOS
