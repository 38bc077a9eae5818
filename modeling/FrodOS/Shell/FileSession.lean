import FrodOS.Shell.FileCommands

/-!
# touch, write and cat on one name (shell.c)

`touch` and `cat` take the rest of the line for the name, `write` its first word, and
FrodFS keeps 31 bytes of it. The three find the same file exactly for names of one word
that fit.
-/

namespace FrodOS
open Lib

/-- The lines touch A, write A T and cat A, run in this order. Storage stays as it is in between, and
memory is any that holds the line. -/
structure FileSession (frame : ShellFrame) (exec : ExecFrame) (A T : List Byte) where
  (atTouch atWrite atCat : Kernel)
  touchLine : IsCStr (view atTouch.mem frame.buf) (ascii "touch " ++ A)
  writeLine : IsCStr (view atWrite.mem frame.buf) (ascii "write " ++ (A ++ 32 :: T))
  catLine : IsCStr (view atCat.mem frame.buf) (ascii "cat " ++ A)
  afterTouch : atWrite.storage = (frame.runCommand exec atTouch).kernel.storage
  afterWrite : atCat.storage = (frame.runCommand exec atWrite).kernel.storage

namespace FileSession

variable {frame : ShellFrame} {exec : ExecFrame} {A T : List Byte} (s : FileSession frame exec A T)

/-- The write reports success and the cat prints its text. -/
def Agreed : Prop :=
  (frame.runCommand exec s.atWrite).effects = [say "Payload written to node successfully.\n"] ∧
    (frame.runCommand exec s.atCat).effects = [.print T, say "\n"]

section

variable (hA : A.head? ≠ some 32) (hlen : (ascii "write " ++ (A ++ 32 :: T)).length ≤ 255)
include hlen

theorem line_lengths : A.length + T.length ≤ 248 ∧ (ascii "touch " ++ A).length ≤ 255 ∧
    (ascii "cat " ++ A).length ≤ 255 := by
  simp only [List.length_append, List.length_cons, ShellFrame.length_touch, ShellFrame.length_write,
    ShellFrame.length_cat] at hlen ⊢
  omega

theorem stored {w rest : List Byte} (hline : lineOf (A ++ 32 :: T) = w ++ 32 :: rest) (hpos : w ≠ [])
    (hw : 32 ∉ w) :
    let text := rest.dropWhile fun c => c == 32
    ∃ name source : View, IsCStr name w ∧ IsCStr source text ∧
      let r := frodfsWrite s.atWrite.storage (some name) (some source) (BitVec.ofNat 32 text.length)
      s.atCat.storage = r.2.1 ∧ ((frame.runCommand exec s.atWrite).effects =
        [say "Payload written to node successfully.\n"] ↔ r.1 = 0) := by
  obtain ⟨hrun, hcmd, hle⟩ := ShellFrame.runCommand_write exec s.writeLine hlen
  rw [hline] at hcmd hle
  rw [s.afterWrite, hrun]
  exact ShellFrame.write_stored hcmd hle hpos hw

theorem not_written (hhead : (lineOf (A ++ 32 :: T)).head? ≠ some 32) (hword : 32 ∉ lineOf (A ++ 32 :: T)) :
    (frame.runCommand exec s.atWrite).effects =
      [say "Usage: write <filename> <text payload contents>\n"] := by
  obtain ⟨hrun, hcmd, hle⟩ := ShellFrame.runCommand_write exec s.writeLine hlen
  rw [hrun]
  exact ShellFrame.write_usage hcmd hle hhead hword

include hA

/-- After a touch that succeeds the storage holds an empty file, if its name fits. -/
theorem touched (hok : (frame.runCommand exec s.atTouch).effects = [say "File created successfully.\n"]) :
    lineOf A ≠ [] ∧ ((lineOf A).length ≤ 31 → ∃ i, HoldsFile s.atWrite.storage (lineOf A) [] i) := by
  obtain ⟨-, hshort, -⟩ := line_lengths hlen
  obtain ⟨hrun, hcmd, hle⟩ := ShellFrame.runCommand_touch exec s.touchLine hshort
  have hafter := s.afterTouch
  rw [hrun] at hok hafter
  obtain ⟨hpos, arg, harg, hcode, hstorage⟩ := ShellFrame.touch_created hcmd hle (lineOf_head hA) hok
  refine ⟨hpos, fun hfits => ?_⟩
  rw [hafter, hstorage]
  exact frodfsCreate_held harg hpos hfits hcode

theorem not_shown (hlong : 31 < (lineOf A).length) :
    (frame.runCommand exec s.atCat).effects = [say "Error: Target file not found or unreadable.\n"] := by
  obtain ⟨-, -, hshort⟩ := line_lengths hlen
  obtain ⟨hrun, hcmd, hle⟩ := ShellFrame.runCommand_cat exec s.catLine hshort
  rw [hrun]
  exact ShellFrame.cat_missing hcmd hle (lineOf_head hA) hlong

theorem shown (hpos : lineOf A ≠ []) {file : List Byte} {i : Fin 32}
    (hfile : HoldsFile s.atCat.storage (lineOf A) file i) (hfits : file.length ≤ 4095)
    (hnul : ∀ b ∈ file, b ≠ 0) : (frame.runCommand exec s.atCat).effects = [.print file, say "\n"] := by
  obtain ⟨-, -, hshort⟩ := line_lengths hlen
  obtain ⟨hrun, hcmd, hle⟩ := ShellFrame.runCommand_cat exec s.catLine hshort
  rw [hrun]
  exact ShellFrame.cat_shows hcmd hle (lineOf_head hA) hpos hfile hfits hnul

variable (hlf : 10 ∉ A)
  (hok : (frame.runCommand exec s.atTouch).effects = [say "File created successfully.\n"])
include hlf hok

/-- For a name of one word the cat shows what the line has of the text. -/
theorem one_word (hlead : T.head? ≠ some 32) (hspace : 32 ∉ A) (hcr : 13 ∉ A) (hshort : A.length ≤ 31) :
    (frame.runCommand exec s.atWrite).effects = [say "Payload written to node successfully.\n"] ∧
      (frame.runCommand exec s.atCat).effects = [.print (lineOf T), say "\n"] := by
  have hnul : ∀ b ∈ A ++ 32 :: T, b ≠ 0 := fun b hb => s.writeLine.nonzero b (List.mem_append_right _ hb)
  have hname : ∀ b ∈ A, b ≠ 0 := fun b hb => hnul b (List.mem_append_left _ hb)
  have hself : lineOf A = A := (lineOf_eq_self_iff hname).mpr ⟨hlf, hcr⟩
  have hline : lineOf (A ++ 32 :: T) = lineOf A ++ 32 :: lineOf T := by
    rw [lineOf_append hname hcr hlf, hself]
    rfl
  obtain ⟨hpos, hheld⟩ := s.touched hA hlen hok
  obtain ⟨i, hempty⟩ := hheld (by rwa [hself])
  obtain ⟨name, source, hn, hsource, hstorage, hwritten⟩ := s.stored hlen hline hpos (by rwa [hself])
  have htext : ((lineOf T).dropWhile fun c => c == 32) = lineOf T :=
    Command.dropWhile_of_head (lineOf_head hlead)
  rw [htext] at hsource hstorage hwritten
  have hle : (lineOf T).length ≤ T.length := (List.takeWhile_prefix _).length_le
  obtain ⟨htotal, -, -⟩ := line_lengths hlen
  have hbytes : ∀ j < (lineOf T).length, source j = (lineOf T).getD j 0 := fun j hj => by
    rw [hsource.bytes j hj, List.getD_eq_getElem _ _ hj]
  obtain ⟨hcode, hfile⟩ := frodfsWrite_file hempty (by omega) hn hbytes
  rw [← hstorage] at hfile
  exact ⟨hwritten.mpr hcode, s.shown hA hlen hpos hfile (by omega) hsource.nonzero⟩

/-- For any other name the write misses the file, or the cat does. -/
theorem name_of_agreed (hT : T ≠ []) (hagreed : s.Agreed) : 32 ∉ A ∧ 13 ∉ A ∧ A.length ≤ 31 := by
  obtain ⟨hwrite, hcat⟩ := hagreed
  obtain ⟨hpos, hheld⟩ := s.touched hA hlen hok
  have hshort : (lineOf A).length ≤ 31 := by
    by_contra hlong
    rw [s.not_shown hA hlen (by omega)] at hcat
    exact absurd (congrArg List.length hcat) (by simp)
  obtain ⟨i, hempty⟩ := hheld hshort
  have hhead : (lineOf (A ++ 32 :: T)).head? ≠ some 32 := by
    have hne : A ≠ [] := fun he => hpos (by rw [he]; rfl)
    apply lineOf_head
    rw [List.head?_append_of_ne_nil _ hne]
    exact hA
  have hword : 32 ∈ lineOf (A ++ 32 :: T) := by
    by_contra hnone
    rw [s.not_written hlen hhead hnone] at hwrite
    exact absurd hwrite (by decide)
  obtain ⟨w, rest, hline, hw⟩ := List.eq_append_cons_of_mem hword
  have hwpos : w ≠ [] := by
    intro he
    rw [hline, he] at hhead
    exact hhead rfl
  obtain ⟨name, source, hn, hsource, hstorage, -⟩ := s.stored hlen hline hwpos hw
  have hsame : w = lineOf A := by
    by_contra hne
    have hkept := hempty.write_other hn hne source (BitVec.ofNat 32 (rest.dropWhile fun c => c == 32).length)
    rw [← hstorage] at hkept
    rw [s.shown hA hlen hpos hkept (Nat.zero_le _) nofun] at hcat
    exact hT (ShellEffect.print.inj (List.cons.inj hcat).1).symm
  have hcr : 13 ∉ A := by
    intro hmem
    rw [lineOf_cut hmem, ← hsame] at hline
    have hlengths := congrArg List.length hline
    rw [List.length_append, List.length_cons] at hlengths
    omega
  have hname : ∀ b ∈ A, b ≠ 0 := fun b hb => s.touchLine.nonzero b (List.mem_append_right _ hb)
  have hself : lineOf A = A := (lineOf_eq_self_iff hname).mpr ⟨hlf, hcr⟩
  rw [hself] at hshort hsame
  exact ⟨hsame ▸ hw, hcr, hshort⟩

end

end FileSession

/-! ### Lines typed into the shell -/

/-- The buffer on the stack of the shell, its parameter blocks below it. -/
def demoShell : ShellFrame where
  buf := 0x2FFE00
  io_buffer := 0x201000
  bytes_read := 0x2FFDF0
  list_args := 0x2FFDE0
  write_args := 0x2FFDD0
  read_args := 0x2FFDC0
  user := by
    simp only [List.forall_mem_cons, List.not_mem_nil, false_imp_iff, implies_true, and_true]
    decide
  fits := by decide +kernel
  apart_buf := by decide +kernel
  apart_io := by decide +kernel
  apart_count := by decide +kernel

def typedLine (storage : Storage) (line : List Byte) : Kernel :=
  ⟨fun a => cstr line (a - demoShell.buf).toNat, storage, fun _ => 0, fun _ => 0, fun _ _ => 0, 0, 0, []⟩

theorem typedLine_storage (storage : Storage) (line : List Byte) :
    (typedLine storage line).storage = storage := rfl

def typedTouch (A : List Byte) : Kernel := typedLine bootStorage (ascii "touch " ++ A)

def typedWrite (A T : List Byte) : Kernel :=
  typedLine (demoShell.runCommand demoFrame (typedTouch A)).kernel.storage (ascii "write " ++ (A ++ 32 :: T))

def typedCat (A T : List Byte) : Kernel :=
  typedLine (demoShell.runCommand demoFrame (typedWrite A T)).kernel.storage (ascii "cat " ++ A)

theorem typedLine_line (storage : Storage) {line : List Byte} (hnul : 0 ∉ line)
    (hlen : line.length ≤ 255) : IsCStr (view (typedLine storage line).mem demoShell.buf) line := by
  apply (isCStr_cstr line fun b hb he => hnul (he ▸ hb)).congr
  intro i hi
  change cstr line (off demoShell.buf i - demoShell.buf).toNat = cstr line i
  have hback : off demoShell.buf i - demoShell.buf = BitVec.ofNat 32 i := by
    rw [off, BitVec.add_comm, BitVec.add_sub_cancel]
  rw [hback, BitVec.toNat_ofNat, Nat.mod_eq_of_lt (by omega)]

def typedSession (A T : List Byte) (hnul : 0 ∉ A ∧ 0 ∉ T) (hlen : A.length + T.length ≤ 248) :
    FileSession demoShell demoFrame A T where
  atTouch := typedTouch A
  atWrite := typedWrite A T
  atCat := typedCat A T
  touchLine := by
    apply typedLine_line
    · rw [List.mem_append, ShellFrame.ascii_touch]
      exact not_or.mpr ⟨by decide, hnul.1⟩
    · rw [List.length_append, ShellFrame.length_touch]
      omega
  writeLine := by
    apply typedLine_line
    · rw [List.mem_append, List.mem_append, List.mem_cons, ShellFrame.ascii_write]
      exact not_or.mpr ⟨by decide, not_or.mpr ⟨hnul.1, not_or.mpr ⟨by decide, hnul.2⟩⟩⟩
    · rw [List.length_append, List.length_append, List.length_cons, ShellFrame.length_write]
      omega
  catLine := by
    apply typedLine_line
    · rw [List.mem_append, ShellFrame.ascii_cat]
      exact not_or.mpr ⟨by decide, hnul.1⟩
    · rw [List.length_append, ShellFrame.length_cat]
      omega
  afterTouch := by rw [typedWrite, typedLine_storage]
  afterWrite := by rw [typedCat, typedLine_storage]

/-- Exactly names of one word that fit lead touch, write and cat to the same file, for texts without line
breaks. -/
theorem file_commands_agree_iff {frame : ShellFrame} {exec : ExecFrame} {A T : List Byte}
    (s : FileSession frame exec A T) (hA : A.head? ≠ some 32) (hlf : 10 ∉ A) (hT : T ≠ [])
    (hlead : T.head? ≠ some 32) (hlen : (ascii "write " ++ (A ++ 32 :: T)).length ≤ 255)
    (hok : (frame.runCommand exec s.atTouch).effects = [say "File created successfully.\n"]) :
    s.Agreed ↔ 32 ∉ A ∧ 13 ∉ A ∧ A.length ≤ 31 ∧ 10 ∉ T ∧ 13 ∉ T := by
  have htext : ∀ b ∈ T, b ≠ 0 := fun b hb =>
    s.writeLine.nonzero b (List.mem_append_right _ (List.mem_append_right _ (List.mem_cons_of_mem _ hb)))
  constructor
  · intro hagreed
    obtain ⟨hspace, hcr, hshort⟩ := s.name_of_agreed hA hlen hlf hok hT hagreed
    obtain ⟨-, hcat⟩ := s.one_word hA hlen hlf hok hlead hspace hcr hshort
    rw [hagreed.2] at hcat
    have hself : lineOf T = T := (ShellEffect.print.inj (List.cons.inj hcat).1).symm
    exact ⟨hspace, hcr, hshort, (lineOf_eq_self_iff htext).mp hself⟩
  · intro hname
    obtain ⟨hspace, hcr, hshort, hbreaks⟩ := hname
    have hself : lineOf T = T := (lineOf_eq_self_iff htext).mpr hbreaks
    have hagreed := s.one_word hA hlen hlf hok hlead hspace hcr hshort
    rwa [hself] at hagreed

theorem file_commands_agree_word :
    (typedSession (ascii "a") (ascii "x") (by decide) (by decide)).Agreed :=
  (file_commands_agree_iff _ (by decide) (by decide) (by decide) (by decide) (by decide)
    (by decide +kernel)).mpr (by decide)

/-- The file "a b" is there, but the write looks for "a". -/
theorem file_commands_two_words :
    let s := typedSession (ascii "a b") (ascii "x") (by decide) (by decide)
    (demoShell.runCommand demoFrame s.atTouch).effects = [say "File created successfully.\n"] ∧
      (demoShell.runCommand demoFrame s.atWrite).effects =
        [say "Error: Could not save data block to entry.\n"] ∧
      ¬s.Agreed :=
  ⟨by decide +kernel, by decide +kernel, fun hagreed => absurd hagreed.1 (by decide +kernel)⟩

end FrodOS
