import FrodOS.Kernel.DiskCalls
import FrodOS.Shell.Commands

/-!
# The language of the shell

A line names a command, and a command turns the list of files into another and answers
with a text. Buffers, parameter blocks, slots and call numbers do not occur here.
-/

namespace FrodOS
open Lib

inductive Command where
  | help
  | clear
  | beep
  | ls
  | touch (name : List Byte)
  | write (name text : List Byte)
  | cat (name : List Byte)
  /-- A built-in command without its operands. -/
  | usage (text : String)
  | launch (name : List Byte)

structure Reply where
  disk : Disk
  effects : List ShellEffect
  /-- Whether the shell runs on. -/
  stays : Bool

namespace Command

/-! ### Syntax -/

/-- What stands behind `n` characters and the spaces after them. -/
def operand (n : ℕ) (line : List Byte) : List Byte := (line.drop n).dropWhile fun c => c == 32

def firstWord (rest : List Byte) : List Byte := rest.takeWhile fun c => c != 0 && c != 32

def parseTouch (line : List Byte) : Command :=
  if operand 6 line = [] then .usage "Usage: touch <filename>\n" else .touch (operand 6 line)

def parseWrite (line : List Byte) : Command :=
  let rest := operand 6 line
  let name := firstWord rest
  if name = rest then .usage "Usage: write <filename> <text payload contents>\n"
  else .write name (operand (name.length + 1) rest)

def parseCat (line : List Byte) : Command :=
  if operand 4 line = [] then .usage "Usage: cat <filename>\n" else .cat (operand 4 line)

/-- One of eight things, by the command that the line is for. -/
def select {α : Type} (line : List Byte) (help clear beep ls touch write cat launch : α) : α :=
  if line = ascii "help" then help
  else if line = ascii "clear" then clear
  else if line = ascii "beep" then beep
  else if line = ascii "ls" then ls
  else if ascii "touch " <+: line then touch
  else if ascii "write " <+: line then write
  else if ascii "cat " <+: line then cat
  else launch

def parse (line : List Byte) : Command :=
  select line .help .clear .beep .ls (parseTouch line) (parseWrite line) (parseCat line) (.launch line)

/-! ### Lines of words -/

theorem dropWhile_of_head {rest : List Byte} (h : rest.head? ≠ some 32) :
    (rest.dropWhile fun c => c == 32) = rest := by
  rw [List.dropWhile_eq_self_iff]
  intro hl hc
  rw [List.head?_eq_getElem?, List.getElem?_eq_getElem hl] at h
  exact h (congrArg some (eq_of_beq hc))

theorem operand_word {v rest : List Byte} {n : ℕ} (hn : n = v.length) (hrest : rest.head? ≠ some 32) :
    operand n (v ++ rest) = rest := by
  rw [operand, List.drop_left' hn.symm, dropWhile_of_head hrest]

/-- Behind the first word and its space. -/
theorem operand_text (n t : List Byte) : operand (n.length + 1) (n ++ 32 :: t) = t.dropWhile fun c => c == 32 := by
  have hsplit : n ++ 32 :: t = (n ++ [32]) ++ t := by rw [List.append_assoc]; rfl
  rw [operand, hsplit, List.drop_left' (by rw [List.length_append, List.length_singleton])]

theorem in_word {b : Byte} (hnul : b ≠ 0) (hspace : b ≠ 32) : (b != 0 && b != 32) = true := by
  rw [Bool.and_eq_true]
  exact ⟨bne_iff_ne.mpr hnul, bne_iff_ne.mpr hspace⟩

theorem firstWord_append {n : List Byte} (hn : ∀ b ∈ n, b ≠ 0 ∧ b ≠ 32) (t : List Byte) :
    firstWord (n ++ 32 :: t) = n := by
  rw [firstWord, List.takeWhile_append_of_pos, List.takeWhile_cons_of_neg (by decide), List.append_nil]
  exact fun b hb => in_word (hn b hb).1 (hn b hb).2

theorem ne_word_space (n t : List Byte) : n ≠ n ++ 32 :: t := fun he => by
  have hlength := congrArg List.length he
  rw [List.length_append, List.length_cons] at hlength
  omega

theorem firstWord_cases {rest : List Byte} (hnul : ∀ b ∈ rest, b ≠ 0) :
    firstWord rest = rest ∨ ∃ tail, rest = firstWord rest ++ 32 :: tail := by
  have hparts : firstWord rest ++ rest.dropWhile (fun c => c != 0 && c != 32) = rest :=
    List.takeWhile_append_dropWhile
  cases htail : rest.dropWhile (fun c => c != 0 && c != 32) with
  | nil =>
    rw [htail, List.append_nil] at hparts
    exact Or.inl hparts
  | cons c tail =>
    have hstop : ¬ (c != 0 && c != 32) = true := by
      have hhead := List.head?_dropWhile_not (fun c : Byte => c != 0 && c != 32) rest
      rw [htail] at hhead
      exact Bool.not_eq_true _ ▸ hhead
    have hmem : c ∈ rest := by
      rw [← hparts, htail]
      exact List.mem_append_right _ List.mem_cons_self
    have hc : c = 32 := by
      by_contra hne
      exact hstop (in_word (hnul c hmem) hne)
    rw [htail, hc] at hparts
    exact Or.inr ⟨tail, hparts.symm⟩

/-! ### Meaning -/

def helpText : List ShellEffect :=
  [say "Available commands:\n",
    say "  help                 - Show this menu\n",
    say "  clear                - Clear the screen\n",
    say "  beep                 - Test the PC speaker\n",
    say "  ls                   - List storage files\n",
    say "  touch <file>         - Create an empty file\n",
    say "  write <file> <text>  - Write message content to file\n",
    say "  cat <file>           - Print contents of a file\n"]

def touchText (code : ℤ) : String :=
  if code = 0 then "File created successfully.\n"
  else if code = -2 then "Error: File descriptor already exists.\n"
  else "Error: Out of storage capacity nodes.\n"

def writeText (code : ℤ) : String :=
  if code = 0 then "Payload written to node successfully.\n"
  else "Error: Could not save data block to entry.\n"

/-- The buffer of `cat` holds 4095 bytes, and the print stops at a NUL. -/
def shown (bytes : List Byte) : List Byte := (bytes.take 4095).takeWhile fun c => c != 0

/-- What a refused program makes kernel and shell print. -/
def refusalText (name : List Byte) (code : ℤ) : List ShellEffect :=
  if code = -2 then [say "Unknown command: ", .print name, say "\nType 'help' for a list of commands.\n"]
  else [say "Exec Error: Invalid FXE binary execution signature.\n",
    say "Error: Target file found but it is not a valid FXE format structure.\n"]

def run (d : Disk) : Command → Reply
  | help => ⟨d, helpText, true⟩
  | clear => ⟨d, [.clear], true⟩
  | beep => ⟨d, [say "Sounding hardware test\n", .playSound 1000, .noSound], true⟩
  | ls => ⟨d, [if d.files = [] then say "[Empty Storage Disk]\n" else .print (listing d.names)], true⟩
  | touch name => ⟨(d.create name).2, [say (touchText (d.create name).1)], true⟩
  | write name text => ⟨(d.write name text).2, [say (writeText (d.write name text).1)], true⟩
  | cat name =>
    match lookup name d.files with
    | some bytes => ⟨d, [.print (shown bytes), say "\n"], true⟩
    | none => ⟨d, [say "Error: Target file not found or unreadable.\n"], true⟩
  | usage text => ⟨d, [say text], true⟩
  | launch name =>
    match d.refusal name with
    | some code => ⟨d, refusalText name code, true⟩
    | none => ⟨d, [], false⟩

end Command

end FrodOS
