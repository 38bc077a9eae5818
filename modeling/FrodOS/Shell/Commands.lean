import FrodOS.Frodfs.Held
import FrodOS.Kernel.Exec
import FrodOS.Kernel.FsCalls

/-!
# The commands of the shell (shell.c)

`run_command` works on the buffer of the main loop in user memory and reaches the file
system through int 0x80, with a parameter block on its stack for all calls but create.
Where the buffer, `io_buffer`, the blocks and `bytes_read` lie is a parameter. What goes
to the screen and the speaker is collected in order.
-/

namespace FrodOS
open Lib

def Apart (r s : U32 × ℕ) : Prop := r.1.toNat + r.2 ≤ s.1.toNat ∨ s.1.toNat + s.2 ≤ r.1.toNat

instance (r s : U32 × ℕ) : Decidable (Apart r s) := by unfold Apart; infer_instance

/-- The objects of the shell in user memory. No two that are in use together overlap. -/
structure ShellFrame where
  (buf io_buffer bytes_read list_args write_args read_args : U32)
  user : ∀ p ∈ [buf, io_buffer, bytes_read, list_args, write_args, read_args], userBase ≤ p
  fits : ∀ r ∈ [(buf, 256), (io_buffer, 4096), (bytes_read, 4), (list_args, 8), (write_args, 12),
    (read_args, 16)], Fits r.1 r.2
  apart_buf : ∀ r ∈ [(io_buffer, 4096), (bytes_read, 4), (list_args, 8), (write_args, 12), (read_args, 16)],
    Apart (buf, 256) r
  apart_io : ∀ r ∈ [(bytes_read, 4), (list_args, 8), (write_args, 12), (read_args, 16)],
    Apart (io_buffer, 4096) r
  apart_count : Apart (bytes_read, 4) (read_args, 16)

inductive ShellEffect where
  | print (s : List Byte)
  | clear
  | playSound (hz : U32)
  | noSound
  deriving DecidableEq

def say (text : String) : ShellEffect := .print (ascii text)

structure CommandRun where
  kernel : Kernel
  effects : List ShellEffect
  /-- Where the processor goes if exec does not come back. -/
  gone : Option Control

/-! ### Helpers -/

/-- `int $0x80` for a file-system call: the kernel after it and what it leaves in `eax`. -/
def makeSyscall (k : Kernel) (num arg1 : U32) : Kernel × U32 :=
  let o := fsCall k ⟨0, 0, 0, 0, arg1, 0, 0, num⟩
  match o.control with
  | .iret regs => (o.kernel, regs.eax)
  | _ => (o.kernel, num)

/-- `unsigned int args[] = { ... };` -/
def storeArgs (m : Ram) (p : U32) : List U32 → Ram
  | [] => m
  | v :: vs => storeArgs (store32 m p v) (off p 4) vs

def userStrcmp (a b : View) : ℤ := (strcmp 256 a b).1

def userStrncmp (a b : View) (n : ℕ) : ℤ :=
  let k := stop a b n 0
  if k = n then 0 else (a k).toNat - (b k).toNat

def skipSpaces (cmd : View) (i : ℕ) : ℕ := scan (fun c => c == 32) cmd 256 i

/-- `sys_print` of the string at `p` in an array of `n` bytes. -/
def printAt (k : Kernel) (p : U32) (n : ℕ) : ShellEffect := .print (leading (view k.mem p) n)

/-! ### The commands -/

namespace ShellFrame

variable (frame : ShellFrame)

/-- The loop that ends the line at the first `'\r'` or `'\n'`. -/
def endLine (m : Ram) : Ram :=
  let clen := scan (fun c => c != 0 && c != 13 && c != 10) (view m frame.buf) 256 0
  if m (off frame.buf clen) = 0 then m else Function.update m (off frame.buf clen) 0

def help (k : Kernel) : CommandRun :=
  ⟨k, [say "Available commands:\n",
    say "  help                 - Show this menu\n",
    say "  clear                - Clear the screen\n",
    say "  beep                 - Test the PC speaker\n",
    say "  ls                   - List storage files\n",
    say "  touch <file>         - Create an empty file\n",
    say "  write <file> <text>  - Write message content to file\n",
    say "  cat <file>           - Print contents of a file\n"], none⟩

def ls (k : Kernel) : CommandRun :=
  let r := makeSyscall { k with mem := storeArgs k.mem frame.list_args [frame.io_buffer, 4096] } 13
    frame.list_args
  if r.2 = 0 then
    if r.1.mem frame.io_buffer = 0 then ⟨r.1, [say "[Empty Storage Disk]\n"], none⟩
    else ⟨r.1, [printAt r.1 frame.io_buffer 4096], none⟩
  else ⟨r.1, [say "Error: Unable to list target directory structures.\n"], none⟩

def touch (k : Kernel) : CommandRun :=
  let filename := off frame.buf (skipSpaces (view k.mem frame.buf) 6)
  if k.mem filename = 0 then ⟨k, [say "Usage: touch <filename>\n"], none⟩
  else
    let r := makeSyscall k 10 filename
    if r.2 = 0 then ⟨r.1, [say "File created successfully.\n"], none⟩
    else if r.2 = -2 then ⟨r.1, [say "Error: File descriptor already exists.\n"], none⟩
    else ⟨r.1, [say "Error: Out of storage capacity nodes.\n"], none⟩

def write (k : Kernel) : CommandRun :=
  let name := skipSpaces (view k.mem frame.buf) 6
  let wordEnd := scan (fun c => c != 0 && c != 32) (view k.mem frame.buf) 256 name
  if k.mem (off frame.buf wordEnd) = 32 then
    let m := Function.update k.mem (off frame.buf wordEnd) 0
    let text := off frame.buf (skipSpaces (view m frame.buf) (wordEnd + 1))
    let text_len := scan (fun c => c != 0) (view m text) 256 0
    let args := [off frame.buf name, text, BitVec.ofNat 32 text_len]
    let r := makeSyscall { k with mem := storeArgs m frame.write_args args } 11 frame.write_args
    if r.2 = 0 then ⟨r.1, [say "Payload written to node successfully.\n"], none⟩
    else ⟨r.1, [say "Error: Could not save data block to entry.\n"], none⟩
  else ⟨k, [say "Usage: write <filename> <text payload contents>\n"], none⟩

def cat (k : Kernel) : CommandRun :=
  let filename := off frame.buf (skipSpaces (view k.mem frame.buf) 4)
  if k.mem filename = 0 then ⟨k, [say "Usage: cat <filename>\n"], none⟩
  else
    let m := store32 k.mem frame.bytes_read 0
    let args := [filename, frame.io_buffer, 4096 - 1, frame.bytes_read]
    let r := makeSyscall { k with mem := storeArgs m frame.read_args args } 12 frame.read_args
    if r.2 = 0 then
      let bytes_read := load32 r.1.mem frame.bytes_read
      let k' := { r.1 with mem := Function.update r.1.mem (off frame.io_buffer bytes_read.toNat) 0 }
      ⟨k', [printAt k' frame.io_buffer 4096, say "\n"], none⟩
    else ⟨r.1, [say "Error: Target file not found or unreadable.\n"], none⟩

/-- Any other line goes to exec. -/
def launch (exec : ExecFrame) (k : Kernel) : CommandRun :=
  let o := sysExec exec k ⟨0, 0, 0, 0, frame.buf, 0, 0, 20⟩
  match o.control with
  | .iret regs =>
    if regs.eax = -2 then
      ⟨o.kernel, [say "Unknown command: ", printAt o.kernel frame.buf 256,
        say "\nType 'help' for a list of commands.\n"], none⟩
    else if regs.eax = -4 then
      ⟨o.kernel, [say "Error: Target file found but it is not a valid FXE format structure.\n"], none⟩
    else if regs.eax.slt 0 then
      ⟨o.kernel, [say "Error: Executable file layout verification failed.\n"], none⟩
    else ⟨o.kernel, [], none⟩
  | control => ⟨o.kernel, [], some control⟩

/-- `run_command` for the line in the buffer. -/
def runCommand (exec : ExecFrame) (k₀ : Kernel) : CommandRun :=
  let k := { k₀ with mem := frame.endLine k₀.mem }
  let cmd := view k.mem frame.buf
  if userStrcmp cmd (cstr (ascii "help")) = 0 then help k
  else if userStrcmp cmd (cstr (ascii "clear")) = 0 then ⟨k, [.clear], none⟩
  else if userStrcmp cmd (cstr (ascii "beep")) = 0 then
    ⟨k, [say "Sounding hardware test\n", .playSound 1000, .noSound], none⟩
  else if userStrcmp cmd (cstr (ascii "ls")) = 0 then frame.ls k
  else if userStrncmp cmd (cstr (ascii "touch ")) 6 = 0 then frame.touch k
  else if userStrncmp cmd (cstr (ascii "write ")) 6 = 0 then frame.write k
  else if userStrncmp cmd (cstr (ascii "cat ")) 4 = 0 then frame.cat k
  else frame.launch exec k

end ShellFrame

end FrodOS
