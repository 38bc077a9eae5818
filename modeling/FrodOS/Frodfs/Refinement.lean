import FrodOS.Frodfs.FileTable

/-!
# Runs of file-system calls

A call comes with the memory its pointers point into; a caller's memory is never
part of the slot array. Over runs of any length the answers of frodfs.c are
those of `FileTable`.
-/

namespace FrodOS
open Lib

inductive FsCall where
  | create (mem : Ram) (name : U32)
  | write (mem : Ram) (name buffer size : U32)
  | read (mem : Ram) (name buffer max_size out_size : U32)

/-- One call: the new table, the return code and the caller's memory afterwards. -/
def FsCall.run (s : Storage) : FsCall → Storage × (ℤ × Ram)
  | .create mem name =>
    let r := frodfsCreate s (ptr mem name)
    (r.2.1, r.1, mem)
  | .write mem name buffer size =>
    let r := frodfsWrite s (ptr mem name) (ptr mem buffer) size
    (r.2.1, r.1, mem)
  | .read mem name buffer max_size out_size =>
    let r := frodfsRead s mem (ptr mem name) buffer max_size out_size
    (s, r.1, r.2.1)

inductive SpecCall where
  | create (n : List Byte)
  | write (n d : List Byte)
  | read (n : List Byte) (limit : ℕ)

def SpecCall.name : SpecCall → List Byte
  | .create n => n
  | .write n _ => n
  | .read n _ => n

def SpecCall.run (M : FileTable) : SpecCall → FileTable × (ℤ × Option (List Byte))
  | .create n => ((M.create n).2, (M.create n).1, none)
  | .write n d => ((M.write n d).2, (M.write n d).1, none)
  | .read n limit => (M, M.read n limit)

/-- The caller's memory once `d` has been delivered: the bytes at the read buffer
and their number at the size pointer. -/
def FsCall.deliver : FsCall → Option (List Byte) → Ram
  | .read mem _ buffer _ out_size, some d =>
    store32 (writeBytes mem buffer (cstr d) d.length) out_size (BitVec.ofNat 32 d.length)
  | .read mem _ _ _ _, none => mem
  | .create mem _, _ => mem
  | .write mem _ _ _, _ => mem

structure StrArg (mem : Ram) (name : U32) (n : List Byte) : Prop where
  nonnull : name ≠ 0
  string : IsCStr (view mem name) n
  nonempty : n ≠ []

/-- A string argument that fits a slot with its NUL: 1 to 31 bytes. -/
structure NameArg (mem : Ram) (name : U32) (n : List Byte) : Prop extends StrArg mem name n where
  short : n.length ≤ 31

inductive Denotes : FsCall → SpecCall → Prop where
  | create {mem : Ram} {name : U32} {n : List Byte} (h : NameArg mem name n) :
      Denotes (.create mem name) (.create n)
  | write {mem : Ram} {name buffer : U32} {n : List Byte} (size : U32) (h : NameArg mem name n)
      (hb : buffer ≠ 0) :
      Denotes (.write mem name buffer size)
        (.write n ((List.range size.toNat).map (view mem buffer)))
  | read {mem : Ram} {name buffer out_size : U32} {n : List Byte} (max_size : U32)
      (h : NameArg mem name n) (hb : buffer ≠ 0) (ho : out_size ≠ 0) :
      Denotes (.read mem name buffer max_size out_size) (.read n max_size.toNat)

def Answers (c : FsCall × (ℤ × Ram)) (a : SpecCall × (ℤ × Option (List Byte))) : Prop :=
  c.2.1 = a.2.1 ∧ c.2.2 = c.1.deliver a.2.2

theorem FsCall.run_simulates (s : Storage) (M : FileTable) (c : FsCall) (a : SpecCall)
    (h : Represents s M) (hd : Denotes c a) :
    Represents (c.run s).1 (a.run M).1 ∧ Answers (c, (c.run s).2) (a, (a.run M).2) := by
  cases hd with
  | create hn =>
    obtain ⟨hc, hR⟩ := h.create hn.string hn.nonempty hn.short
    simp only [FsCall.run, SpecCall.run, ptr_of_ne _ hn.nonnull]
    exact ⟨hR, hc, rfl⟩
  | write size hn hb =>
    obtain ⟨hc, hR⟩ := h.write hn.string hn.short (view _ _) size
    simp only [FsCall.run, SpecCall.run, ptr_of_ne _ hn.nonnull, ptr_of_ne _ hb]
    exact ⟨hR, hc, rfl⟩
  | @read mem name buffer out_size n max_size hn hb ho =>
    obtain ⟨hc, hm⟩ := h.read hn.string hn.short mem max_size hb ho
    simp only [FsCall.run, SpecCall.run, ptr_of_ne _ hn.nonnull]
    refine ⟨h, hc, hm.trans ?_⟩
    cases (M.read n max_size.toNat).2 <;> rfl

theorem SpecCall.read_run_of_ne (M : FileTable) (a : SpecCall) {n : List Byte} (limit : ℕ)
    (h : n ≠ a.name) : (a.run M).1.read n limit = M.read n limit := by
  cases a with
  | create => exact M.read_create_of_ne limit h
  | write => exact M.read_write_of_ne limit h
  | read => rfl

theorem Represents.read_congr {s s' : Storage} {M M' : FileTable} (h : Represents s M)
    (h' : Represents s' M') {mem : Ram} {name buffer out_size : U32} {n : List Byte}
    (max_size : U32) (hn : NameArg mem name n) (hb : buffer ≠ 0) (ho : out_size ≠ 0)
    (he : M'.read n max_size.toNat = M.read n max_size.toNat) :
    ((FsCall.read mem name buffer max_size out_size).run s').2 =
      ((FsCall.read mem name buffer max_size out_size).run s).2 := by
  obtain ⟨_, hc, hm⟩ := FsCall.run_simulates s M _ _ h (.read max_size hn hb ho)
  obtain ⟨_, hc', hm'⟩ := FsCall.run_simulates s' M' _ _ h' (.read max_size hn hb ho)
  simp only [SpecCall.run, he] at hc hm hc' hm'
  exact Prod.ext (hc'.trans hc.symm) (hm'.trans hm.symm)

/-- FrodFS refines the bounded map: over every run from `frodfs_init` the return
codes and the delivered bytes are those of the map, the table goes on representing
it, and no call changes what a read of another name answers. -/
theorem frodfs_refines_file_table (s₀ : Storage) (calls : List FsCall) (specs : List SpecCall)
    (h : List.Forall₂ Denotes calls specs) :
    List.Forall₂ Answers (trace FsCall.run (frodfsInit s₀) calls)
        (trace SpecCall.run .empty specs) ∧
      Represents (final FsCall.run (frodfsInit s₀) calls) (final SpecCall.run .empty specs) ∧
      ∀ c a, Denotes c a → ∀ mem name buffer max_size out_size n, NameArg mem name n →
        buffer ≠ 0 → out_size ≠ 0 → n ≠ a.name →
        let s := final FsCall.run (frodfsInit s₀) calls
        ((FsCall.read mem name buffer max_size out_size).run (c.run s).1).2 =
          ((FsCall.read mem name buffer max_size out_size).run s).2 := by
  obtain ⟨hR, hA⟩ := simulates FsCall.run SpecCall.run Represents Denotes Answers
    FsCall.run_simulates _ _ calls specs (frodfsInit_represents s₀) h
  refine ⟨hA, hR, ?_⟩
  intro c a hd mem name buffer max_size out_size n hn hb ho hne
  have hR' := (FsCall.run_simulates _ _ c a hR hd).1
  exact hR.read_congr hR' max_size hn hb ho (a.read_run_of_ne _ _ hne)

def demoRam : Ram := fun a =>
  if a = 0x300000 then 97 else if a = 0x300100 then 7 else if a = 0x300101 then 8
  else if a = 0x300102 then 9 else 0

theorem demoRam_name : NameArg demoRam 0x300000 [97] where
  nonnull := by decide
  string := .of_leading 31 (by decide) (by decide)
  nonempty := by decide
  short := by decide

theorem frodfs_refines_file_table_rewrite :
    List.Forall₂ Answers
      (trace FsCall.run (frodfsInit bootStorage)
        [.create demoRam 0x300000, .write demoRam 0x300000 0x300100 3,
          .write demoRam 0x300000 0x300101 1, .read demoRam 0x300000 0x400000 9 0x500000])
      [(.create [97], 0, none), (.write [97] [7, 8, 9], 0, none), (.write [97] [8], 0, none),
        (.read [97] 9, 0, some [8])] :=
  (frodfs_refines_file_table bootStorage _ [_, _, _, _]
    (.cons (.create demoRam_name) (.cons (.write 3 demoRam_name (by decide))
      (.cons (.write 1 demoRam_name (by decide))
        (.cons (.read 9 demoRam_name (by decide : (0x400000 : U32) ≠ 0)
          (by decide : (0x500000 : U32) ≠ 0)) .nil))))).1

end FrodOS
