import FrodOS.Kernel.ImportComplete
import FrodOS.Kernel.Ustar

/-!
# Soundness of the import

The import creates a file before it knows that the data will be accepted, it never
looks at the typeflag, and it reads a name of 100 bytes on into the mode. Every file is
a copy of a regular entry under its name, and entries that cannot be stored leave the
table alone, exactly when no entry meets the table in a state in which one of these
slips shows.
-/

namespace FrodOS
open Lib

namespace ArchiveEntry

end ArchiveEntry

/-- An entry, and its name as the loop reads it: on to a NUL, which behind a name of 100 bytes
is one of a later field. -/
structure TarEntry extends ArchiveEntry where
  read : List Byte

namespace TarEntry

def asRead (e : TarEntry) : ArchiveEntry := ⟨e.read, e.flag, e.data⟩

def counted (es : List TarEntry) : List TarEntry := es.takeWhile fun e => e.read ≠ []

end TarEntry

/-- The block at `addr` is the header of `e`, its name in the name field. -/
structure TarHeader (m : Ram) (addr : U32) (e : TarEntry) : Prop where
  field : NameField (view m addr) e.name
  header : HeaderOf m addr e.asRead

/-- The archive from `addr` on. -/
structure TarLayout (m : Ram) (ramfs_end addr : U32) (es : List TarEntry) : Prop where
  layout : Layout m ramfs_end addr (es.map TarEntry.asRead)
  fields : ∀ pre e post, es = pre ++ e :: post →
    NameField (view m (off addr (extent (pre.map TarEntry.asRead)))) e.name

variable {m : Ram} {ramfs_start ramfs_end : U32} {es : List ArchiveEntry} {s₀ : Storage}

theorem headerOf_unique {addr : U32} {e e' : ArchiveEntry} (h : HeaderOf m addr e)
    (h' : HeaderOf m addr e') (hin : addr.toNat + 512 + padded e.data.length ≤ ramfs_end.toNat)
    (hlen : e'.data.length < 2 ^ 32) : e = e' := by
  obtain ⟨_, _, hn⟩ := h.fileSize_eq hin
  have hn' : (fileSize m addr).toNat = e'.data.length := by
    rw [fileSize, octalToInt_spec h'.size hlen, BitVec.toNat_ofNat, Nat.mod_eq_of_lt hlen]
  have hname := h.name.unique h'.name
  have hflag := h.flag.symm.trans h'.flag
  have hdata : e.data = e'.data := by
    refine List.ext_getElem (hn.symm.trans hn') fun j hj hj' => ?_
    rw [← h.data j hj, ← h'.data j hj']
  cases e
  cases e'
  simp only at hname hflag hdata
  rw [hname, hflag, hdata]

variable {ts : List TarEntry}

theorem NameField.unique {f : View} {name name' : List Byte} (h : NameField f name) (h' : NameField f name') :
    name = name' := by
  have hle : ∀ {a b : List Byte}, NameField f a → NameField f b → a.length ≤ b.length := by
    intro a b ha hb
    by_contra hlt
    have hfits := ha.fits
    have hbyte := ha.bytes b.length (by omega)
    rw [hb.nul (by omega)] at hbyte
    exact ha.nonzero _ (List.getElem_mem _) hbyte.symm
  refine List.ext_getElem (Nat.le_antisymm (hle h h') (hle h' h)) fun i hi hi' => ?_
  rw [← h.bytes i hi, ← h'.bytes i hi']

/-- A name with its NUL in the field is read as it is. -/
theorem TarHeader.read_eq {addr : U32} {e : TarEntry} (h : TarHeader m addr e) (hlen : e.name.length ≤ 99) :
    e.read = e.name := h.header.name.unique (h.field.isCStr hlen)

theorem counted_split {pre post : List TarEntry} {e : TarEntry}
    (h : TarEntry.counted ts = pre ++ e :: post) : ∃ rest, ts = pre ++ e :: rest ∧ e.read ≠ [] ∧
      ∀ x ∈ pre, x.read ≠ [] := by
  have hread : ∀ x ∈ pre ++ e :: post, x.read ≠ [] := fun x hx => by
    rw [← h] at hx
    simpa using List.mem_takeWhile_imp hx
  refine ⟨post ++ ts.dropWhile fun e => e.read ≠ [], ?_, hread e (by simp), fun x hx => hread x (by simp [hx])⟩
  rw [← List.cons_append, ← List.append_assoc, ← h]
  exact List.takeWhile_append_dropWhile.symm

/-- The loop comes to the header of every counted entry. -/
theorem TarLayout.reached (hl : TarLayout m ramfs_end ramfs_start ts)
    (htop : ramfs_start.toNat + extent (ts.map TarEntry.asRead) + 512 < 2 ^ 32) (s₀ : Storage)
    {pre post : List TarEntry} {e : TarEntry} (hsplit : TarEntry.counted ts = pre ++ e :: post) :
    ∃ s s', Reached (importPass m ramfs_end) (ramfs_start, frodfsInit s₀) s ∧ TarHeader m s.1 e ∧
      Represents s.2 (importAll (pre.map TarEntry.asRead) .empty) ∧
      importPass m ramfs_end s = some (.next s') ∧ (s'.2 = s.2 ↔
        e.asRead.importTo (importAll (pre.map TarEntry.asRead) .empty) =
          importAll (pre.map TarEntry.asRead) .empty) := by
  obtain ⟨rest, hts, hread, hbefore⟩ := counted_split hsplit
  have hlayout := hl.layout
  rw [hts, List.map_append, List.map_cons] at hlayout htop
  obtain ⟨s, hs, hat⟩ := reached_of_split s₀ hlayout htop fun x hx => by
    obtain ⟨y, hy, rfl⟩ := List.mem_map.mp hx
    exact hbefore y hy
  obtain ⟨s', hpass, _, hiff⟩ := hat.pass hread
  have hfield := hl.fields pre e rest hts
  rw [← hat.place] at hfield
  cases hat.layout with
  | entry hh _ _ => exact ⟨s, s', hs, ⟨hfield, hh⟩, hat.table, hpass, hiff⟩

theorem TarHeader.unique {addr : U32} {e e' : TarEntry} (h : TarHeader m addr e) (h' : TarHeader m addr e')
    (hin : addr.toNat + 512 + padded e.data.length ≤ ramfs_end.toNat) (hlen : e'.data.length < 2 ^ 32) :
    e = e' := by
  have hname := h.field.unique h'.field
  have hread := headerOf_unique h.header h'.header hin hlen
  obtain ⟨⟨name, flag, data⟩, read⟩ := e
  obtain ⟨⟨name', flag', data'⟩, read'⟩ := e'
  obtain ⟨rfl, rfl, rfl⟩ := ArchiveEntry.mk.inj hread
  obtain rfl := hname
  rfl

end FrodOS
