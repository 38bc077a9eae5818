import FrodOS.Frodfs.Storage
import FrodOS.Lib.Loop

/-!
# The boot archive (kernel.c)

A TAR archive in a multiboot module: headers of `TAR_BLOCK` = 512 bytes, each
followed by its data in whole blocks. A header is named by its address.
-/

namespace FrodOS
open Lib

/-! ### Header fields -/

def sizeField (m : Ram) (header : U32) : View := view m (off header 124)

def typeflag (m : Ram) (header : U32) : Byte := m (off header 156)

def octalFrom (s : View) : (left i : ℕ) → U32 → U32
  | 0, _, r => r
  | left + 1, i, r =>
    if s i = 0 ∨ s i = 32 then r
    else if s i < 48 ∨ 55 < s i then octalFrom s left (i + 1) r
    else octalFrom s left (i + 1) ((r <<< 3) + ((s i).setWidth 32 - 48))

def octalToInt (s : View) (max_chars : ℕ) : U32 := octalFrom s max_chars 0 0

def fileSize (m : Ram) (header : U32) : U32 := octalToInt (sizeField m header) 12

/-- `ramfs_strcmp(a, b)` with a literal `b`, at whose NUL it stops at the latest. -/
def ramfsStrcmp (a : View) (b : List Byte) : ℤ := (strcmp b.length a (cstr b)).1

def aligned (size : U32) : U32 := (size + 511) / 512 * 512

theorem aligned_lt (size : U32) : (aligned size).toNat ≤ 0xFFFFFE00 := by
  have hdiv : ((size + 511) / 512 : U32).toNat = (size + 511).toNat / 512 := BitVec.toNat_udiv
  have hlt := (size + 511).isLt
  rw [aligned, BitVec.toNat_mul, hdiv, Nat.mod_eq_of_lt (by
    change (size + 511).toNat / 512 * 512 < 2 ^ 32
    omega)]
  change (size + 511).toNat / 512 * 512 ≤ 0xFFFFFE00
  omega

/-- "shell.bin" -/
def shellBin : List Byte := [115, 104, 101, 108, 108, 46, 98, 105, 110]

/-! ### Lookup -/

def skipDot (m : Ram) (name : U32) : U32 := if m name = 46 ∧ m (off name 1) = 47 then off name 2 else name

def ramfsPass (m : Ram) (ramfs_end : U32) (filename : List Byte) (addr : U32) :
    Option (Ctl U32 (Option (U32 × U32))) :=
  if addr + 512 ≤ ramfs_end then
    if m addr = 0 then some (.done none)
    else
      let size := fileSize m addr
      let data := addr + 512
      if size > ramfs_end - data then some (.done none)
      else if (typeflag m addr = 48 ∨ typeflag m addr = 0) ∧
          ramfsStrcmp (view m (skipDot m addr)) filename = 0 then
        some (.done (some (data, size)))
      else
        let advance := 512 + aligned size
        if advance > ramfs_end - addr then some (.done none) else some (.next (addr + advance))
  else some (.done none)

/-- `ramfs_read`, with at most `fuel` passes: the data address and the size, or null. -/
def ramfsRead (fuel : ℕ) (m : Ram) (ramfs_start ramfs_end : U32) (filename : List Byte) :
    Option (Option (U32 × U32)) :=
  let filename := match filename with
    | 46 :: 47 :: rest => rest
    | name => name
  if ramfs_start = 0 ∨ ramfs_start ≥ ramfs_end then some none
  else loop (ramfsPass m ramfs_end filename) fuel ramfs_start

end FrodOS
