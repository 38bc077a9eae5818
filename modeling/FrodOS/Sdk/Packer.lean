import FrodOS.Kernel.Exec
import Mathlib.Data.List.GetD

/-!
# The FXE packer (frodos-sdk/tools/fxe_packer.c)

The packer puts a header before the bytes of a text file and a data file. It runs
on the host, so what the host gives it (which files open, what they hold, whether
there is memory for a copy) is its input.
-/

namespace FrodOS
open Lib

/-- The bytes of a header as `fwrite` puts them out. -/
def FxeHeader.encode (h : FxeHeader) : List Byte :=
  h.magic ++ [h.entry_point, h.text_offset, h.text_size, h.data_offset, h.data_size, h.bss_size,
    h.stack_size].flatMap le32

structure PackerRun where
  argc : ℕ
  /-- `argv[2]` -/
  data_name : List Byte
  /-- What the files hold, if they open. -/
  (f_text f_data : Option (List Byte))
  f_out : Bool
  /-- Whether `malloc` has room for the copies. -/
  (text_buf data_buf : Bool)

/-- "none" -/
def noneName : List Byte := [110, 111, 110, 101]

namespace PackerRun

/-- The data file that is packed: none under the name "none". -/
def dataFile (r : PackerRun) : Option (List Byte) :=
  if r.data_name ≠ noneName then r.f_data else none

def data (r : PackerRun) : List Byte := r.dataFile.getD []

def textSize (text : List Byte) : U32 := BitVec.ofNat 32 text.length

def dataSize (r : PackerRun) : U32 :=
  match r.dataFile with
  | some data => BitVec.ofNat 32 data.length
  | none => 0

end PackerRun

def packerHeader (text_sz data_sz : U32) : FxeHeader where
  magic := fxeMagic
  entry_point := 0x6000000
  text_offset := 32
  text_size := text_sz
  data_offset := 32 + text_sz
  data_size := data_sz
  bss_size := 4096
  stack_size := 16384

/-- `main`: the exit code and what the output file holds, if it was opened. -/
def fxePacker (r : PackerRun) : ℤ × Option (List Byte) :=
  if r.argc < 4 then (1, none)
  else
    match r.f_text, r.f_out with
    | some text, true =>
      let text_sz := PackerRun.textSize text
      let data_sz := r.dataSize
      let copied := if r.text_buf then text.take text_sz.toNat else []
      let packedData := match r.f_data with
        | some data => if data_sz > 0 ∧ r.data_buf then data.take data_sz.toNat else []
        | none => []
      (0, some ((packerHeader text_sz data_sz).encode ++ copied ++ packedData))
    | _, opened => (1, if opened then some [] else none)

/-! ### What it packs -/

theorem FxeHeader.encode_length (h : FxeHeader) : h.encode.length = h.magic.length + 28 := by
  simp [encode]

theorem fxeHeader_encode {h : FxeHeader} (hm : h.magic = fxeMagic) {f : View}
    (hf : ∀ i < 32, f i = h.encode.getD i 0) : fxeHeader f = h := by
  rw [fxeHeader_congr f (fun i => h.encode.getD i 0) hf]
  obtain ⟨magic, entry_point, text_offset, text_size, data_offset, data_size, bss_size, stack_size⟩ := h
  obtain rfl : magic = fxeMagic := hm
  -- each field is four consecutive bytes of the list, those of its word
  show FxeHeader.mk fxeMagic (leWord (wordBytes entry_point)) (leWord (wordBytes text_offset))
    (leWord (wordBytes text_size)) (leWord (wordBytes data_offset)) (leWord (wordBytes data_size))
    (leWord (wordBytes bss_size)) (leWord (wordBytes stack_size)) = _
  simp only [leWord_wordBytes]

theorem fxeHeader_packed (t d : U32) (payload : List Byte) :
    (fxeHeader fun j => ((packerHeader t d).encode ++ payload).getD j 0) = packerHeader t d := by
  have hlen : (packerHeader t d).encode.length = 32 := FxeHeader.encode_length _
  exact fxeHeader_encode rfl fun j hj => List.getD_append _ _ _ _ (by omega)

namespace PackerRun

def payload (r : PackerRun) (text : List Byte) : List Byte :=
  (if r.text_buf then text.take (textSize text).toNat else []) ++
    if r.data_buf then r.data.take r.dataSize.toNat else []

theorem dataSize_eq (r : PackerRun) : r.dataSize = BitVec.ofNat 32 r.data.length := by
  unfold dataSize data
  cases r.dataFile <;> rfl

theorem payload_copied (r : PackerRun) {text : List Byte} (hb : r.text_buf = true)
    (hb' : r.data_buf = true) (ht : text.length < 2 ^ 32) (hd : r.data.length < 2 ^ 32) :
    r.payload text = text ++ r.data := by
  rw [payload, if_pos hb, if_pos hb', dataSize_eq, textSize, BitVec.toNat_ofNat, BitVec.toNat_ofNat,
    Nat.mod_eq_of_lt ht, Nat.mod_eq_of_lt hd, List.take_length, List.take_length]

theorem payload_length_le (r : PackerRun) (text : List Byte) :
    (r.payload text).length ≤ (textSize text).toNat + r.dataSize.toNat := by
  have ht := List.length_take_le (textSize text).toNat text
  have hd := List.length_take_le r.dataSize.toNat r.data
  have hnil : ([] : List Byte).length = 0 := rfl
  rw [payload, List.length_append]
  split_ifs <;> omega

end PackerRun

theorem fxePacker_done_iff (r : PackerRun) (file : List Byte) :
    fxePacker r = (0, some file) ↔ 4 ≤ r.argc ∧ r.f_out = true ∧ ∃ text, r.f_text = some text ∧
      file = (packerHeader (PackerRun.textSize text) r.dataSize).encode ++ r.payload text := by
  have hdata : (match r.f_data with
      | some data => if r.dataSize > 0 ∧ r.data_buf = true then data.take r.dataSize.toNat else []
      | none => []) = if r.data_buf then r.data.take r.dataSize.toNat else [] := by
    cases hf : r.f_data with
    | none =>
      have hnil : r.data = [] := by simp [PackerRun.data, PackerRun.dataFile, hf]
      simp [hnil]
    | some data =>
      by_cases hn : r.data_name = noneName
      · have hnil : r.data = [] := by simp [PackerRun.data, PackerRun.dataFile, hn]
        simp [hnil, PackerRun.dataSize_eq]
      · have hdata : r.data = data := by simp [PackerRun.data, PackerRun.dataFile, hn, hf]
        by_cases hz : r.dataSize = 0
        · simp [hz]
        · have hpos : r.dataSize > 0 := (BitVec.pos_iff_ne_zero _).mpr hz
          simp only [hpos, true_and, hdata]
  simp only [fxePacker]
  by_cases ha : r.argc < 4
  · simp [ha]
  · cases ht : r.f_text with
    | none => simp [ha]
    | some text =>
      cases ho : r.f_out with
      | false => simp [ha]
      | true =>
        simp only [ha, if_false, hdata, Prod.mk.injEq, Option.some.injEq, true_and, PackerRun.payload]
        rw [List.append_assoc, eq_comm]
        constructor
        · intro h
          exact ⟨by omega, text, rfl, h⟩
        · intro hc
          obtain ⟨_, _, rfl, h⟩ := hc
          exact h

/-! ### The program it describes -/

theorem packerHeader_dataAt (t d : U32) :
    (packerHeader t d).entry_point + (packerHeader t d).data_offset - (packerHeader t d).text_offset =
      (packerHeader t d).entry_point + t := by
  change (packerHeader t d).entry_point + (32 + t) - 32 = _
  rw [add_sub_assoc, add_sub_cancel_left]

def imagePages (text_sz data_sz : ℕ) : ℕ := (text_sz + data_sz + 4096 + 4095) / 4096

theorem packerHeader_total {t d : U32} (h : t.toNat + d.toNat + 4096 < 2 ^ 32) :
    (packerHeader t d).totalMemory.toNat = t.toNat + d.toNat + 4096 := by
  change (t + d + 4096 : U32).toNat = _
  have hbss : (4096 : U32).toNat = 4096 := rfl
  rw [BitVec.toNat_add, BitVec.toNat_add, hbss]
  omega

theorem packerHeader_appPages {t d : U32} (h : t.toNat + d.toNat + 4096 + 4095 < 2 ^ 32) :
    (packerHeader t d).appPages.toNat = imagePages t.toNat d.toNat := by
  have htotal := packerHeader_total (t := t) (d := d) (by omega)
  have hround : ((packerHeader t d).totalMemory + 4095).toNat = t.toNat + d.toNat + 4096 + 4095 := by
    rw [BitVec.toNat_add, htotal]
    exact Nat.mod_eq_of_lt h
  rw [FxeHeader.appPages, BitVec.toNat_udiv, hround]
  rfl

theorem packerHeader_stackPages (t d : U32) : (packerHeader t d).stackPages.toNat = 4 := by
  change ((16384 + 4095 : U32) / 4096).toNat = 4
  decide

/-! ### The sections of a file -/

namespace FxeHeader

def textOf (h : FxeHeader) (file : List Byte) : List Byte :=
  (file.drop h.text_offset.toNat).take h.text_size.toNat

def dataOf (h : FxeHeader) (file : List Byte) : List Byte :=
  (file.drop h.data_offset.toNat).take h.data_size.toNat

end FxeHeader

section

variable {text data : List Byte}

theorem packerHeader_textOf (ht : text.length < 2 ^ 32) {h : List Byte} (hl : h.length = 32) :
    (packerHeader (BitVec.ofNat 32 text.length) (BitVec.ofNat 32 data.length)).textOf
      (h ++ (text ++ data)) = text := by
  have hsize : (BitVec.ofNat 32 text.length).toNat = text.length := by
    rw [BitVec.toNat_ofNat, Nat.mod_eq_of_lt ht]
  change ((h ++ (text ++ data)).drop 32).take (BitVec.ofNat 32 text.length).toNat = text
  rw [List.drop_left' hl, hsize, List.take_left]

theorem packerHeader_dataOf (hsize : 32 + text.length + data.length < 2 ^ 32) {h : List Byte}
    (hl : h.length = 32) :
    (packerHeader (BitVec.ofNat 32 text.length) (BitVec.ofNat 32 data.length)).dataOf
      (h ++ (text ++ data)) = data := by
  have hoffset : (32 + BitVec.ofNat 32 text.length : U32).toNat = 32 + text.length := by
    have h32 : (32 : U32).toNat = 32 := rfl
    rw [BitVec.toNat_add, BitVec.toNat_ofNat, h32]
    omega
  have hdata : (BitVec.ofNat 32 data.length).toNat = data.length := by
    rw [BitVec.toNat_ofNat, Nat.mod_eq_of_lt (by omega)]
  change ((h ++ (text ++ data)).drop (32 + BitVec.ofNat 32 text.length : U32).toNat).take
    (BitVec.ofNat 32 data.length).toNat = data
  rw [hoffset, hdata, ← List.append_assoc, List.drop_left' (by rw [List.length_append, hl]),
    List.take_length]

end

end FrodOS
