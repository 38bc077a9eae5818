import FrodOS.Drivers.Numbers

/-!
# The fault report (kernel.c)

`gpf_handler_main` prints what the processor pushed and stops. The report gives each of the
three words in eight digits, so none of them is lost.
-/

namespace FrodOS
open Lib

def hexByte (val : Byte) : List Byte :=
  [Console.hexChars.getD (val.toNat / 16) 0, Console.hexChars.getD (val.toNat % 16) 0]

def hexText (v : BitVec 32) : List Byte :=
  hexByte ((v >>> 24).setWidth 8) ++ hexByte ((v >>> 16).setWidth 8) ++ hexByte ((v >>> 8).setWidth 8) ++
    hexByte (v.setWidth 8)

def hexVal (c : Byte) : ℕ := if c.toNat < 65 then c.toNat - 48 else c.toNat - 55

def gpfHandlerMain (c : Console) (err eip cs : BitVec 32) : Console :=
  let c := c.kprint (ascii "\n!!! KERNEL PANIC: GENERAL PROTECTION FAULT (CPU TRAP 13) !!!\n")
  let c := (c.kprint (ascii "Error code: ")).kprintHex32 err
  let c := (c.kprint (ascii "\nEIP: ")).kprintHex32 eip
  let c := (c.kprint (ascii "\nCS: ")).kprintHex32 cs
  c.kprint (ascii "\n")

/-- The report up to its first number, and what stands before each of the other two. -/
def gpfHeading : List Byte :=
  ascii "\n!!! KERNEL PANIC: GENERAL PROTECTION FAULT (CPU TRAP 13) !!!\n" ++ ascii "Error code: " ++ [48, 120]

def gpfReport (err eip cs : BitVec 32) : List Byte :=
  gpfHeading ++ hexText err ++ (ascii "\nEIP: " ++ [48, 120]) ++ hexText eip ++ (ascii "\nCS: " ++ [48, 120]) ++
    hexText cs ++ ascii "\n"

/-! ### Hexadecimal -/

theorem hexVal_hexChars {d : ℕ} (h : d < 16) : hexVal (Console.hexChars.getD d 0) = d := by
  have hall : ∀ d : Fin 16, hexVal (Console.hexChars.getD d.val 0) = d.val := by decide
  exact hall ⟨d, h⟩

theorem hexChars_ne_zero {d : ℕ} (h : d < 16) : Console.hexChars.getD d 0 ≠ 0 := by
  have hall : ∀ d : Fin 16, Console.hexChars.getD d.val 0 ≠ 0 := by decide
  exact hall ⟨d, h⟩

theorem nibbles_lt (val : Byte) : val.toNat / 16 < 16 ∧ val.toNat % 16 < 16 := by
  have := val.isLt
  omega

theorem hexByte_ne_zero (val : Byte) : ∀ b ∈ hexByte val, b ≠ 0 := by
  obtain ⟨hhigh, hlow⟩ := nibbles_lt val
  intro b hb
  simp only [hexByte, List.mem_cons, List.not_mem_nil, or_false] at hb
  rcases hb with rfl | rfl
  · exact hexChars_ne_zero hhigh
  · exact hexChars_ne_zero hlow

theorem hexText_ne_zero (v : BitVec 32) : ∀ b ∈ hexText v, b ≠ 0 := by
  intro b hb
  simp only [hexText, List.mem_append] at hb
  rcases hb with ((hb | hb) | hb) | hb
  all_goals exact hexByte_ne_zero _ b hb

theorem positional_hexByte (val : Byte) : positional 16 hexVal (hexByte val) = val.toNat := by
  obtain ⟨hhigh, hlow⟩ := nibbles_lt val
  simp only [positional, hexByte, List.foldl_cons, List.foldl_nil, hexVal_hexChars hhigh, hexVal_hexChars hlow]
  omega

/-- Eight digits give the word back. -/
theorem positional_hexText (v : BitVec 32) : positional 16 hexVal (hexText v) = v.toNat := by
  have hlt := v.isLt
  have hbyte : ∀ k, ((v >>> k).setWidth 8 : Byte).toNat = v.toNat / 2 ^ k % 2 ^ 8 := fun k => by
    rw [BitVec.toNat_setWidth, BitVec.toNat_ushiftRight, Nat.shiftRight_eq_div_pow]
  have hlast : (v.setWidth 8 : Byte).toNat = v.toNat % 2 ^ 8 := BitVec.toNat_setWidth ..
  have hlen : ∀ val, (hexByte val).length = 2 := fun _ => rfl
  simp only [hexText, positional_append, positional_hexByte, hbyte, hlast, hlen]
  omega

theorem hexText_injective {v w : BitVec 32} (h : hexText v = hexText w) : v = w := by
  have hvalue := congrArg (positional 16 hexVal) h
  rw [positional_hexText, positional_hexText] at hvalue
  exact BitVec.eq_of_toNat_eq hvalue

namespace Console

theorem kprintHex8_eq (c : Console) (val : Byte) : c.kprintHex8 val = c.kprint (hexByte val) := by
  have hnibble : ∀ v : Byte, (v >>> 4 &&& 0x0F).toNat = v.toNat / 16 ∧ (v &&& 0x0F).toNat = v.toNat % 16 := by
    decide
  obtain ⟨hhigh, hlow⟩ := nibbles_lt val
  rw [kprintHex8, (hnibble val).1, (hnibble val).2, hexByte, kprint, if_neg (hexChars_ne_zero hhigh), kprint,
    if_neg (hexChars_ne_zero hlow), kprint]

theorem kprintHex32_eq (c : Console) (v : BitVec 32) : c.kprintHex32 v = c.kprint ([48, 120] ++ hexText v) := by
  simp only [kprintHex32, kprintHex8_eq, hexText, List.append_assoc]
  rw [kprint_append _ (by decide), kprint_append _ (hexByte_ne_zero _), kprint_append _ (hexByte_ne_zero _),
    kprint_append _ (hexByte_ne_zero _)]

end Console

/-! ### The report -/

theorem ascii_ne_zero (text : String) (h : 0 ∉ ascii text) : ∀ b ∈ ascii text, b ≠ 0 :=
  fun _ hb he => h (he ▸ hb)

theorem gpfHandlerMain_eq (c : Console) (err eip cs : BitVec 32) :
    gpfHandlerMain c err eip cs = c.kprint (gpfReport err eip cs) := by
  have htitle := ascii_ne_zero
    "\n!!! KERNEL PANIC: GENERAL PROTECTION FAULT (CPU TRAP 13) !!!\n" (by decide +kernel)
  have herr := ascii_ne_zero "Error code: " (by decide +kernel)
  have heip := ascii_ne_zero "\nEIP: " (by decide +kernel)
  have hcs := ascii_ne_zero "\nCS: " (by decide +kernel)
  have hmark : ∀ b ∈ ([48, 120] : List Byte), b ≠ 0 := by decide
  simp only [gpfHandlerMain, gpfReport, gpfHeading, Console.kprintHex32_eq, List.append_assoc,
    Console.kprint_append _ htitle, Console.kprint_append _ herr, Console.kprint_append _ heip,
    Console.kprint_append _ hcs, Console.kprint_append _ hmark, Console.kprint_append _ (hexText_ne_zero _)]

/-- Two reports with the same text are about the same fault. -/
theorem gpfReport_injective {err eip cs err' eip' cs' : BitVec 32}
    (h : gpfReport err eip cs = gpfReport err' eip' cs') : err = err' ∧ eip = eip' ∧ cs = cs' := by
  simp only [gpfReport, List.append_assoc, List.append_cancel_left_eq] at h
  obtain ⟨herr, h⟩ := List.append_inj h rfl
  simp only [List.append_cancel_left_eq] at h
  obtain ⟨heip, h⟩ := List.append_inj h rfl
  simp only [List.append_cancel_left_eq] at h
  obtain ⟨hcs, -⟩ := List.append_inj h rfl
  exact ⟨hexText_injective herr, hexText_injective heip, hexText_injective hcs⟩

end FrodOS
