import FrodOS.Lib.Memory
import FrodOS.Lib.Tape

/-!
# The text console (video.c)

The screen has 25 lines of 80 cells, each a glyph under its colour. A cursor past the
last cell scrolls when the next character arrives, not before. The hardware cursor
follows every call and is left out.
-/

namespace FrodOS
open Lib

abbrev Cell := BitVec 16

/-- `(unsigned short)c | (char_color << 8)`, where `char` is signed. -/
def charCell (color c : Byte) : Cell := c.signExtend 16 ||| (color.zeroExtend 16 <<< 8)

def glyph (v : Cell) : Byte := v.setWidth 8

theorem glyph_charCell (color c : Byte) : glyph (charCell color c) = c := by
  apply BitVec.eq_of_getLsbD_eq
  intro i hi
  have hi' : i < 16 := by omega
  have hlow : (c.signExtend 16).getLsbD i = c.getLsbD i := by
    rw [BitVec.getLsbD_signExtend]
    simp only [hi, hi', decide_true, Bool.true_and, if_true]
  simp only [glyph, charCell, BitVec.getLsbD_setWidth, BitVec.getLsbD_or, BitVec.getLsbD_shiftLeft, hi, hlow,
    decide_true, Bool.true_and, Bool.not_true, Bool.and_false, Bool.false_and, Bool.or_false]

structure Console where
  vga_buffer : ℤ → Cell
  vga_cursor : ℤ
  char_color : Byte
  /-- The indices of `vga_buffer` read or written so far. -/
  used : List ℤ

namespace Console

def setCell (c : Console) (i : ℤ) (v : Cell) : Console :=
  { c with vga_buffer := Function.update c.vga_buffer i v, used := c.used ++ [i] }

def copyCell (c : Console) (i src : ℤ) : Console :=
  { c with vga_buffer := Function.update c.vga_buffer i (c.vga_buffer src), used := c.used ++ [src, i] }

theorem setCell_buffer (c : Console) (i : ℤ) (v : Cell) :
    (c.setCell i v).vga_buffer = Function.update c.vga_buffer i v := rfl

theorem copyCell_buffer (c : Console) (i src : ℤ) :
    (c.copyCell i src).vga_buffer = Function.update c.vga_buffer i (c.vga_buffer src) := rfl

/-- `n` passes of the first loop of `scroll`, from `i` on. -/
def copyLines (c : Console) : ℕ → ℤ → Console
  | 0, _ => c
  | n + 1, i => (c.copyCell i (i + 80)).copyLines n (i + 1)

def fillBlank (c : Console) : ℕ → ℤ → Console
  | 0, _ => c
  | n + 1, i => (c.setCell i (charCell c.char_color 0x20)).fillBlank n (i + 1)

def scroll (c : Console) : Console :=
  { (c.copyLines (80 * 24) 0).fillBlank 80 (80 * 24) with vga_cursor := 80 * 24 }

def ready (c : Console) : Console := if 80 * 25 ≤ c.vga_cursor then c.scroll else c

def emit (c : Console) (b : Byte) : Console :=
  if b = 10 then { c with vga_cursor := (c.vga_cursor.tdiv 80 + 1) * 80 }
  else if b = 8 then
    if 0 < c.vga_cursor then
      { c.setCell (c.vga_cursor - 1) (charCell c.char_color 0x20) with vga_cursor := c.vga_cursor - 1 }
    else c
  else { c.setCell c.vga_cursor (charCell c.char_color b) with vga_cursor := c.vga_cursor + 1 }

def putChar (c : Console) (b : Byte) : Console := c.ready.emit b

/-- The bytes of `str` up to its NUL, which the end of the list stands for as well. -/
def kprint (c : Console) : List Byte → Console
  | [] => c
  | b :: str => if b = 0 then c else (c.putChar b).kprint str

def kclear (c : Console) : Console := { c.fillBlank (80 * 25) 0 with vga_cursor := 0 }

def ksetColor (c : Console) (color : Byte) : Console := { c with char_color := color }

end Console

inductive ConsoleCall where
  | putChar (b : Byte)
  | kprint (str : List Byte)
  | kclear
  | ksetColor (color : Byte)

namespace Console

def exec (c : Console) : ConsoleCall → Console
  | .putChar b => c.putChar b
  | .kprint str => c.kprint str
  | .kclear => c.kclear
  | .ksetColor color => c.ksetColor color

def run (c : Console) (calls : List ConsoleCall) : Console := calls.foldl exec c

/-! ### The loops -/

theorem copyLines_color (c : Console) (n : ℕ) (i : ℤ) : (c.copyLines n i).char_color = c.char_color := by
  induction n generalizing c i with
  | zero => rfl
  | succ n ih => exact ih (c.copyCell i (i + 80)) (i + 1)

/-- The loop goes upwards, so it reads every cell before it writes it. -/
theorem copyLines_buffer (c : Console) (n : ℕ) (i j : ℤ) :
    (c.copyLines n i).vga_buffer j =
      if i ≤ j ∧ j < i + n then c.vga_buffer (j + 80) else c.vga_buffer j := by
  induction n generalizing c i with
  | zero =>
    rw [copyLines, if_neg (by omega)]
  | succ n ih =>
    rw [copyLines, ih]
    by_cases hi : j = i
    · subst hi
      rw [if_neg (by omega), if_pos (by omega), copyCell_buffer, Function.update_self]
    · rw [copyCell_buffer, Function.update_of_ne hi]
      split_ifs with h1 h2 h2
      · rw [Function.update_of_ne (by omega)]
      · omega
      · omega
      · rfl

theorem fillBlank_color (c : Console) (n : ℕ) (i : ℤ) : (c.fillBlank n i).char_color = c.char_color := by
  induction n generalizing c i with
  | zero => rfl
  | succ n ih => exact ih (c.setCell i (charCell c.char_color 0x20)) (i + 1)

theorem fillBlank_buffer (c : Console) (n : ℕ) (i j : ℤ) :
    (c.fillBlank n i).vga_buffer j =
      if i ≤ j ∧ j < i + n then charCell c.char_color 0x20 else c.vga_buffer j := by
  induction n generalizing c i with
  | zero =>
    rw [fillBlank, if_neg (by omega)]
  | succ n ih =>
    rw [fillBlank, ih]
    by_cases hi : j = i
    · subst hi
      rw [if_neg (by omega), if_pos (by omega), setCell_buffer, Function.update_self]
    · rw [setCell_buffer, Function.update_of_ne hi]
      split_ifs with h1 h2 h2
      · rfl
      · omega
      · omega
      · rfl

theorem scroll_cursor (c : Console) : c.scroll.vga_cursor = 1920 := rfl

theorem scroll_color (c : Console) : c.scroll.char_color = c.char_color := by
  simp only [scroll, fillBlank_color, copyLines_color]

theorem scroll_buffer (c : Console) (j : ℤ) : c.scroll.vga_buffer j =
    if 0 ≤ j ∧ j < 1920 then c.vga_buffer (j + 80)
    else if 1920 ≤ j ∧ j < 2000 then charCell c.char_color 0x20 else c.vga_buffer j := by
  simp only [scroll, fillBlank_buffer, copyLines_buffer, copyLines_color]
  split_ifs <;> first | rfl | omega

theorem kclear_buffer (c : Console) (j : ℤ) : c.kclear.vga_buffer j =
    if 0 ≤ j ∧ j < 2000 then charCell c.char_color 0x20 else c.vga_buffer j := by
  simp only [kclear, fillBlank_buffer]
  split_ifs <;> first | rfl | omega

theorem ready_color (c : Console) : c.ready.char_color = c.char_color := by
  unfold ready
  split_ifs
  · exact c.scroll_color
  · rfl

end Console

/-! ### The screen as a window on a tape -/

/-- What a character does to a tape that is blank where nothing was written. -/
def tapeChar {α : Type} (enc : Byte → α) (t : Tape α) (b : Byte) : Tape α :=
  if b = 10 then t.newline 80 else if b = 8 then t.back (enc 0x20) else t.write (enc b)

namespace Console

variable {α : Type}

/-- Through `f` the screen shows the tape `t` from line `s` on. -/
def Shows (f : Cell → α) (blank : α) (s : ℕ) (t : Tape α) (c : Console) : Prop :=
  Window 80 2000 blank s t (fun j => f (c.vga_buffer j)) c.vga_cursor

variable {f : Cell → α} {enc : Byte → α} {s : ℕ} {t : Tape α} {c : Console}

theorem view_update (f : Cell → α) (buffer : ℤ → Cell) (i : ℤ) (v : Cell) :
    (fun j => f (Function.update buffer i v j)) = Function.update (fun j => f (buffer j)) i (f v) := by
  funext j
  by_cases h : j = i
  · rw [h, Function.update_self, Function.update_self]
  · rw [Function.update_of_ne h, Function.update_of_ne h]

/-- Only a cursor past the last cell scrolls, and then the cursor is inside the screen. -/
theorem ready_shows (h : Shows f (enc 0x20) s t c) (henc : ∀ b, f (charCell c.char_color b) = enc b) :
    ∃ s', (s' = s ∧ c.ready = c ∨ s' = s + 1 ∧ c.vga_cursor = 2000 ∧ c.ready.vga_cursor = 1920) ∧
      Shows f (enc 0x20) s' t c.ready ∧ c.ready.vga_cursor < 2000 := by
  have hle : c.vga_cursor ≤ 2000 := h.le
  by_cases hfull : 80 * 25 ≤ c.vga_cursor
  · have hcursor : c.vga_cursor = 2000 := by omega
    have hscroll : c.ready = c.scroll := if_pos hfull
    rw [hscroll, scroll_cursor]
    refine ⟨s + 1, Or.inr ⟨rfl, hcursor, rfl⟩, ?_, by decide⟩
    rw [Shows, hcursor] at h
    refine h.scroll (by decide) (by decide) (fun j h0 hj => ?_) (fun j hj hn => ?_)
    · rw [scroll_buffer, if_pos (by omega)]
    · rw [scroll_buffer, if_neg (by omega), if_pos (by omega), henc]
  · have hsame : c.ready = c := if_neg hfull
    rw [hsame]
    exact ⟨s, Or.inl ⟨rfl, rfl⟩, h, by omega⟩

theorem emit_shows (h : Shows f (enc 0x20) s t c) (henc : ∀ b, f (charCell c.char_color b) = enc b)
    (hlt : c.vga_cursor < 2000) {b : Byte} (hback : b = 8 → 0 < c.vga_cursor) :
    Shows f (enc 0x20) s (tapeChar enc t b) (c.emit b) := by
  have h0 : 0 ≤ c.vga_cursor := h.nonneg
  unfold emit tapeChar
  split_ifs with hnl hbs hpos
  · rw [Shows, Int.tdiv_eq_ediv_of_nonneg h0]
    exact h.newline (by decide) (by decide) hlt
  · have hview := view_update f c.vga_buffer (c.vga_cursor - 1) (charCell c.char_color 0x20)
    rw [Shows, setCell_buffer, hview, henc]
    exact h.back hpos
  · exact absurd (hback hbs) hpos
  · have hview := view_update f c.vga_buffer c.vga_cursor (charCell c.char_color b)
    rw [Shows, setCell_buffer, hview, henc]
    exact h.write hlt (enc b)

/-- A character does to the tape what it does to the screen; the window moves by a line
only when the cursor was past the last cell. -/
theorem putChar_shows (h : Shows f (enc 0x20) s t c) (henc : ∀ b, f (charCell c.char_color b) = enc b)
    {b : Byte} (hback : b = 8 → c.vga_cursor ≠ 0) :
    ∃ s', (s' = s ∧ c.vga_cursor < 2000 ∨ s' = s + 1 ∧ c.vga_cursor = 2000) ∧
      Shows f (enc 0x20) s' (tapeChar enc t b) (c.putChar b) := by
  have h0 : 0 ≤ c.vga_cursor := h.nonneg
  obtain ⟨s', hs, hready, hlt⟩ := ready_shows h henc
  have henc' : ∀ b, f (charCell c.ready.char_color b) = enc b := by
    rw [ready_color]
    exact henc
  have hback' : b = 8 → 0 < c.ready.vga_cursor := fun hb => by
    have hne := hback hb
    rcases hs with ⟨-, hsame⟩ | ⟨-, -, hcursor⟩
    · rw [hsame]
      omega
    · omega
  refine ⟨s', ?_, emit_shows hready henc' hlt hback'⟩
  rcases hs with ⟨rfl, hsame⟩ | ⟨rfl, hfull, -⟩
  · rw [hsame] at hlt
    exact Or.inl ⟨rfl, hlt⟩
  · exact Or.inr ⟨rfl, hfull⟩

/-! ### Every console that was cleared once -/

structure Tidy (c : Console) : Prop where
  nonneg : 0 ≤ c.vga_cursor
  le : c.vga_cursor ≤ 2000
  ahead : ∀ j, c.vga_cursor ≤ j → j < 2000 → glyph (c.vga_buffer j) = 0x20

def picture (c : Console) : Tape Byte :=
  ⟨fun j => if j < 2000 then glyph (c.vga_buffer j) else 0x20, c.vga_cursor⟩

theorem Tidy.shows (h : c.Tidy) : Shows glyph 0x20 0 c.picture c := Window.of_screen h.nonneg h.le h.ahead

theorem Shows.tidy {t : Tape Byte} (h : Shows glyph 0x20 s t c) : c.Tidy :=
  ⟨h.nonneg, h.le, fun _ hj hn => h.screen_ahead hj hn⟩

theorem Tidy.putChar (h : c.Tidy) (b : Byte) : (c.putChar b).Tidy := by
  by_cases hstay : b = 8 ∧ c.vga_cursor = 0
  · -- at the top-left cell a backspace does nothing
    obtain ⟨rfl, hzero⟩ := hstay
    have hready : c.ready = c := if_neg (by omega)
    have hsame : c.putChar 8 = c := by
      rw [Console.putChar, hready, emit, if_neg (by decide), if_pos rfl, if_neg (by omega)]
    rw [hsame]
    exact h
  · have hback : b = 8 → c.vga_cursor ≠ 0 := fun hb hzero => hstay ⟨hb, hzero⟩
    have henc : ∀ b, glyph (charCell c.char_color b) = id b := glyph_charCell _
    obtain ⟨s', -, hshows⟩ := putChar_shows h.shows henc hback
    exact Shows.tidy hshows

theorem Tidy.kprint (h : c.Tidy) (str : List Byte) : (c.kprint str).Tidy := by
  induction str generalizing c with
  | nil => exact h
  | cons b str ih =>
    rw [Console.kprint]
    split_ifs
    · exact h
    · exact ih (h.putChar b)

theorem kclear_tidy (c : Console) : c.kclear.Tidy := by
  have hcursor : c.kclear.vga_cursor = 0 := rfl
  refine ⟨by omega, by omega, fun j h0 hj => ?_⟩
  rw [kclear_buffer, if_pos ⟨h0, hj⟩, glyph_charCell]

theorem Tidy.exec (h : c.Tidy) (call : ConsoleCall) : (c.exec call).Tidy := by
  cases call with
  | putChar b => exact h.putChar b
  | kprint str => exact h.kprint str
  | kclear => exact c.kclear_tidy
  | ksetColor color => exact ⟨h.nonneg, h.le, h.ahead⟩

theorem Tidy.run (h : c.Tidy) (calls : List ConsoleCall) : (c.run calls).Tidy := by
  induction calls generalizing c with
  | nil => exact h
  | cons call calls ih => exact ih (h.exec call)

end Console

end FrodOS
