import FrodOS.Drivers.Video
import FrodOS.Lib.Run

/-!
# Runs of the console (video.c)

A run of console calls is a run of characters for `put_char`, with clears and changes of
colour between them. What every character does to the screen, where the cursor stands
when it arrives and what it stores, is proved for all of them.
-/

namespace FrodOS
open Lib

/-- The cell with `color` as its high half and the character `b` as its low half. -/
def cellOf (color b : Byte) : Cell := color ++ b

theorem msb_eq_false_iff (b : Byte) : b.msb = false ↔ b < 0x80 := by
  rw [BitVec.msb_eq_decide, decide_eq_false_iff_not, Nat.not_le]
  exact Iff.rfl

/-- The sign of the character fills the high half. -/
theorem charCell_eq (color b : Byte) : charCell color b = cellOf (if b.msb then 0xFF else color) b := by
  have hones : ∀ i < 8, (255#8).getLsbD i = true := by decide
  apply BitVec.eq_of_getLsbD_eq
  intro i hi
  simp only [charCell, cellOf, BitVec.getLsbD_or, BitVec.getLsbD_append, BitVec.getLsbD_signExtend,
    BitVec.getLsbD_shiftLeft, BitVec.getLsbD_setWidth, hi]
  by_cases hlow : i < 8
  · simp [hlow]
  · have hhigh : i - 8 < 8 := by omega
    have hwide : i - 8 < 16 := by omega
    cases hb : b.msb
    · simp [hlow, hwide]
    · simp [hlow, hones (i - 8) hhigh]

theorem cellOf_color_inj {color color' b : Byte} (h : cellOf color b = cellOf color' b) : color = color' := by
  have hhigh := congrArg (BitVec.extractLsb' 8 8) h
  rwa [cellOf, cellOf, BitVec.extractLsb'_append_eq_left, BitVec.extractLsb'_append_eq_left] at hhigh

theorem charCell_eq_iff (color b : Byte) : charCell color b = cellOf color b ↔ b < 0x80 ∨ color = 0xFF := by
  rw [charCell_eq, ← msb_eq_false_iff]
  cases b.msb with
  | false => exact ⟨fun _ => Or.inl rfl, fun _ => rfl⟩
  | true =>
    constructor
    · intro h
      exact Or.inr (cellOf_color_inj h).symm
    · intro h
      rw [h.resolve_left Bool.noConfusion]
      rfl

theorem charCell_space (color : Byte) : charCell color 0x20 = cellOf color 0x20 :=
  (charCell_eq_iff color 0x20).mpr (Or.inl (by decide))

namespace Console

/-! ### The characters of a run -/

/-- The calls of `put_char` that `kprint` makes, each with the console it is made on. -/
def kprintPuts (c : Console) : List Byte → List (Console × Byte)
  | [] => []
  | b :: str => if b = 0 then [] else (c, b) :: (c.putChar b).kprintPuts str

def puts (c : Console) : ConsoleCall → List (Console × Byte)
  | .putChar b => [(c, b)]
  | .kprint str => c.kprintPuts str
  | .kclear => []
  | .ksetColor _ => []

def runPuts (c : Console) : List ConsoleCall → List (Console × Byte)
  | [] => []
  | call :: calls => c.puts call ++ (c.exec call).runPuts calls

/-- What every character keeps holds whenever one arrives during a `kprint`, and after it. -/
theorem kprint_invariant {P : Console → Prop} (hput : ∀ c b, P c → P (c.putChar b)) {c : Console}
    (h : P c) (str : List Byte) : P (c.kprint str) ∧ ∀ p ∈ c.kprintPuts str, P p.1 := by
  induction str generalizing c with
  | nil => exact ⟨h, fun p hp => absurd hp List.not_mem_nil⟩
  | cons b str ih =>
    rw [kprint, kprintPuts]
    split_ifs
    · exact ⟨h, fun p hp => absurd hp List.not_mem_nil⟩
    · obtain ⟨hend, hputs⟩ := ih (hput c b h)
      refine ⟨hend, fun p hp => ?_⟩
      rcases List.mem_cons.mp hp with rfl | hp
      · exact h
      · exact hputs p hp

theorem run_invariant {P : Console → Prop} (hput : ∀ c b, P c → P (c.putChar b))
    (hclear : ∀ c, P c → P c.kclear) (hcolor : ∀ c color, P c → P (c.ksetColor color)) {c : Console}
    (h : P c) (calls : List ConsoleCall) : P (c.run calls) ∧ ∀ p ∈ c.runPuts calls, P p.1 := by
  induction calls generalizing c with
  | nil => exact ⟨h, fun p hp => absurd hp List.not_mem_nil⟩
  | cons call calls ih =>
    have hcall : P (c.exec call) ∧ ∀ p ∈ c.puts call, P p.1 := by
      cases call with
      | putChar b => exact ⟨hput c b h, fun p hp => by rwa [List.mem_singleton.mp hp]⟩
      | kprint str => exact kprint_invariant hput h str
      | kclear => exact ⟨hclear c h, fun p hp => absurd hp List.not_mem_nil⟩
      | ksetColor color => exact ⟨hcolor c color h, fun p hp => absurd hp List.not_mem_nil⟩
    obtain ⟨hend, hputs⟩ := ih hcall.1
    refine ⟨hend, fun p hp => ?_⟩
    rcases List.mem_append.mp hp with hp | hp
    · exact hcall.2 p hp
    · exact hputs p hp

/-! ### The bounds of the screen -/

structure OnScreen (c : Console) : Prop where
  nonneg : 0 ≤ c.vga_cursor
  le : c.vga_cursor ≤ 2000
  used : ∀ i ∈ c.used, 0 ≤ i ∧ i < 2000

variable {c : Console}

theorem copyLines_used (n : ℕ) {i : ℤ} (h0 : 0 ≤ i) (hn : i + n ≤ 1920)
    (h : ∀ x ∈ c.used, 0 ≤ x ∧ x < 2000) : ∀ x ∈ (c.copyLines n i).used, 0 ≤ x ∧ x < 2000 := by
  induction n generalizing c i with
  | zero => exact h
  | succ n ih =>
    apply ih (by omega) (by omega)
    intro x hx
    change x ∈ c.used ++ [i + 80, i] at hx
    rcases List.mem_append.mp hx with hx | hx
    · exact h x hx
    · simp only [List.mem_cons, List.not_mem_nil, or_false] at hx
      omega

theorem setCell_used {i : ℤ} (v : Cell) (h0 : 0 ≤ i) (hi : i < 2000)
    (h : ∀ x ∈ c.used, 0 ≤ x ∧ x < 2000) : ∀ x ∈ (c.setCell i v).used, 0 ≤ x ∧ x < 2000 := by
  intro x hx
  rcases List.mem_append.mp hx with hx | hx
  · exact h x hx
  · rw [List.mem_singleton.mp hx]
    exact ⟨h0, hi⟩

theorem fillBlank_used (n : ℕ) {i : ℤ} (h0 : 0 ≤ i) (hn : i + n ≤ 2000)
    (h : ∀ x ∈ c.used, 0 ≤ x ∧ x < 2000) : ∀ x ∈ (c.fillBlank n i).used, 0 ≤ x ∧ x < 2000 := by
  induction n generalizing c i with
  | zero => exact h
  | succ n ih => exact ih (by omega) (by omega) (setCell_used _ h0 (by omega) h)

theorem scroll_used (c : Console) :
    c.scroll.used = ((c.copyLines (80 * 24) 0).fillBlank 80 (80 * 24)).used := by
  simp only [scroll]

theorem kclear_used (c : Console) : c.kclear.used = (c.fillBlank (80 * 25) 0).used := by
  simp only [kclear]

theorem OnScreen.scroll (h : c.OnScreen) : c.scroll.OnScreen := by
  have hcursor := c.scroll_cursor
  have hcopied := copyLines_used (80 * 24) (i := 0) (by decide) (by decide) h.used
  refine ⟨by omega, by omega, ?_⟩
  rw [scroll_used]
  exact fillBlank_used 80 (by decide) (by decide) hcopied

/-- The pending 2000 is gone before anything is stored. -/
theorem OnScreen.ready (h : c.OnScreen) : c.ready.OnScreen ∧ c.ready.vga_cursor < 2000 := by
  have hcursor := c.scroll_cursor
  unfold Console.ready
  split_ifs with hfull
  · exact ⟨h.scroll, by omega⟩
  · exact ⟨h, by omega⟩

theorem OnScreen.emit (h : c.OnScreen) (hlt : c.vga_cursor < 2000) (b : Byte) : (c.emit b).OnScreen := by
  have h0 := h.nonneg
  unfold Console.emit
  split_ifs with hnl hbs hpos
  · rw [Int.tdiv_eq_ediv_of_nonneg h0]
    have hlines : 0 ≤ c.vga_cursor / 80 ∧ c.vga_cursor / 80 ≤ 24 := by omega
    exact ⟨show 0 ≤ (c.vga_cursor / 80 + 1) * 80 by omega, show (c.vga_cursor / 80 + 1) * 80 ≤ 2000 by omega,
      h.used⟩
  · exact ⟨show 0 ≤ c.vga_cursor - 1 by omega, show c.vga_cursor - 1 ≤ 2000 by omega,
      setCell_used (charCell c.char_color 0x20) (by omega) (by omega) h.used⟩
  · exact h
  · exact ⟨show 0 ≤ c.vga_cursor + 1 by omega, show c.vga_cursor + 1 ≤ 2000 by omega,
      setCell_used (charCell c.char_color b) h0 hlt h.used⟩

theorem OnScreen.putChar (h : c.OnScreen) (b : Byte) : (c.putChar b).OnScreen :=
  h.ready.1.emit h.ready.2 b

theorem OnScreen.kclear (h : c.OnScreen) : c.kclear.OnScreen := by
  have hcursor : c.kclear.vga_cursor = 0 := rfl
  refine ⟨by omega, by omega, ?_⟩
  rw [kclear_used]
  exact fillBlank_used (80 * 25) (by decide) (by decide) h.used

/-- The console never writes outside the screen: from the cursor 0, whatever is printed. -/
theorem console_on_screen (buffer : ℤ → Cell) (color : Byte) (calls : List ConsoleCall) :
    let c := (Console.mk buffer 0 color []).run calls
    (0 ≤ c.vga_cursor ∧ c.vga_cursor ≤ 2000) ∧ (∀ i ∈ c.used, 0 ≤ i ∧ i < 2000) ∧
      ∀ p ∈ (Console.mk buffer 0 color []).runPuts calls,
        0 ≤ p.1.ready.vga_cursor ∧ p.1.ready.vga_cursor < 2000 := by
  have hboot : (Console.mk buffer 0 color []).OnScreen :=
    ⟨show (0 : ℤ) ≤ 0 by decide, show (0 : ℤ) ≤ 2000 by decide, fun i hi => absurd hi List.not_mem_nil⟩
  obtain ⟨hend, hputs⟩ := run_invariant (fun _ b h => h.putChar b) (fun _ h => h.kclear)
    (fun _ _ h => ⟨h.nonneg, h.le, h.used⟩) hboot calls
  exact ⟨⟨hend.nonneg, hend.le⟩, hend.used,
    fun p hp => ⟨(hputs p hp).ready.1.nonneg, (hputs p hp).ready.2⟩⟩

/-! ### The tape behind the screen -/

/-- How many of the characters arrived with the cursor past the last cell. -/
def scrolls (ps : List (Console × Byte)) : ℕ := ps.countP fun p => 80 * 25 ≤ p.1.vga_cursor

theorem scrolls_append (ps qs : List (Console × Byte)) : scrolls (ps ++ qs) = scrolls ps + scrolls qs :=
  List.countP_append ..

/-- A string on the tape: a character writes and advances, a newline goes to the next line
and a backspace steps back and blanks. -/
def tapeText (color : Byte) (t : Tape Cell) (str : List Byte) : Tape Cell :=
  str.foldl (tapeChar (cellOf color)) t

theorem emit_color (c : Console) (b : Byte) : (c.emit b).char_color = c.char_color := by
  unfold emit
  split_ifs <;> rfl

theorem putChar_color (c : Console) (b : Byte) : (c.putChar b).char_color = c.char_color := by
  rw [putChar, emit_color, ready_color]

theorem kclear_color (c : Console) : c.kclear.char_color = c.char_color := by
  simp only [kclear, fillBlank_color]

variable {color : Byte} {s : ℕ} {t : Tape Cell}

theorem tapeChar_charCell (t : Tape Cell) {b : Byte} (hb : b < 0x80) :
    tapeChar (charCell color) t b = tapeChar (cellOf color) t b := by
  rw [tapeChar, tapeChar, charCell_space, (charCell_eq_iff color b).mpr (Or.inl hb)]

/-- The line that the window starts at moves by one when the cursor was past the last cell. -/
theorem putChar_shows_cell (h : Shows id (cellOf color 0x20) s t c) (hcolor : c.char_color = color) {b : Byte}
    (hb : b < 0x80) (hback : b = 8 → c.vga_cursor ≠ 0) :
    Shows id (cellOf color 0x20) (s + scrolls [(c, b)]) (tapeChar (cellOf color) t b) (c.putChar b) := by
  rw [← charCell_space] at h ⊢
  have henc : ∀ b, id (charCell c.char_color b) = charCell color b := fun b => by rw [hcolor, id]
  obtain ⟨s', hs, hshows⟩ := putChar_shows h henc hback
  have hcount : s' = s + scrolls [(c, b)] := by
    rw [scrolls, List.countP_singleton]
    rcases hs with ⟨rfl, hlt⟩ | ⟨rfl, hfull⟩
    · rw [if_neg (by simpa using hlt), Nat.add_zero]
    · rw [if_pos (by simpa using hfull.ge)]
  rwa [← hcount, ← tapeChar_charCell t hb]

theorem kprint_shows {str : List Byte} (h : Shows id (cellOf color 0x20) s t c) (hcolor : c.char_color = color)
    (hstr : ∀ b ∈ str, b ≠ 0 ∧ b < 0x80) (hback : ∀ p ∈ c.kprintPuts str, p.2 = 8 → p.1.vga_cursor ≠ 0) :
    Shows id (cellOf color 0x20) (s + scrolls (c.kprintPuts str)) (tapeText color t str) (c.kprint str) ∧
      (c.kprint str).char_color = color := by
  induction str generalizing c s t with
  | nil => exact ⟨h, hcolor⟩
  | cons b str ih =>
    have hb := hstr b List.mem_cons_self
    rw [kprintPuts, if_neg hb.1] at hback ⊢
    have hput := putChar_shows_cell h hcolor hb.2 (hback (c, b) List.mem_cons_self)
    have hrest := ih hput ((c.putChar_color b).trans hcolor)
      (fun x hx => hstr x (List.mem_cons_of_mem b hx)) fun p hp => hback p (List.mem_cons_of_mem _ hp)
    rw [← List.singleton_append, scrolls_append, ← Nat.add_assoc, kprint, if_neg hb.1]
    exact hrest

theorem run_shows (strs : List (List Byte)) (h : Shows id (cellOf color 0x20) s t c)
    (hcolor : c.char_color = color) (hstrs : ∀ str ∈ strs, ∀ b ∈ str, b ≠ 0 ∧ b < 0x80)
    (hback : ∀ p ∈ c.runPuts (strs.map .kprint), p.2 = 8 → p.1.vga_cursor ≠ 0) :
    Shows id (cellOf color 0x20) (s + scrolls (c.runPuts (strs.map .kprint))) (strs.foldl (tapeText color) t)
      (c.run (strs.map .kprint)) := by
  induction strs generalizing c s t with
  | nil => exact h
  | cons str strs ih =>
    rw [List.map_cons, runPuts] at hback ⊢
    have hfirst := kprint_shows h hcolor (hstrs str List.mem_cons_self)
      fun p hp => hback p (List.mem_append_left _ hp)
    have hrest := ih hfirst.1 hfirst.2 (fun x hx => hstrs x (List.mem_cons_of_mem str hx))
      fun p hp => hback p (List.mem_append_right _ hp)
    rw [scrolls_append, ← Nat.add_assoc]
    exact hrest

theorem kclear_shows (hcolor : c.char_color = color) :
    Shows id (cellOf color 0x20) 0 ⟨fun _ => cellOf color 0x20, 0⟩ c.kclear where
  nonneg := Int.le_refl 0
  le := show (0 : ℤ) ≤ 2000 by decide
  pos_eq := rfl
  cells_eq j h0 hj := by
    rw [kclear_buffer, if_pos ⟨h0, hj⟩, hcolor, charCell_space]
    rfl
  ahead _ _ := rfl

/-- The screen is a window on an endless tape: from a clear in any colour, whatever is
printed of 7-bit characters without a backspace in the top-left cell. -/
theorem console_refines_tape (c₀ : Console) (color : Byte) (strs : List (List Byte))
    (hstrs : ∀ str ∈ strs, ∀ b ∈ str, b ≠ 0 ∧ b < 0x80)
    (hback : ∀ p ∈ (c₀.ksetColor color).kclear.runPuts (strs.map .kprint), p.2 = 8 → p.1.vga_cursor ≠ 0) :
    let start := (c₀.ksetColor color).kclear
    let c := start.run (strs.map .kprint)
    let t := strs.foldl (tapeText color) ⟨fun _ => cellOf color 0x20, 0⟩
    let s := scrolls (start.runPuts (strs.map .kprint))
    (∀ j, 0 ≤ j → j < 2000 → c.vga_buffer j = t.cells (j + 80 * s)) ∧ c.vga_cursor + 80 * s = t.pos ∧
      ∀ j, c.vga_cursor ≤ j → j < 2000 → c.vga_buffer j = cellOf color 0x20 := by
  intro start c t s
  have hcolor : start.char_color = color := kclear_color (c₀.ksetColor color)
  have hshows := run_shows strs (kclear_shows rfl : Shows id (cellOf color 0x20) 0 _ start) hcolor hstrs hback
  rw [Nat.zero_add] at hshows
  exact ⟨hshows.cells_eq, hshows.pos_eq.symm, fun j hj hn => hshows.screen_ahead hj hn⟩

/-- 25 newlines put the cursor past the last cell; the next character scrolls. -/
theorem console_refines_tape_scrolled :
    let start := ((Console.mk (fun _ => 0) 7 0x4F []).ksetColor 0x07).kclear
    let calls := [List.replicate 25 10, [0x61, 8]].map ConsoleCall.kprint
    let c := start.run calls
    scrolls (start.runPuts calls) = 1 ∧
      ∀ j, c.vga_cursor ≤ j → j < 2000 → c.vga_buffer j = cellOf 0x07 0x20 := by
  have hmain := console_refines_tape (Console.mk (fun _ => 0) 7 0x4F []) 0x07
    [List.replicate 25 10, [0x61, 8]] (by decide +kernel) (by decide +kernel)
  exact ⟨by decide +kernel, hmain.2.2⟩

/-! ### The colour of what is written -/

/-- What `put_char` stores for the character, and what it blanks, is in the current colour. -/
structure Coloured (c : Console) (b : Byte) : Prop where
  written : b ≠ 10 → b ≠ 8 → (c.putChar b).vga_buffer c.ready.vga_cursor = cellOf c.char_color b
  rubbed : b = 8 → 0 < c.ready.vga_cursor →
    (c.putChar b).vga_buffer (c.ready.vga_cursor - 1) = cellOf c.char_color 0x20
  scrolled : 80 * 25 ≤ c.vga_cursor → ∀ j, 80 * 24 ≤ j → j < 80 * 25 →
    c.ready.vga_buffer j = cellOf c.char_color 0x20

theorem coloured_iff (c : Console) (b : Byte) : c.Coloured b ↔ b < 0x80 ∨ c.char_color = 0xFF := by
  have hwritten (hnl : b ≠ 10) (hbs : b ≠ 8) :
      (c.putChar b).vga_buffer c.ready.vga_cursor = charCell c.char_color b := by
    rw [putChar, emit, if_neg hnl, if_neg hbs, ready_color]
    exact Function.update_self ..
  rw [← charCell_eq_iff]
  constructor
  · intro h
    by_cases hplain : b < 0x80
    · exact (charCell_eq_iff _ b).mpr (Or.inl hplain)
    · have hnl : b ≠ 10 := fun he => hplain (he ▸ by decide)
      have hbs : b ≠ 8 := fun he => hplain (he ▸ by decide)
      rw [← hwritten hnl hbs]
      exact h.written hnl hbs
  · intro h
    refine ⟨fun hnl hbs => (hwritten hnl hbs).trans h, fun hbs hpos => ?_, fun hfull j hj hn => ?_⟩
    · rw [putChar, emit, if_neg (by rw [hbs]; decide), if_pos hbs, if_pos hpos, ready_color, ← charCell_space]
      exact Function.update_self ..
    · rw [ready, if_pos hfull, scroll_buffer, if_neg (by omega), if_pos (by omega), charCell_space]

def step (c : Console) (call : ConsoleCall) : Console × Unit := (c.exec call, ())

/-- Every cell that the call writes has its byte under the current colour. -/
def CallColoured (c : Console) (call : ConsoleCall) : Prop :=
  (∀ p ∈ c.puts call, p.1.char_color = c.char_color ∧ p.1.Coloured p.2) ∧
    (call = .kclear → ∀ j, 0 ≤ j → j < 2000 → (c.exec call).vga_buffer j = cellOf c.char_color 0x20)

theorem puts_color (c : Console) (call : ConsoleCall) : ∀ p ∈ c.puts call, p.1.char_color = c.char_color := by
  have hput : ∀ d : Console, ∀ b, d.char_color = c.char_color → (d.putChar b).char_color = c.char_color :=
    fun d b hd => (d.putChar_color b).trans hd
  cases call with
  | putChar b => exact fun p hp => by rw [List.mem_singleton.mp hp]
  | kprint str => exact (kprint_invariant hput rfl str).2
  | kclear => exact fun p hp => absurd hp List.not_mem_nil
  | ksetColor color => exact fun p hp => absurd hp List.not_mem_nil

theorem callColoured_iff (c : Console) (call : ConsoleCall) :
    c.CallColoured call ↔ ∀ p ∈ c.puts call, p.2 < 0x80 ∨ c.char_color = 0xFF := by
  constructor
  · intro h p hp
    rw [← c.puts_color call p hp]
    exact (coloured_iff p.1 p.2).mp (h.1 p hp).2
  · intro h
    refine ⟨fun p hp => ⟨c.puts_color call p hp, ?_⟩, fun hclear j h0 hj => ?_⟩
    · rw [coloured_iff, c.puts_color call p hp]
      exact h p hp
    · rw [hclear, exec, kclear_buffer, if_pos ⟨h0, hj⟩, charCell_space]

/-- Colour and glyph are right throughout a run exactly when every byte printed is below
0x80 or printed in the colour 0xFF. -/
theorem run_coloured_iff (c : Console) (calls : List ConsoleCall) :
    Along step CallColoured c calls ↔
      Along step (fun c call => ∀ p ∈ c.puts call, p.2 < 0x80 ∨ c.char_color = 0xFF) c calls :=
  along_congr callColoured_iff c calls

/-- The byte 0x80 printed in the colour that the console starts with. -/
theorem kprint_colour_lost :
    let c : Console := ⟨fun _ => 0, 0, 0x07, []⟩
    ¬Along step CallColoured c [.ksetColor 0x07, .kprint [0x80]] ∧
      (c.kprint [0x80]).vga_buffer 0 = 0xFF80 ∧ cellOf 0x07 0x80 = 0x0780 := by
  refine ⟨fun h => ?_, by decide, by decide⟩
  have hcell := (h.2.1.1 _ List.mem_cons_self).2.written (by decide) (by decide)
  exact absurd hcell (by decide)

end Console

end FrodOS
