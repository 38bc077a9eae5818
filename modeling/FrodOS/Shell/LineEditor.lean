import FrodOS.Lib.CString
import FrodOS.Drivers.Video

/-!
# The line editor of the shell (shell.c)

The main loop reads a character at a time into `buf` and echoes it. What a command does
to the buffer it gets and to the screen is a parameter.
-/

namespace FrodOS
open Lib

structure Shell where
  buf : ℤ → Byte
  len : ℤ
  console : Console

def prompt : List Byte := ascii "FrodOS $ "

def editLine (text : List Byte) (c : Byte) : List Byte :=
  if c = 0 then text
  else if c = 8 then text.dropLast
  else if text.length < 255 then text ++ [c] else text

namespace Shell

/-- One pass of the loop of `main` for the character `c`, and the string that
`run_command` is called with, if it is. -/
def key (run_command : (ℤ → Byte) → Console → (ℤ → Byte) × Console) (sh : Shell) (c : Byte) :
    Shell × Option (ℤ → Byte) :=
  if c = 0 then (sh, none)
  else if c = 10 ∨ c = 13 then
    let buf := Function.update sh.buf sh.len 0
    let console := sh.console.kprint [10]
    if 0 < sh.len then
      let r := run_command buf console
      (⟨r.1, 0, (r.2.kprint [10]).kprint prompt⟩, some buf)
    else (⟨buf, 0, console.kprint prompt⟩, none)
  else if c = 8 then
    if 0 < sh.len then (⟨sh.buf, sh.len - 1, sh.console.kprint [8, 32, 8]⟩, none) else (sh, none)
  else if sh.len < 256 - 1 then
    (⟨Function.update sh.buf sh.len c, sh.len + 1, sh.console.kprint [c]⟩, none)
  else (sh, none)

def type (run_command : (ℤ → Byte) → Console → (ℤ → Byte) × Console) (sh : Shell) (keys : List Byte) :
    Shell := keys.foldl (fun sh c => (sh.key run_command c).1) sh

end Shell

/-! ### Typing on a tape -/

namespace Console

variable {s : ℕ} {base t : Tape Byte} {c : Console} {text : List Byte} {b : Byte}

/-- The screen shows `base` with the line written on it, and the line's first cell has not
left the screen. -/
def Echoes (c : Console) (base : Tape Byte) (text : List Byte) : Prop :=
  ∃ s t, Shows glyph 0x20 s t c ∧ base.Extends text t ∧ 80 * (s : ℤ) ≤ base.pos

/-- As long as the position is less than 24 lines past `p`, a character that is no newline
keeps `p` on the screen. -/
theorem putChar_keeps (h : Shows glyph 0x20 s t c) {p : ℤ} (hs : 80 * (s : ℤ) ≤ p) (hp : p ≤ t.pos)
    (hnear : t.pos ≤ p + 1920) (hback : b = 8 → p < t.pos) :
    ∃ s' : ℕ, 80 * (s' : ℤ) ≤ p ∧ Shows glyph 0x20 s' (tapeChar id t b) (c.putChar b) := by
  have hpos : t.pos = c.vga_cursor + 80 * s := h.pos_eq
  have henc : ∀ b, glyph (charCell c.char_color b) = id b := glyph_charCell _
  have hback' : b = 8 → c.vga_cursor ≠ 0 := fun hb => by
    have hlt := hback hb
    omega
  obtain ⟨s', hs', hshows⟩ := putChar_shows h henc hback'
  refine ⟨s', ?_, hshows⟩
  rcases hs' with ⟨rfl, -⟩ | ⟨rfl, hfull⟩
  · exact hs
  · omega

theorem Echoes.append (h : c.Echoes base text) (hlen : text.length < 255) (hz : b ≠ 0) (hnl : b ≠ 10)
    (hbs : b ≠ 8) : (c.kprint [b]).Echoes base (text ++ [b]) := by
  obtain ⟨s, t, hshows, hext, hs⟩ := h
  have hpos := hext.pos_eq
  obtain ⟨s', hs', hshows'⟩ := putChar_keeps hshows hs (by omega) (by omega) (fun hb => absurd hb hbs)
  rw [tapeChar, if_neg hnl, if_neg hbs] at hshows'
  rw [kprint, if_neg hz]
  exact ⟨s', t.write b, hshows', hext.write b, hs'⟩

/-- The three characters of a rubout: `put_char` blanks on each backspace. -/
theorem Echoes.rubOut (h : c.Echoes base (text ++ [b])) (hlen : text.length < 255) :
    (c.kprint [8, 32, 8]).Echoes base text := by
  obtain ⟨s, t, hshows, hext, hs⟩ := h
  have hpos := hext.pos_eq
  rw [List.length_append, List.length_singleton] at hpos
  obtain ⟨s₁, hs₁, hshows₁⟩ := putChar_keeps (b := 8) hshows hs (by omega) (by omega) (fun _ => by omega)
  have hpos₁ : (tapeChar id t 8).pos = t.pos - 1 := rfl
  obtain ⟨s₂, hs₂, hshows₂⟩ := putChar_keeps (b := 32) hshows₁ hs₁ (by omega) (by omega)
    (fun hb => by cases hb)
  have hpos₂ : (tapeChar id (tapeChar id t 8) 32).pos = t.pos - 1 + 1 := rfl
  obtain ⟨s₃, hs₃, hshows₃⟩ := putChar_keeps (b := 8) hshows₂ hs₂ (by omega) (by omega) (fun _ => by omega)
  exact ⟨s₃, _, hshows₃, hext.rubOut 32 32, hs₃⟩

/-- From the cell `p` on the screen has the line and then blanks, and the cursor is right
after the line. -/
structure Reads (c : Console) (p : ℤ) (text : List Byte) : Prop where
  nonneg : 0 ≤ p
  cursor : c.vga_cursor = p + text.length
  le : c.vga_cursor ≤ 2000
  chars : ∀ i (h : i < text.length), glyph (c.vga_buffer (p + i)) = text[i]
  blanks : ∀ j, p + text.length ≤ j → j < 2000 → glyph (c.vga_buffer j) = 0x20

theorem Echoes.reads {start : Console} (h : c.Echoes start.picture text) (hstart : start.Tidy) :
    ∃ s : ℕ, c.Reads (start.vga_cursor - 80 * s) text ∧
      ∀ j, 0 ≤ j → j < start.vga_cursor - 80 * s →
        glyph (c.vga_buffer j) = glyph (start.vga_buffer (j + 80 * s)) := by
  obtain ⟨s, t, hshows, hext, hs⟩ := h
  have hbase : start.picture.pos = start.vga_cursor := rfl
  have hpos : t.pos = c.vga_cursor + 80 * s := hshows.pos_eq
  have hend := hext.pos_eq
  have hle : c.vga_cursor ≤ 2000 := hshows.le
  have hstart_le := hstart.le
  have hcell : ∀ j, 0 ≤ j → j < 2000 → glyph (c.vga_buffer j) = t.cells (j + 80 * s) := hshows.cells_eq
  refine ⟨s, ⟨by omega, by omega, hle, fun i hi => ?_, fun j hj hn => ?_⟩, fun j h0 hj => ?_⟩
  · have hadd : start.vga_cursor - 80 * s + i + 80 * s = start.picture.pos + i := by omega
    rw [hcell _ (by omega) (by omega), hadd]
    exact hext.chars i hi
  · exact hshows.screen_ahead (by omega) hn
  · rw [hcell j h0 (by omega), hext.before _ (by omega)]
    exact if_pos (by omega)

end Console

/-! ### The editor -/

namespace Shell

variable {sh : Shell} {base : Tape Byte} {text : List Byte}
variable {run_command : (ℤ → Byte) → Console → (ℤ → Byte) × Console}

structure Edits (sh : Shell) (base : Tape Byte) (text : List Byte) : Prop where
  len_eq : sh.len = text.length
  short : text.length ≤ 255
  nonzero : ∀ c ∈ text, c ≠ 0
  bytes : ∀ i (h : i < text.length), sh.buf i = text[i]
  echoes : sh.console.Echoes base text

theorem Edits.append (h : sh.Edits base text) {c : Byte} (hlen : text.length < 255) (hz : c ≠ 0)
    (hnl : c ≠ 10) (hbs : c ≠ 8) :
    Edits ⟨Function.update sh.buf sh.len c, sh.len + 1, sh.console.kprint [c]⟩ base (text ++ [c]) where
  len_eq := by
    rw [List.length_append, List.length_singleton, h.len_eq]
    rfl
  short := by
    rw [List.length_append]
    exact hlen
  nonzero x hx := by
    rcases List.mem_append.mp hx with hx | hx
    · exact h.nonzero x hx
    · rw [List.mem_singleton.mp hx]
      exact hz
  bytes i hi := by
    rw [List.length_append, List.length_singleton] at hi
    have hlen_eq := h.len_eq
    change Function.update sh.buf sh.len c i = _
    by_cases hlast : i = text.length
    · subst hlast
      rw [← hlen_eq, Function.update_self, List.getElem_append_right (Nat.le_refl _)]
      simp
    · rw [Function.update_of_ne (by omega), List.getElem_append_left (by omega)]
      exact h.bytes i (by omega)
  echoes := h.echoes.append hlen hz hnl hbs

theorem Edits.rubOut {c : Byte} (h : sh.Edits base (text ++ [c])) :
    Edits ⟨sh.buf, sh.len - 1, sh.console.kprint [8, 32, 8]⟩ base text := by
  have hlen_eq := h.len_eq
  have hshort := h.short
  rw [List.length_append, List.length_singleton] at hlen_eq hshort
  refine ⟨show sh.len - 1 = text.length by omega, by omega,
    fun x hx => h.nonzero x (List.mem_append_left _ hx), fun i hi => ?_, h.echoes.rubOut (by omega)⟩
  have hi' : i < (text ++ [c]).length := by
    rw [List.length_append]
    omega
  rw [h.bytes i hi', List.getElem_append_left hi]

theorem key_edits (h : sh.Edits base text) {c : Byte} (hnl : c ≠ 10) (hcr : c ≠ 13) :
    (sh.key run_command c).1.Edits base (editLine text c) := by
  have hlen_eq := h.len_eq
  have hshort := h.short
  have henter : ¬(c = 10 ∨ c = 13) := fun hc => hc.elim hnl hcr
  unfold key editLine
  rw [if_neg henter]
  by_cases hz : c = 0
  · rw [if_pos hz, if_pos hz]
    exact h
  rw [if_neg hz, if_neg hz]
  by_cases hbs : c = 8
  · rw [if_pos hbs, if_pos hbs]
    rcases List.eq_nil_or_concat text with rfl | ⟨front, last, rfl⟩
    · rw [if_neg (by rw [hlen_eq]; decide)]
      exact h
    · rw [List.concat_eq_append] at h hlen_eq ⊢
      rw [if_pos (by rw [hlen_eq, List.length_append, List.length_singleton]; omega), List.dropLast_concat]
      exact h.rubOut
  rw [if_neg hbs, if_neg hbs]
  by_cases hlen : text.length < 255
  · rw [if_pos (by omega), if_pos hlen]
    exact h.append hlen hz hnl hbs
  · rw [if_neg (by omega), if_neg hlen]
    exact h

theorem type_edits (keys : List Byte) (h : sh.Edits base text) (hkeys : ∀ c ∈ keys, c ≠ 10 ∧ c ≠ 13) :
    (sh.type run_command keys).Edits base (keys.foldl editLine text) := by
  induction keys generalizing sh text with
  | nil => exact h
  | cons c keys ih =>
    obtain ⟨hnl, hcr⟩ := hkeys c List.mem_cons_self
    exact ih (key_edits h hnl hcr) fun x hx => hkeys x (List.mem_cons_of_mem c hx)

/-- Enter hands the line over as a string, unless it is empty. -/
theorem enter_command (h : sh.Edits base text) {c : Byte} (hc : c = 10 ∨ c = 13) :
    (text = [] → (sh.key run_command c).2 = none) ∧
      (text ≠ [] → ∃ cmd, (sh.key run_command c).2 = some cmd ∧ IsCStr (fun i => cmd i) text) := by
  have hlen_eq := h.len_eq
  have hz : c ≠ 0 := by
    rcases hc with rfl | rfl <;> decide
  refine ⟨fun hnil => ?_, fun hne => ?_⟩
  · have hlen : ¬0 < sh.len := by
      rw [hlen_eq, hnil]
      decide
    simp only [key, if_neg hz, if_pos hc, if_neg hlen]
  · have hlen : 0 < sh.len := by
      have hpos := List.length_pos_iff.mpr hne
      omega
    refine ⟨Function.update sh.buf sh.len 0, ?_, h.nonzero, fun i hi => ?_, ?_⟩
    · simp only [key, if_neg hz, if_pos hc, if_pos hlen]
    · rw [Function.update_of_ne (by omega)]
      exact h.bytes i hi
    · rw [← hlen_eq, Function.update_self]

/-- Screen, buffer and keys agree: on any console that was cleared once, after the prompt
and any keys without Enter. -/
theorem shell_screen (run_command : (ℤ → Byte) → Console → (ℤ → Byte) × Console) (c₀ : Console)
    (calls : List ConsoleCall) (buf : ℤ → Byte) (keys : List Byte)
    (hkeys : ∀ c ∈ keys, c ≠ 10 ∧ c ≠ 13) :
    let start := (c₀.kclear.run calls).kprint prompt
    let sh := (Shell.mk buf 0 start).type run_command keys
    let text := keys.foldl editLine []
    (sh.len = text.length ∧ 0 ≤ sh.len ∧ sh.len ≤ 255 ∧ ∀ i (h : i < text.length), sh.buf i = text[i]) ∧
      (∃ s : ℕ, sh.console.Reads (start.vga_cursor - 80 * s) text ∧
        ∀ j, 0 ≤ j → j < start.vga_cursor - 80 * s →
          glyph (sh.console.vga_buffer j) = glyph (start.vga_buffer (j + 80 * s))) ∧
      ∀ c, c = 10 ∨ c = 13 → (text = [] → (sh.key run_command c).2 = none) ∧
        (text ≠ [] → ∃ cmd, (sh.key run_command c).2 = some cmd ∧ IsCStr (fun i => cmd i) text) := by
  intro start sh text
  have htidy : start.Tidy := (c₀.kclear_tidy.run calls).kprint prompt
  have hinit : (Shell.mk buf 0 start).Edits start.picture [] :=
    ⟨rfl, by decide, fun c hc => absurd hc List.not_mem_nil, fun i hi => absurd hi (Nat.not_lt_zero i),
      0, start.picture, htidy.shows, Tape.Extends.refl _, htidy.nonneg⟩
  have htext : sh.Edits start.picture text := type_edits keys hinit hkeys
  have hlen := htext.len_eq
  have hshort := htext.short
  exact ⟨⟨hlen, by omega, by omega, htext.bytes⟩, htext.echoes.reads htidy,
    fun c hc => enter_command htext hc⟩

theorem shell_screen_ls :
    let start := (Console.mk (fun _ => 0) 0 0x07 []).kclear.kprint prompt
    let sh := (Shell.mk (fun _ => 0) 0 start).type (fun cmd c => (cmd, c)) [0x6C, 0x78, 8, 0, 0x73]
    sh.len = 2 ∧ (∃ s : ℕ, sh.console.Reads (start.vga_cursor - 80 * s) (ascii "ls")) ∧
      ∃ cmd, (sh.key (fun cmd c => (cmd, c)) 13).2 = some cmd ∧ IsCStr (fun i => cmd i) (ascii "ls") := by
  have htext : ([0x6C, 0x78, 8, 0, 0x73] : List Byte).foldl editLine [] = ascii "ls" := by decide
  have hmain := shell_screen (fun cmd c => (cmd, c)) (Console.mk (fun _ => 0) 0 0x07 []) [] (fun _ => 0)
    [0x6C, 0x78, 8, 0, 0x73] (by decide)
  simp only [htext] at hmain
  obtain ⟨⟨hlen, -⟩, ⟨s, hreads, -⟩, henter⟩ := hmain
  exact ⟨hlen, ⟨s, hreads⟩, (henter 13 (Or.inr rfl)).2 (by decide)⟩

theorem enter_empty_no_command :
    let c₀ : Console := ⟨fun _ => 0, 0, 0x07, []⟩
    let sh := (Shell.mk (fun _ => 0) 0 (c₀.kclear.kprint prompt)).type (fun cmd c => (cmd, c)) []
    ([] : List Byte).foldl editLine [] = [] ∧
      ¬∃ cmd, (sh.key (fun cmd c => (cmd, c)) 10).2 = some cmd ∧ IsCStr (fun i => cmd i) [] := by
  refine ⟨rfl, ?_⟩
  intro h
  obtain ⟨cmd, hcall, -⟩ := h
  cases hcall

end Shell

end FrodOS
