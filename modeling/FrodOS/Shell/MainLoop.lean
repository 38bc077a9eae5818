import FrodOS.Lib.Run
import FrodOS.Shell.FileSession
import FrodOS.Shell.Interpreter
import FrodOS.Shell.LineEditor

/-!
# The main loop of the shell (shell.c)

The loop of `main` on the memory of the machine, character by character, against a session
of the language: a line being typed and a list of files. Both answer each character with
what they print. The echo of a character goes through two bytes of the stack that are not
part of the frame.
-/

namespace FrodOS
open Lib

/-- All that is printed over a run. -/
def printed {σ : Type} (step : σ → Byte → σ × List ShellEffect) (s : σ) (keys : List Byte) :
    List ShellEffect :=
  (trace step s keys).flatMap fun x => x.2

theorem printed_append {σ : Type} (step : σ → Byte → σ × List ShellEffect) (s : σ) (keys keys' : List Byte) :
    printed step s (keys ++ keys') = printed step s keys ++ printed step (final step s keys) keys' := by
  induction keys generalizing s with
  | nil => rfl
  | cons c keys ih =>
    unfold printed at ih ⊢
    rw [List.cons_append, trace, trace, List.flatMap_cons, List.flatMap_cons, ih, List.append_assoc]
    rfl

/-! ### Sessions -/

structure Session where
  disk : Disk
  line : List Byte
  /-- Whether the shell runs, and no program in its place. -/
  stays : Bool

namespace Session

def enter (s : Session) : Session × List ShellEffect :=
  if s.line = [] then (s, [.print [10], .print prompt])
  else
    let r := (Command.parse s.line).run s.disk
    (⟨r.disk, [], r.stays⟩, .print [10] :: r.effects ++ if r.stays then [.print [10], .print prompt] else [])

def echo (line : List Byte) (c : Byte) : List ShellEffect :=
  if c = 8 then if line = [] then [] else [.print [8, 32, 8]]
  else if line.length < 255 then [.print [c]] else []

def key (s : Session) (c : Byte) : Session × List ShellEffect :=
  if s.stays = false ∨ c = 0 then (s, [])
  else if c = 10 ∨ c = 13 then s.enter
  else ({ s with line := editLine s.line c }, echo s.line c)

end Session

/-! ### The loop -/

/-- `main` at `sys_read_char`: the kernel under it, how many characters `buf` holds, and where
control is if a program has taken over. -/
structure ShellMain where
  kernel : Kernel
  len : ℕ
  gone : Option Control

namespace ShellFrame

variable (frame : ShellFrame) (exec : ExecFrame)

/-- `run_command(buf)` with what kernel and shell print. -/
def runLine (k : Kernel) : ShellMain × List ShellEffect :=
  let r := frame.runCommand exec k
  let printed := r.kernel.console.map say ++ r.effects
  let k' := { r.kernel with console := [] }
  match r.gone with
  | none => (⟨k', 0, none⟩, printed ++ [.print [10], .print prompt])
  | some control => (⟨k', 0, some control⟩, printed)

def enterKey (s : ShellMain) : ShellMain × List ShellEffect :=
  let k := { s.kernel with mem := Function.update s.kernel.mem (off frame.buf s.len) 0 }
  if 0 < s.len then
    let r := frame.runLine exec k
    (r.1, .print [10] :: r.2)
  else (⟨k, 0, none⟩, [.print [10], .print prompt])

/-- One pass of the loop for the character `c`. -/
def mainKey (s : ShellMain) (c : Byte) : ShellMain × List ShellEffect :=
  match s.gone with
  | some _ => (s, [])
  | none =>
    if c = 0 then (s, [])
    else if c = 10 ∨ c = 13 then frame.enterKey exec s
    else if c = 8 then
      if 0 < s.len then ({ s with len := s.len - 1 }, [.print [8, 32, 8]]) else (s, [])
    else if s.len < 256 - 1 then
      let k := { s.kernel with mem := Function.update s.kernel.mem (off frame.buf s.len) c }
      ({ s with kernel := k, len := s.len + 1 }, [.print [c]])
    else (s, [])

end ShellFrame

/-! ### The loop follows the session -/

/-- `text` has been typed, and the buffer holds it. -/
structure Typed (m : Ram) (buf : U32) (text : List Byte) : Prop where
  short : text.length ≤ 255
  plain : ∀ b ∈ text, b ≠ 0 ∧ b ≠ 13 ∧ b ≠ 10
  bytes : ∀ i (h : i < text.length), m (off buf i) = text[i]

namespace Typed

variable {m : Ram} {buf : U32} {text : List Byte}

theorem nil (m : Ram) (buf : U32) : Typed m buf [] :=
  ⟨by decide, nofun, fun i hi => absurd hi (Nat.not_lt_zero i)⟩

theorem update_ne {i : ℕ} (hi : i < text.length) (hlen : text.length ≤ 255) : off buf i ≠ off buf text.length := by
  intro he
  have heq := off_inj buf _ _ (by omega) (by omega) he
  omega

theorem append (h : Typed m buf text) (hlen : text.length < 255) {c : Byte} (hc : c ≠ 0 ∧ c ≠ 13 ∧ c ≠ 10) :
    Typed (Function.update m (off buf text.length) c) buf (text ++ [c]) where
  short := by
    rw [List.length_append]
    exact hlen
  plain b hb := by
    rcases List.mem_append.mp hb with hb | hb
    · exact h.plain b hb
    · rw [List.mem_singleton.mp hb]
      exact hc
  bytes i hi := by
    rw [List.length_append, List.length_singleton] at hi
    rcases Nat.lt_or_eq_of_le (Nat.le_of_lt_succ hi) with hlt | heq
    · rw [Function.update_of_ne (update_ne hlt hlen.le), List.getElem_append_left hlt]
      exact h.bytes i hlt
    · subst heq
      rw [Function.update_self, List.getElem_append_right (Nat.le_refl _)]
      simp

theorem dropLast (h : Typed m buf text) : Typed m buf text.dropLast where
  short := by
    have := h.short
    rw [List.length_dropLast]
    omega
  plain b hb := h.plain b (List.mem_of_mem_dropLast hb)
  bytes i hi := by
    rw [List.getElem_dropLast]
    rw [List.length_dropLast] at hi
    exact h.bytes i (by omega)

/-- Enter makes the buffer the string of the line. -/
theorem enter (h : Typed m buf text) : IsCStr (view (Function.update m (off buf text.length) 0) buf) text where
  nonzero b hb := (h.plain b hb).1
  bytes i hi := by
    rw [view, Function.update_of_ne (update_ne hi h.short)]
    exact h.bytes i hi
  nul := by rw [view, Function.update_self]

theorem lineOf (h : Typed m buf text) : FrodOS.lineOf text = text := by
  apply List.takeWhile_eq_self_iff.mpr
  intro b hb
  obtain ⟨h0, hcr, hlf⟩ := h.plain b hb
  rw [Bool.and_eq_true, Bool.and_eq_true]
  exact ⟨⟨bne_iff_ne.mpr h0, bne_iff_ne.mpr hcr⟩, bne_iff_ne.mpr hlf⟩

end Typed

namespace ShellFrame

variable {frame : ShellFrame} (exec : ExecFrame)

/-- The loop and the session agree. -/
structure Follows (frame : ShellFrame) (s : ShellMain) (a : Session) : Prop where
  mirrors : Mirrors s.kernel.storage a.disk
  stays : s.gone = none ↔ a.stays = true
  console : s.kernel.console = []
  len : s.len = a.line.length
  typed : Typed s.kernel.mem frame.buf a.line

/-- What the loop prints begins with the answer of the session, and is all of it if no program
takes over. -/
def Prints (a : Session) (printed answer : List ShellEffect) : Prop :=
  answer <+: printed ∧ (a.stays = true → printed = answer)

variable {s : ShellMain} {a : Session} {d : Disk} {k : Kernel} {line : List Byte}

/-- A program that takes over answers for itself. -/
theorem run_quiet (c : Command) (d : Disk) (h : (c.run d).stays = false) : (c.run d).effects = [] := by
  cases c with
  | launch name =>
    simp only [Command.run] at h ⊢
    split at h
    · cases h
    · rfl
  | cat name =>
    simp only [Command.run] at h
    split at h <;> cases h
  | help => cases h
  | clear => cases h
  | beep => cases h
  | ls => cases h
  | touch name => cases h
  | write name text => cases h
  | usage text => cases h

theorem runLine_follows (h : Mirrors k.storage d) (hconsole : k.console = [])
    (hline : IsCStr (view k.mem frame.buf) line) (hlen : line.length ≤ 255) (hplain : lineOf line = line) :
    let r := (Command.parse line).run d
    let answer := r.effects ++ if r.stays then [.print [10], .print prompt] else []
    Follows frame (frame.runLine exec k).1 ⟨r.disk, [], r.stays⟩ ∧
      Prints ⟨r.disk, [], r.stays⟩ (frame.runLine exec k).2 answer := by
  have hrun := runCommand_interprets exec h hline hlen
  have hquiet := run_quiet (Command.parse line) d
  rw [hplain, hconsole] at hrun
  generalize (Command.parse line).run d = a at hrun hquiet ⊢
  unfold runLine
  generalize frame.runCommand exec k = r at hrun ⊢
  obtain ⟨hmirrors, hstays, hshown⟩ := hrun
  dsimp only
  cases hg : r.gone with
  | none =>
    have ha := hstays.mp hg
    obtain ⟨report, hreport, heffects⟩ := hshown ha
    rw [List.nil_append] at hreport
    rw [hreport, heffects, if_pos ha]
    exact ⟨⟨hmirrors, iff_of_true rfl ha, rfl, rfl, .nil _ _⟩, List.prefix_refl _, fun _ => rfl⟩
  | some control =>
    have ha : ¬ a.stays = true := fun ha => by
      rw [hstays.mpr ha] at hg
      cases hg
    rw [hquiet (Bool.not_eq_true _ ▸ ha), if_neg ha]
    exact ⟨⟨hmirrors, iff_of_false (fun hc => by cases hc) ha, rfl, rfl, .nil _ _⟩, List.nil_prefix,
      fun hc => absurd hc ha⟩

theorem enterKey_follows (h : Follows frame s a) (hg : s.gone = none) :
    Follows frame (frame.enterKey exec s).1 a.enter.1 ∧
      Prints a.enter.1 (frame.enterKey exec s).2 a.enter.2 := by
  have hlen := h.len
  unfold enterKey Session.enter
  dsimp only
  by_cases hempty : a.line = []
  · rw [hempty] at hlen
    rw [if_neg (by rw [hlen]; decide), if_pos hempty]
    refine ⟨⟨h.mirrors, iff_of_true rfl (h.stays.mp hg), h.console, ?_, ?_⟩, List.prefix_refl _, fun _ => rfl⟩
    · rw [hempty]
      rfl
    · rw [hempty]
      exact .nil _ _
  · have hpos := List.length_pos_iff.mpr hempty
    have hline := h.typed.enter
    rw [← hlen] at hline
    have hrun := runLine_follows exec
      (k := { s.kernel with mem := Function.update s.kernel.mem (off frame.buf s.len) 0 })
      h.mirrors h.console hline h.typed.short h.typed.lineOf
    rw [if_pos (by omega), if_neg hempty]
    obtain ⟨hfollows, hbegins, hall⟩ := hrun
    exact ⟨hfollows, (List.prefix_cons_inj _).mpr hbegins, fun hs => congrArg (List.cons _) (hall hs)⟩

theorem edit_follows (h : Follows frame s a) (hg : s.gone = none) {c : Byte} (h0 : c ≠ 0)
    (henter : ¬(c = 10 ∨ c = 13)) :
    Follows frame (frame.mainKey exec s c).1 { a with line := editLine a.line c } ∧
      (frame.mainKey exec s c).2 = Session.echo a.line c := by
  have hlen := h.len
  unfold mainKey
  rw [hg]
  dsimp only
  rw [if_neg h0, if_neg henter, editLine, if_neg h0, Session.echo]
  by_cases hback : c = 8
  · rw [if_pos hback, if_pos hback, if_pos hback]
    by_cases hempty : a.line = []
    · rw [if_neg (by rw [hlen, hempty]; decide), if_pos hempty, hempty]
      exact ⟨⟨h.mirrors, h.stays, h.console, by rw [hlen, hempty]; rfl, .nil _ _⟩, rfl⟩
    · have hpos := List.length_pos_iff.mpr hempty
      rw [if_pos (by omega), if_neg hempty]
      refine ⟨⟨h.mirrors, iff_of_true rfl (h.stays.mp hg), h.console, ?_, h.typed.dropLast⟩, rfl⟩
      rw [List.length_dropLast, ← hlen]
  · rw [if_neg hback, if_neg hback, if_neg hback]
    by_cases hroom : a.line.length < 255
    · rw [if_pos (by omega), if_pos hroom, if_pos hroom]
      refine ⟨⟨h.mirrors, iff_of_true rfl (h.stays.mp hg), h.console, ?_, ?_⟩, rfl⟩
      · rw [List.length_append, List.length_singleton, ← hlen]
      · dsimp only
        rw [hlen]
        exact h.typed.append hroom ⟨h0, fun hc => henter (Or.inr hc), fun hc => henter (Or.inl hc)⟩
    · rw [if_neg (by omega), if_neg hroom, if_neg hroom]
      exact ⟨h, rfl⟩

theorem mainKey_follows (h : Follows frame s a) (c : Byte) :
    Follows frame (frame.mainKey exec s c).1 (a.key c).1 ∧
      Prints (a.key c).1 (frame.mainKey exec s c).2 (a.key c).2 := by
  cases hg : s.gone with
  | some control =>
    have hleft : a.stays = false := by
      by_contra hc
      rw [h.stays.mpr (Bool.not_eq_false _ ▸ hc)] at hg
      cases hg
    unfold mainKey Session.key
    rw [hg, if_pos (Or.inl hleft)]
    exact ⟨h, List.prefix_refl _, fun _ => rfl⟩
  | none =>
    have hhere : ¬ a.stays = false := by
      rw [h.stays.mp hg]
      decide
    unfold Session.key
    by_cases h0 : c = 0
    · unfold mainKey
      rw [hg, if_pos (Or.inr h0)]
      dsimp only
      rw [if_pos h0]
      exact ⟨h, List.prefix_refl _, fun _ => rfl⟩
    rw [if_neg (not_or.mpr ⟨hhere, h0⟩)]
    by_cases henter : c = 10 ∨ c = 13
    · unfold mainKey
      rw [hg]
      dsimp only
      rw [if_neg h0, if_pos henter, if_pos henter]
      exact enterKey_follows exec h hg
    · obtain ⟨hfollows, hprinted⟩ := edit_follows exec h hg h0 henter
      rw [if_neg henter, hprinted]
      exact ⟨hfollows, List.prefix_refl _, fun _ => rfl⟩

/-! ### Runs -/

theorem run_gone (a : Session) (h : a.stays = false) (keys : List Byte) :
    final Session.key a keys = a ∧ printed Session.key a keys = [] := by
  have hkey : ∀ c, a.key c = (a, []) := fun c => if_pos (Or.inl h)
  induction keys with
  | nil => exact ⟨rfl, rfl⟩
  | cons c keys ih =>
    unfold printed at ih ⊢
    rw [final, trace, List.flatMap_cons, hkey]
    exact ih

theorem run_follows (h : Follows frame s a) (keys : List Byte) :
    Follows frame (final (frame.mainKey exec) s keys) (final Session.key a keys) ∧
      Prints (final Session.key a keys) (printed (frame.mainKey exec) s keys) (printed Session.key a keys) := by
  induction keys generalizing s a with
  | nil => exact ⟨h, List.prefix_refl _, fun _ => rfl⟩
  | cons c keys ih =>
    obtain ⟨hfollows, hbegins, hall⟩ := mainKey_follows exec h c
    obtain ⟨hfinal, hbegins', hall'⟩ := ih hfollows
    refine ⟨hfinal, ?_⟩
    unfold printed at hbegins' hall' ⊢
    rw [trace, trace, List.flatMap_cons, List.flatMap_cons]
    by_cases hs : (a.key c).1.stays = true
    · rw [hall hs]
      exact ⟨(List.prefix_append_right_inj _).mpr hbegins', fun hf => congrArg _ (hall' hf)⟩
    · -- the session answers nothing any more
      obtain ⟨hsame, hquiet⟩ := run_gone _ (Bool.not_eq_true _ ▸ hs) keys
      unfold printed at hquiet
      rw [hquiet, List.append_nil]
      refine ⟨hbegins.trans (List.prefix_append _ _), fun hf => ?_⟩
      rw [final, hsame] at hf
      exact absurd hf hs

/-- From its first prompt, whatever keys arrive, the shell is an interpreter of its language:
until the session leaves for a program it keeps the files and the line of the session and
prints its answers and nothing else, and it leaves with the session. -/
theorem shell_interprets (frame : ShellFrame) (exec : ExecFrame) (k : Kernel) (d : Disk)
    (h : Mirrors k.storage d) (hconsole : k.console = []) (keys : List Byte) :
    let s := final (frame.mainKey exec) ⟨k, 0, none⟩ keys
    let a := final Session.key ⟨d, [], true⟩ keys
    let text := printed (frame.mainKey exec) ⟨k, 0, none⟩ keys
    let answers := printed Session.key ⟨d, [], true⟩ keys
    (a.stays = true → s.gone = none ∧ Mirrors s.kernel.storage a.disk ∧ s.len = a.line.length ∧
      Typed s.kernel.mem frame.buf a.line ∧ text = answers) ∧
    (a.stays = false → s.gone ≠ none ∧ answers <+: text) := by
  intro s a text answers
  have hstart : Follows frame ⟨k, 0, none⟩ ⟨d, [], true⟩ :=
    ⟨h, iff_of_true rfl rfl, hconsole, rfl, .nil _ _⟩
  obtain ⟨hfollows, hbegins, hall⟩ := run_follows exec hstart keys
  refine ⟨fun hs => ⟨hfollows.stays.mpr hs, hfollows.mirrors, hfollows.len, hfollows.typed, hall hs⟩, fun hs => ?_⟩
  refine ⟨fun hg => ?_, hbegins⟩
  have hstays : a.stays = true := hfollows.stays.mp hg
  rw [hs] at hstays
  cases hstays

theorem mirrors_boot : Mirrors bootStorage .empty := fun _ => rfl

theorem shell_interprets_ls :
    printed (demoShell.mainKey demoFrame) ⟨typedLine bootStorage [], 0, none⟩ [0x6C, 0, 0x73, 10] =
      [.print [0x6C], .print [0x73], .print [10], say "[Empty Storage Disk]\n", .print [10], .print prompt] := by
  obtain ⟨hshell, -⟩ := shell_interprets demoShell demoFrame (typedLine bootStorage []) .empty mirrors_boot rfl
    [0x6C, 0, 0x73, 10]
  obtain ⟨-, -, -, -, htext⟩ := hshell (by decide +kernel)
  exact htext.trans (by decide +kernel)

end ShellFrame

end FrodOS
