import FrodOS.Shell.MainLoop

/-!
# What the shell remembers

A text that `write` stored under a name is what `cat` prints for it, whatever is typed in
between, as long as no other line writes to that name and no program takes over.
-/

namespace FrodOS
open Lib

/-! ### Parsing a typed line -/

namespace Command

theorem parse_write {n t : List Byte} (hpos : n ≠ []) (hn : ∀ b ∈ n, b ≠ 0 ∧ b ≠ 32) (ht : t.head? ≠ some 32) :
    parse (ascii "write " ++ (n ++ 32 :: t)) = .write n t := by
  have hhead : (n ++ 32 :: t).head? ≠ some 32 := by
    rw [List.head?_append_of_ne_nil _ hpos]
    exact fun he => (hn 32 (List.mem_of_mem_head? he)).2 rfl
  have hrest : operand 6 (ascii "write " ++ (n ++ 32 :: t)) = n ++ 32 :: t :=
    operand_word ShellFrame.length_write.symm hhead
  have htext : operand (n.length + 1) (n ++ 32 :: t) = t :=
    (operand_text n t).trans (dropWhile_of_head ht)
  have hstart : ascii "write " <+: ascii "write " ++ (n ++ 32 :: t) := List.prefix_append _ _
  rw [parse, ShellFrame.select_write hstart, parseWrite]
  rw [hrest, firstWord_append hn, if_neg (ne_word_space n t), htext]

theorem parse_cat {n : List Byte} (hpos : n ≠ []) (hn : n.head? ≠ some 32) : parse (ascii "cat " ++ n) = .cat n := by
  have hrest : operand 4 (ascii "cat " ++ n) = n := operand_word ShellFrame.length_cat.symm hn
  rw [parse, ShellFrame.select_cat (List.prefix_append _ _), parseCat, hrest, if_neg hpos]

/-! ### What a command keeps -/

theorem run_keeps {d : Disk} {n bytes : List Byte} (h : lookup n d.files = some bytes) (c : Command)
    (hc : ∀ t, c ≠ .write n t) : lookup n (c.run d).disk.files = some bytes := by
  cases c with
  | touch name =>
    simp only [run, Disk.create]
    split_ifs
    · exact h
    · exact h
    · change lookup n (d.files ++ [_]) = some bytes
      rw [lookup_concat, h, Option.some_or]
    · exact h
  | write name text =>
    have hne : n ≠ name := fun he => hc text (by rw [he])
    simp only [run, Disk.write]
    split_ifs
    · change lookup n (assign _ _ d.files) = some bytes
      rw [lookup_assign_of_ne hne, h]
    · exact h
    · exact h
  | cat name =>
    simp only [run]
    split <;> exact h
  | launch name =>
    simp only [run]
    split <;> exact h
  | help => exact h
  | clear => exact h
  | beep => exact h
  | ls => exact h
  | usage text => exact h

end Command

/-! ### Typing -/

namespace Session

variable {a : Session} {n : List Byte}

/-- The key ends a line that writes to `n`. -/
def Stores (n : List Byte) (a : Session) (c : Byte) : Prop :=
  (c = 10 ∨ c = 13) ∧ ∃ t, Command.parse a.line = .write n t

theorem key_keeps {bytes : List Byte} (h : lookup n a.disk.files = some bytes) {c : Byte} (hc : ¬ a.Stores n c) :
    lookup n (a.key c).1.disk.files = some bytes := by
  unfold key
  split_ifs with hquiet henter
  · exact h
  · unfold enter
    split_ifs
    · exact h
    · exact Command.run_keeps h _ fun t ht => hc ⟨henter, t, ht⟩
  · exact h

theorem run_keeps {bytes : List Byte} (h : lookup n a.disk.files = some bytes) (ks : List Byte)
    (hquiet : Along key (fun a c => ¬ a.Stores n c) a ks) :
    lookup n (final key a ks).disk.files = some bytes := by
  induction ks generalizing a with
  | nil => exact h
  | cons c ks ih => exact ih (key_keeps h hquiet.1) hquiet.2

/-- A character that goes into the line. -/
def Plain (c : Byte) : Prop := c ≠ 0 ∧ c ≠ 8 ∧ c ≠ 10 ∧ c ≠ 13

theorem type_line {text : List Byte} (hs : a.stays = true) (htext : ∀ c ∈ text, Plain c)
    (hlen : a.line.length + text.length ≤ 255) :
    final key a text = { a with line := a.line ++ text } ∧
      printed key a text = text.map fun c => .print [c] := by
  induction text generalizing a with
  | nil =>
    rw [List.append_nil]
    exact ⟨rfl, rfl⟩
  | cons c text ih =>
    obtain ⟨h0, hback, hlf, hcr⟩ := htext c List.mem_cons_self
    rw [List.length_cons] at hlen
    have hkey : a.key c = ({ a with line := a.line ++ [c] }, [.print [c]]) := by
      have hroom : a.line.length < 255 := by omega
      have hhere : ¬(a.stays = false ∨ c = 0) := not_or.mpr ⟨by rw [hs]; decide, h0⟩
      rw [key, if_neg hhere, if_neg (not_or.mpr ⟨hlf, hcr⟩), editLine, if_neg h0, if_neg hback, if_pos hroom,
        echo, if_neg hback, if_pos hroom]
    obtain ⟨hfinal, hprinted⟩ := ih (a := { a with line := a.line ++ [c] }) hs
      (fun b hb => htext b (List.mem_cons_of_mem c hb))
      (by rw [List.length_append, List.length_singleton]; omega)
    unfold printed at hprinted ⊢
    rw [final, trace, List.flatMap_cons, hkey]
    dsimp only
    rw [hfinal, hprinted, List.append_assoc]
    exact ⟨rfl, rfl⟩

/-- A whole line typed at the prompt. -/
theorem enter_line {line : List Byte} (hs : a.stays = true) (hempty : a.line = []) (hpos : line ≠ [])
    (hline : ∀ c ∈ line, Plain c) (hlen : line.length ≤ 255) :
    let r := (Command.parse line).run a.disk
    final key a (line ++ [10]) = ⟨r.disk, [], r.stays⟩ ∧
      printed key a (line ++ [10]) = (line.map fun c => .print [c]) ++
        (.print [10] :: r.effects ++ if r.stays then [.print [10], .print prompt] else []) := by
  obtain ⟨htyped, hecho⟩ := type_line hs hline (by rw [hempty, List.length_nil, Nat.zero_add]; exact hlen)
  rw [hempty, List.nil_append] at htyped
  have hkey : key { a with line := line } 10 = enter { a with line := line } := by
    have hhere : ¬(a.stays = false ∨ (10 : Byte) = 0) := not_or.mpr ⟨by rw [hs]; decide, by decide⟩
    rw [key, if_neg hhere, if_pos (Or.inl rfl)]
  have hlast : ∀ s : Session, final key s [10] = (s.key 10).1 ∧ printed key s [10] = (s.key 10).2 :=
    fun s => ⟨rfl, List.append_nil _⟩
  rw [final_append, printed_append, htyped, hecho, (hlast _).1, (hlast _).2, hkey, enter, if_neg hpos]
  exact ⟨rfl, rfl⟩

end Session

/-! ### What cat shows -/

namespace Session

variable {d : Disk} {n t : List Byte}

theorem plain_append {u v : List Byte} (hu : ∀ c ∈ u, Plain c) (hv : ∀ c ∈ v, Plain c) : ∀ c ∈ u ++ v, Plain c := by
  intro c hc
  rcases List.mem_append.mp hc with hc | hc
  · exact hu c hc
  · exact hv c hc

theorem shown_plain (ht : ∀ c ∈ t, Plain c) (hlen : t.length ≤ 4095) : Command.shown t = t := by
  rw [Command.shown, List.take_of_length_le hlen]
  exact List.takeWhile_eq_self_iff.mpr fun b hb => bne_iff_ne.mpr (ht b hb).1

/-- The line that writes the text to a file that is there. -/
theorem write_line (hfile : n ∈ d.names) (hn : ∀ b ∈ n, Plain b ∧ b ≠ 32) (hpos : n ≠ [])
    (ht : ∀ b ∈ t, Plain b) (hlead : t.head? ≠ some 32) (hlen : (ascii "write " ++ (n ++ 32 :: t)).length ≤ 255) :
    let a := final key ⟨d, [], true⟩ (ascii "write " ++ (n ++ 32 :: t) ++ [10])
    a.stays = true ∧ lookup n a.disk.files = some t := by
  have hplain : ∀ c ∈ ascii "write " ++ (n ++ 32 :: t), Plain c := by
    apply plain_append
    · rw [ShellFrame.ascii_write]
      unfold Plain
      decide
    · refine plain_append (fun c hc => (hn c hc).1) fun c hc => ?_
      rcases List.mem_cons.mp hc with rfl | hc
      · unfold Plain
        decide
      · exact ht c hc
  have hline : ascii "write " ++ (n ++ 32 :: t) ≠ [] := by
    rw [ShellFrame.ascii_write]
    exact List.cons_ne_nil _ _
  obtain ⟨hfinal, -⟩ := enter_line (a := ⟨d, [], true⟩) rfl rfl hline hplain hlen
  have hsmall : t.length ≤ 4096 := by
    rw [List.length_append, List.length_append, List.length_cons] at hlen
    omega
  dsimp only at hfinal ⊢
  rw [hfinal, Command.parse_write hpos (fun b hb => ⟨(hn b hb).1.1, (hn b hb).2⟩) hlead]
  refine ⟨rfl, ?_⟩
  simp only [Command.run, Disk.write, hsmall, hfile, dif_pos, if_true]
  exact lookup_assign_self hfile

theorem cat_line {a : Session} (hs : a.stays = true) (hempty : a.line = []) (hfile : lookup n a.disk.files = some t)
    (hn : ∀ b ∈ n, Plain b) (hpos : n ≠ []) (hlead : n.head? ≠ some 32) (hlen : n.length ≤ 251)
    (ht : ∀ b ∈ t, Plain b) (hsmall : t.length ≤ 4095) :
    (final key a (ascii "cat " ++ n ++ [10])).stays = true ∧ printed key a (ascii "cat " ++ n ++ [10]) =
      ((ascii "cat " ++ n).map fun c => .print [c]) ++
        [.print [10], .print t, say "\n", .print [10], .print prompt] := by
  have hplain : ∀ c ∈ ascii "cat " ++ n, Plain c := by
    refine plain_append ?_ hn
    rw [ShellFrame.ascii_cat]
    unfold Plain
    decide
  have hline : ascii "cat " ++ n ≠ [] := by
    rw [ShellFrame.ascii_cat]
    exact List.cons_ne_nil _ _
  obtain ⟨hfinal, hprinted⟩ := enter_line hs hempty hline hplain
    (by rw [List.length_append, ShellFrame.length_cat]; omega)
  have hrun : (Command.cat n).run a.disk = ⟨a.disk, [.print t, say "\n"], true⟩ := by
    simp only [Command.run, hfile, shown_plain ht hsmall]
  rw [hfinal, hprinted, Command.parse_cat hpos hlead, hrun]
  exact ⟨rfl, rfl⟩

end Session

/-- After a line that writes `t` to a file `n` and any keys that neither write to it nor leave
the shell, `cat n` prints `t`. -/
theorem ShellFrame.cat_shows_written (frame : ShellFrame) (exec : ExecFrame) (k : Kernel) (d : Disk)
    (h : Mirrors k.storage d) (hconsole : k.console = []) {n t : List Byte} (hfile : n ∈ d.names) (hpos : n ≠ [])
    (hn : ∀ b ∈ n, Session.Plain b ∧ b ≠ 32) (ht : ∀ b ∈ t, Session.Plain b) (hlead : t.head? ≠ some 32)
    (hlen : (ascii "write " ++ (n ++ 32 :: t)).length ≤ 255) (ks : List Byte) :
    let line := ascii "write " ++ (n ++ 32 :: t) ++ [10]
    let a := final Session.key ⟨d, [], true⟩ line
    let s := final (frame.mainKey exec) ⟨k, 0, none⟩ (line ++ ks)
    Along Session.key (fun a c => ¬ a.Stores n c) a ks →
      (final Session.key a ks).line = [] → (final Session.key a ks).stays = true →
      printed (frame.mainKey exec) s (ascii "cat " ++ n ++ [10]) =
        ((ascii "cat " ++ n).map fun c => .print [c]) ++
          [.print [10], .print t, say "\n", .print [10], .print prompt] := by
  intro line a s hquiet hprompt hstays
  obtain ⟨-, hstored⟩ := Session.write_line hfile hn hpos ht hlead hlen
  have hkept := Session.run_keeps hstored ks hquiet
  have hsizes : n.length + t.length ≤ 248 := by
    rw [List.length_append, List.length_append, List.length_cons, ShellFrame.length_write] at hlen
    omega
  have hhead : n.head? ≠ some 32 := fun he => (hn 32 (List.mem_of_mem_head? he)).2 rfl
  obtain ⟨hstays', hanswer⟩ := Session.cat_line hstays hprompt hkept (fun b hb => (hn b hb).1) hpos hhead
    (by omega) ht (by omega)
  have hstart : ShellFrame.Follows frame ⟨k, 0, none⟩ ⟨d, [], true⟩ :=
    ⟨h, iff_of_true rfl rfl, hconsole, rfl, .nil _ _⟩
  obtain ⟨hfollows, -⟩ := ShellFrame.run_follows exec hstart (line ++ ks)
  have hsession : final Session.key ⟨d, [], true⟩ (line ++ ks) = final Session.key a ks := final_append ..
  rw [hsession] at hfollows
  obtain ⟨-, -, hall⟩ := ShellFrame.run_follows exec hfollows (ascii "cat " ++ n ++ [10])
  rw [← hanswer]
  exact hall hstays'

/-- A listing in between, and "hi" comes back. -/
theorem ShellFrame.cat_shows_written_once :
    let k := typedLine (Function.update bootStorage 0 (fileA [] noBytes)) []
    let line := ascii "write " ++ ([97] ++ 32 :: [104, 105]) ++ [10]
    let s := final (demoShell.mainKey demoFrame) ⟨k, 0, none⟩ (line ++ [108, 115, 10])
    printed (demoShell.mainKey demoFrame) s (ascii "cat " ++ [97] ++ [10]) =
      ((ascii "cat " ++ [97]).map fun c => .print [c]) ++
        [.print [10], .print [104, 105], say "\n", .print [10], .print prompt] := by
  have hn : ∀ b ∈ ([97] : List Byte), Session.Plain b ∧ b ≠ 32 := by
    unfold Session.Plain
    decide
  have ht : ∀ b ∈ ([104, 105] : List Byte), Session.Plain b := by
    unfold Session.Plain
    decide
  have hline : (ascii "write " ++ ([97] ++ 32 :: [104, 105])).length ≤ 255 := by decide
  have hls : Command.parse (ascii "ls") = .ls := by
    unfold Command.parse Command.select
    rw [if_neg (by decide), if_neg (by decide), if_neg (by decide), if_pos rfl]
  refine cat_shows_written demoShell demoFrame _ diskA diskA_mirrors rfl (by decide) (by decide) hn ht (by decide)
    hline [108, 115, 10] ⟨fun h => absurd h.1 (by decide), fun h => absurd h.1 (by decide), fun h => ?_, trivial⟩
    (by decide +kernel) (by decide +kernel)
  have htyped : (((final Session.key ⟨diskA, [], true⟩ (ascii "write " ++ ([97] ++ 32 :: [104, 105]) ++ [10])).key
      108).1.key 115).1.line = ascii "ls" := by decide +kernel
  obtain ⟨t, ht⟩ := h.2
  rw [htyped, hls] at ht
  cases ht

end FrodOS
