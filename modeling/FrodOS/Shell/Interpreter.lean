import FrodOS.Kernel.Loading
import FrodOS.Shell.FileCommands
import FrodOS.Shell.Language

/-!
# The shell interprets its language (shell.c)

`run_command` does to the slots and prints what the meaning of the line says, for any line
that the buffer can hold.
-/

namespace FrodOS
open Lib

/-! ### Names of any length -/

namespace Disk

variable (d : Disk) (n : List Byte)

/-- No file has a name of 32 bytes. -/
theorem mem_names_take : n.take 32 ∈ d.names ↔ n ∈ d.names := by
  have hshort : ∀ m ∈ d.names, m.length ≤ 31 := by
    intro m hm
    obtain ⟨e, he, rfl⟩ := List.mem_map.mp hm
    exact d.short e he
  by_cases hn : n.length ≤ 32
  · rw [List.take_of_length_le hn]
  · constructor
    · intro hm
      have := hshort _ hm
      rw [List.length_take] at this
      omega
    · intro hm
      have := hshort _ hm
      omega

theorem create_take : d.create (n.take 32) = d.create n := by
  have hnil : n.take 32 = [] ↔ n = [] := by simp
  simp only [create, hnil, mem_names_take, append, List.take_take]
  rfl

theorem lookup_take : lookup (n.take 32) d.files = lookup n d.files := by
  by_cases hn : n ∈ d.names
  · have hlen : n.length ≤ 31 := by
      obtain ⟨e, he, rfl⟩ := List.mem_map.mp hn
      exact d.short e he
    rw [List.take_of_length_le (by omega)]
  · rw [lookup_eq_none_iff.mpr hn, lookup_eq_none_iff.mpr (mt (d.mem_names_take n).mp hn)]

theorem write_take (bytes : List Byte) : d.write (n.take 32) bytes = d.write n bytes := by
  by_cases hn : n ∈ d.names
  · have hlen : n.length ≤ 31 := by
      obtain ⟨e, he, rfl⟩ := List.mem_map.mp hn
      exact d.short e he
    rw [List.take_of_length_le (by omega)]
  · simp only [write, d.mem_names_take, hn, if_false]

end Disk

/-- `r` does what `a` says. What the kernel prints behind `console` comes before the answer
of the shell. -/
structure Interprets (console : List String) (r : CommandRun) (a : Reply) : Prop where
  mirrors : Mirrors r.kernel.storage a.disk
  stays : r.gone = none ↔ a.stays = true
  shown : a.stays = true → ∃ report, r.kernel.console = console ++ report ∧
    report.map say ++ r.effects = a.effects

namespace ShellFrame

variable {frame : ShellFrame} {k : Kernel} {d : Disk} {line : List Byte}

theorem interprets {r : CommandRun} {a : Reply} (hm : Mirrors r.kernel.storage a.disk) (hr : r.gone = none)
    (ha : a.stays = true) (hc : r.kernel.console = k.console) (he : r.effects = a.effects) : Interprets k.console r a where
  mirrors := hm
  stays := iff_of_true hr ha
  shown _ := ⟨[], by rw [hc, List.append_nil], he⟩

theorem prefix_length {word : List Byte} {n : ℕ} (h : word <+: line) (hn : word.length = n) : n ≤ line.length :=
  hn ▸ h.length_le

/-! ### touch, write and cat -/

theorem touch_interprets (h : Mirrors k.storage d) (hline : IsCStr (view k.mem frame.buf) line)
    (hlen : line.length ≤ 255) (hword : 6 ≤ line.length) :
    Interprets k.console (frame.touch k) ((Command.parseTouch line).run d) := by
  obtain ⟨husage, hcreate⟩ := touch_eq hline hlen hword
  rw [Command.parseTouch]
  generalize Command.operand 6 line = name at husage hcreate ⊢
  by_cases hempty : name = []
  · rw [husage hempty, if_pos hempty]
    exact interprets h rfl rfl rfl rfl
  · obtain ⟨arg, harg, htouch⟩ := hcreate hempty
    obtain ⟨hanswer, hmirrors⟩ := h.create arg
    rw [nameArg_eq harg, Disk.create_take] at hanswer hmirrors
    rw [htouch, if_neg hempty]
    exact interprets hmirrors rfl rfl rfl (congrArg (fun c => [say (Command.touchText c)]) hanswer)

theorem range_map {f : View} {s : List Byte} (h : IsCStr f s) : (List.range s.length).map f = s := by
  apply List.ext_getElem
  · rw [List.length_map, List.length_range]
  · intro i hi hi'
    rw [List.getElem_map, List.getElem_range, h.bytes i hi']

theorem write_interprets (h : Mirrors k.storage d) (hline : IsCStr (view k.mem frame.buf) line)
    (hlen : line.length ≤ 255) (hword : 6 ≤ line.length) :
    Interprets k.console (frame.write k) ((Command.parseWrite line).run d) := by
  obtain ⟨husage, hstore⟩ := write_eq hline hlen hword
  rw [Command.parseWrite]
  generalize Command.operand 6 line = rest at husage hstore ⊢
  by_cases hall : Command.firstWord rest = rest
  · rw [husage hall, if_pos hall]
    exact interprets h rfl rfl rfl rfl
  · obtain ⟨m, arg, source, harg, hsource, hshort, hwrite⟩ := hstore hall
    generalize Command.firstWord rest = name at hall harg hsource hshort hwrite ⊢
    generalize Command.operand (name.length + 1) rest = text at hsource hshort hwrite ⊢
    have hsize : (BitVec.ofNat 32 text.length).toNat = text.length := by
      rw [BitVec.toNat_ofNat, Nat.mod_eq_of_lt (by omega)]
    obtain ⟨hanswer, hmirrors⟩ := h.write arg source (BitVec.ofNat 32 text.length)
    rw [nameArg_eq harg, Disk.write_take, hsize, range_map hsource] at hanswer hmirrors
    rw [hwrite, if_neg hall]
    exact interprets hmirrors rfl rfl rfl (congrArg (fun c => [say (Command.writeText c)]) hanswer)

theorem cat_interprets (h : Mirrors k.storage d) (hline : IsCStr (view k.mem frame.buf) line)
    (hlen : line.length ≤ 255) (hword : 4 ≤ line.length) :
    Interprets k.console (frame.cat k) ((Command.parseCat line).run d) := by
  obtain ⟨husage, hread⟩ := cat_eq hline hlen hword
  rw [Command.parseCat]
  generalize Command.operand 4 line = name at husage hread ⊢
  by_cases hempty : name = []
  · rw [husage hempty, if_pos hempty]
    exact interprets h rfl rfl rfl rfl
  obtain ⟨m, arg, harg, hcat⟩ := hread hempty
  rw [if_neg hempty]
  have hmax : (4096 - 1 : U32).toNat = 4095 := by decide
  obtain ⟨hcode, hmem⟩ := h.read arg m (4096 - 1)
    (ne_zero_of_userPtrOk (frame.user_object (p := frame.io_buffer) (by simp)))
    (ne_zero_of_userPtrOk (frame.user_object (p := frame.bytes_read) (by simp)))
  rw [nameArg_eq harg, Disk.read, Disk.lookup_take, hmax] at hcode hmem
  dsimp only [Command.run]
  cases hfound : lookup name d.files with
  | none =>
    rw [hfound] at hcode
    dsimp only at hcode hcat
    rw [hcat, hcode, if_neg (by decide)]
    exact interprets h rfl rfl rfl rfl
  | some bytes =>
    rw [hfound] at hcode hmem
    dsimp only at hcode hmem hcat
    have hfits : (bytes.take 4095).length ≤ 4095 := List.length_take_le ..
    have hsize : (BitVec.ofNat 32 (bytes.take 4095).length).toNat = (bytes.take 4095).length := by
      rw [BitVec.toNat_ofNat, Nat.mod_eq_of_lt (by omega)]
    rw [hcat, hcode, hmem, if_pos (by decide), load32_store32 _ _ _ (by decide), hsize, delivered_shown m hfits]
    exact interprets h rfl rfl rfl rfl

/-! ### ls -/

theorem fitting_all {max_bytes idx : ℕ} {names : List (List Byte)} (hshort : ∀ n ∈ names, n.length ≤ 31)
    (hroom : idx + 32 * names.length + 1 < max_bytes) : fitting max_bytes names idx = names := by
  induction names generalizing idx with
  | nil => rfl
  | cons n names ih =>
    have hn := hshort n List.mem_cons_self
    rw [List.length_cons] at hroom
    rw [fitting, if_neg (by omega), ih (fun m hm => hshort m (List.mem_cons_of_mem n hm)) (by omega)]

/-- A listing into 4096 bytes has every file. -/
theorem list_all (d : Disk) : d.list 4096 = listing d.names := by
  have hroom := d.room
  have hcount : d.names.length = d.files.length := List.length_map _
  rw [Disk.list, fitting_all]
  · intro n hn
    obtain ⟨e, he, rfl⟩ := List.mem_map.mp hn
    exact d.short e he
  · omega

theorem makeSyscall_list (k : Kernel) {p out max : U32} (hp : userPtrOk p = true) (ho : userPtrOk out = true) :
    let m := storeArgs k.mem p [out, max]
    let r := frodfsList k.storage m out max
    makeSyscall { k with mem := m } 13 p = ({ k with mem := r.2.1 }, BitVec.ofInt 32 r.1) := by
  have hparam : ∀ i (hi : i < 2), param { k with mem := storeArgs k.mem p [out, max] } p i = [out, max][i] :=
    fun i hi => param_storeArgs k k.mem _ p (by simp) hi
  have h₀ := hparam 0 (by omega)
  have h₁ := hparam 1 (by omega)
  clear hparam
  simp only [List.getElem_cons_zero, List.getElem_cons_succ] at h₀ h₁
  generalize storeArgs k.mem p [out, max] = m at h₀ h₁ ⊢
  have hcall : fsCall { k with mem := m } ⟨0, 0, 0, 0, p, 0, 0, 13⟩ =
      sysFsList { k with mem := m } ⟨0, 0, 0, 0, p, 0, 0, 13⟩ := rfl
  simp only [makeSyscall, hcall, sysFsList, hp, h₀, h₁, ho, if_true, answer]

theorem ls_interprets (h : Mirrors k.storage d) : Interprets k.console (frame.ls k) (Command.ls.run d) := by
  have hio := frame.user_object (p := frame.io_buffer) (by simp)
  rw [ls, makeSyscall_list k (frame.user_object (by simp)) hio]
  obtain ⟨hcode, -, htext⟩ := frodfsList_text k.storage
    (storeArgs k.mem frame.list_args [frame.io_buffer, 4096]) (ne_zero_of_userPtrOk hio)
    (show 1 ≤ (4096 : U32).toNat by decide)
  have hlt := fitting_lt d.names (show 0 < 4096 by omega)
  rw [Nat.zero_add, ← listing_length] at hlt
  rw [h.usedNames_eq] at htext
  change IsCStr _ (d.list 4096) at htext
  change (d.list 4096).length < 4096 at hlt
  rw [list_all] at htext hlt
  dsimp only
  rw [hcode, if_pos (by decide)]
  generalize (frodfsList k.storage (storeArgs k.mem frame.list_args [frame.io_buffer, 4096]) frame.io_buffer 4096).2.1 = m
    at htext ⊢
  have hempty : m frame.io_buffer = 0 ↔ d.files = [] := by
    have hzero := htext.head_eq_zero_iff
    rw [view, off_zero] at hzero
    rw [hzero]
    cases hf : d.files with
    | nil => simp [Disk.names, hf]
    | cons e es => simp [Disk.names, hf]
  by_cases hd : d.files = []
  · rw [if_pos (hempty.mpr hd)]
    exact interprets h rfl rfl rfl (congrArg (fun e => [e]) (if_pos hd).symm)
  · rw [if_neg (mt hempty.mp hd)]
    refine interprets h rfl rfl rfl ?_
    dsimp only [printAt]
    rw [htext.leading_eq hlt.le]
    exact congrArg (fun e => [e]) (if_neg hd).symm

/-! ### Programs -/

theorem refusal_cases {name : List Byte} {code : ℤ} (h : d.refusal name = some code) : code = -2 ∨ code = -4 := by
  unfold Disk.refusal at h
  split at h
  · split_ifs at h
    · exact Or.inl (Option.some.inj h).symm
    · exact Or.inr (Option.some.inj h).symm
  · exact Or.inl (Option.some.inj h).symm

theorem execCode_line (hline : IsCStr (view k.mem frame.buf) line) : d.execCode k frame.buf = d.refusal line := by
  have huser := frame.user_object (p := frame.buf) (by simp)
  rw [Disk.execCode, if_pos huser, nameArg_eq hline, Disk.refusal, Disk.lookup_take]
  rfl

theorem launch_interprets (exec : ExecFrame) (h : Mirrors k.storage d) (hline : IsCStr (view k.mem frame.buf) line)
    (hlen : line.length ≤ 255) : Interprets k.console (frame.launch exec k) ((Command.launch line).run d) := by
  have hstorage := (sysExec_loads exec k ⟨0, 0, 0, 0, frame.buf, 0, 0, 20⟩).storage
  have hcode := execCode_line (d := d) hline
  rw [launch]
  dsimp only [Command.run]
  cases hr : d.refusal line with
  | some code =>
    rw [hr] at hcode
    have hrefused : ExecRefuses k ⟨0, 0, 0, 0, frame.buf, 0, 0, 20⟩ code _ := sysExec_refuses exec h hcode
    obtain ⟨hcontrol, hconsole, hmem⟩ := hrefused
    have hbuf : IsCStr (view (sysExec exec k ⟨0, 0, 0, 0, frame.buf, 0, 0, 20⟩).kernel.mem frame.buf) line := by
      apply hline.congr
      intro j hj
      exact hmem _ ((userPtrOk_iff _).mp (user_at (by omega)))
    generalize sysExec exec k ⟨0, 0, 0, 0, frame.buf, 0, 0, 20⟩ = o at hstorage hcontrol hconsole hbuf ⊢
    have hmirrors : Mirrors o.kernel.storage d := hstorage ▸ h
    rw [hcontrol]
    dsimp only
    rcases refusal_cases hr with rfl | rfl
    · rw [if_pos (by decide)]
      rw [if_neg (by decide), List.append_nil] at hconsole
      refine interprets hmirrors rfl rfl hconsole ?_
      dsimp only [printAt]
      rw [hbuf.leading_eq (by omega), Command.refusalText, if_pos rfl]
    · rw [if_neg (by decide), if_pos (by decide)]
      rw [if_pos rfl] at hconsole
      refine ⟨hmirrors, iff_of_true rfl rfl, fun _ => ⟨_, hconsole, ?_⟩⟩
      rw [Command.refusalText, if_neg (by decide)]
      rfl
  | none =>
    rw [hr] at hcode
    have hgone : ∀ regs', (sysExec exec k ⟨0, 0, 0, 0, frame.buf, 0, 0, 20⟩).control ≠ .iret regs' := by
      obtain ⟨i, hi⟩ := (execCode_none_iff h frame.buf).mp hcode
      intro regs'
      apply sysExec_control
      exact hi
    generalize sysExec exec k ⟨0, 0, 0, 0, frame.buf, 0, 0, 20⟩ = o at hstorage hgone ⊢
    have hmirrors : Mirrors o.kernel.storage d := hstorage ▸ h
    cases hc : o.control with
    | iret regs => exact absurd hc (hgone regs)
    | userMode entry_point esp =>
      exact ⟨hmirrors, iff_of_false (fun he => by cases he) (fun he => by cases he), fun he => by cases he⟩
    | panic msg =>
      exact ⟨hmirrors, iff_of_false (fun he => by cases he) (fun he => by cases he), fun he => by cases he⟩
    | driver =>
      exact ⟨hmirrors, iff_of_false (fun he => by cases he) (fun he => by cases he), fun he => by cases he⟩

/-! ### The line -/

/-- `run_command` does what the line means that is left of the buffer's first line break. -/
theorem runCommand_interprets (exec : ExecFrame) (h : Mirrors k.storage d)
    (hline : IsCStr (view k.mem frame.buf) line) (hlen : line.length ≤ 255) :
    Interprets k.console (frame.runCommand exec k) ((Command.parse (lineOf line)).run d) := by
  have hcut : IsCStr (view (frame.cutLine k).mem frame.buf) (lineOf line) := endLine_line hline hlen
  have hle : (lineOf line).length ≤ 255 := (List.takeWhile_prefix _).length_le.trans hlen
  rw [runCommand_eq exec hline hlen, Command.parse]
  generalize lineOf line = cmd at hcut hle ⊢
  unfold Command.select
  split_ifs with hhelp hclear hbeep hls htouch hwrite hcat
  · exact interprets h rfl rfl rfl rfl
  · exact interprets h rfl rfl rfl rfl
  · exact interprets h rfl rfl rfl rfl
  · exact ls_interprets (k := frame.cutLine k) h
  · exact touch_interprets (k := frame.cutLine k) h hcut hle (prefix_length htouch length_touch)
  · exact write_interprets (k := frame.cutLine k) h hcut hle (prefix_length hwrite length_write)
  · exact cat_interprets (k := frame.cutLine k) h hcut hle (prefix_length hcat length_cat)
  · exact launch_interprets (k := frame.cutLine k) exec h hcut hle

end ShellFrame

end FrodOS
