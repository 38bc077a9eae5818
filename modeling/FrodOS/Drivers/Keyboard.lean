import FrodOS.Lib.CString
import FrodOS.Lib.Ring

/-!
# The keyboard driver (keyboard.c)

The interrupt handler decodes scancodes and puts characters into a ring, system call 3
takes them out. The handler runs with interrupts off, so to it a call of
`keyboard_get_char` stands still before one of its statements; to the call, any
number of handler runs may come between two of them.
-/

namespace FrodOS
open Lib

/-! ### Scancodes -/

/-- `sc_normal`, up to its last entry that is not 0. -/
def scNormal : List Byte :=
  [0, 27] ++ ascii "1234567890-=" ++ [8, 9] ++ ascii "qwertyuiop[]" ++ [10, 0] ++ ascii "asdfghjkl;'`" ++
    [0] ++ ascii "\\zxcvbnm,./" ++ [0, 42, 0, 32]

def scShift : List Byte :=
  [0, 27] ++ ascii "!@#$%^&*()_+" ++ [8, 9] ++ ascii "QWERTYUIOP\x7b\x7d" ++ [10, 0] ++
    ascii "ASDFGHJKL:\"~" ++ [0] ++ ascii "|ZXCVBNM<>?" ++ [0, 42, 0, 32]

structure Keyboard where
  key_buffer : ℤ → Byte
  (key_head key_tail : ℤ)
  (shift_down caps_on ext_prefix : Bool)

/-- What the outside sees of the driver: a decoded character stored or dropped, and the
result of a call. -/
inductive KeyObs where
  | accepted (c : Byte)
  | dropped (c : Byte)
  | returned (c : Byte)

namespace Keyboard

def decode (k : Keyboard) (code : Byte) : Byte :=
  let c := (if k.shift_down then scShift else scNormal).getD code.toNat 0
  if k.caps_on then
    if 97 ≤ c ∧ c ≤ 122 then c - 32 else if 65 ≤ c ∧ c ≤ 90 then c + 32 else c
  else c

def pushKey (k : Keyboard) (c : Byte) : Keyboard × KeyObs :=
  let next := (k.key_head + 1).tmod 256
  if next ≠ k.key_tail then
    ({ k with key_buffer := Function.update k.key_buffer k.key_head c, key_head := next }, .accepted c)
  else (k, .dropped c)

/-- `keyboard_handler_main` for the scancode `sc` at the data port. -/
def handlerMain (k : Keyboard) (sc : Byte) : Keyboard × Option KeyObs :=
  if sc = 0xE0 then ({ k with ext_prefix := true }, none)
  else if k.ext_prefix then ({ k with ext_prefix := false }, none)
  else
    let released : Bool := sc &&& 0x80 ≠ 0
    let code := sc &&& 0x7F
    if code = 0x2A ∨ code = 0x36 then ({ k with shift_down := !released }, none)
    else if released then (k, none)
    else if code = 0x3A then ({ k with caps_on := !k.caps_on }, none)
    else
      let c := k.decode code
      if c ≠ 0 then
        let r := k.pushKey c
        (r.1, some r.2)
      else (k, none)

end Keyboard

/-! ### A call among interrupts -/

inductive GetChar where
  /-- `if (key_head == key_tail) return 0;` -/
  | test
  /-- `char c = key_buffer[key_tail];` -/
  | read
  /-- `key_tail = (key_tail + 1) % KEY_BUFFER_SIZE;` -/
  | advance (c : Byte)
  /-- `return c;` -/
  | done (c : Byte)

structure KeySystem where
  keyboard : Keyboard
  call : Option GetChar

inductive KeyEvent where
  | interrupt (sc : Byte)
  | call
  | resume

namespace KeySystem

def resume (s : KeySystem) : GetChar → KeySystem × Option KeyObs
  | .test =>
    if s.keyboard.key_head = s.keyboard.key_tail then (⟨s.keyboard, none⟩, some (.returned 0))
    else (⟨s.keyboard, some .read⟩, none)
  | .read => (⟨s.keyboard, some (.advance (s.keyboard.key_buffer s.keyboard.key_tail))⟩, none)
  | .advance c =>
    (⟨{ s.keyboard with key_tail := (s.keyboard.key_tail + 1).tmod 256 }, some (.done c)⟩, none)
  | .done c => (⟨s.keyboard, none⟩, some (.returned c))

def step (s : KeySystem) : KeyEvent → KeySystem × Option KeyObs
  | .interrupt sc =>
    let r := s.keyboard.handlerMain sc
    (⟨r.1, s.call⟩, r.2)
  | .call =>
    match s.call with
    | none => (⟨s.keyboard, some .test⟩, none)
    | some _ => (s, none)
  | .resume =>
    match s.call with
    | none => (s, none)
    | some next => s.resume next

def run (s : KeySystem) : List KeyEvent → KeySystem × List KeyObs
  | [] => (s, [])
  | e :: es =>
    let r := s.step e
    let rest := r.1.run es
    (rest.1, r.2.toList ++ rest.2)

/-! ### An undisturbed call -/

end KeySystem

/-- `keyboard_get_char` with no interrupt inside. -/
def Keyboard.getChar (k : Keyboard) : Keyboard × Byte :=
  if k.key_head = k.key_tail then (k, 0)
  else ({ k with key_tail := (k.key_tail + 1).tmod 256 }, k.key_buffer k.key_tail)

/-! ### The ring as a queue -/

def Keyboard.ringChars (k : Keyboard) : List Byte := contents 256 k.key_buffer k.key_head k.key_tail

/-- The ring of `k` stands for the queue `q` of characters, none of them 0. -/
structure Keyboard.Queues (k : Keyboard) (q : List Byte) : Prop where
  holds : Holds 256 k.key_buffer k.key_head k.key_tail q
  nonzero : ∀ c ∈ q, c ≠ 0

namespace Keyboard

variable {k : Keyboard} {q : List Byte} {c : Byte}

theorem Queues.of_same {k' : Keyboard} (h : k.Queues q) (hbuf : k'.key_buffer = k.key_buffer)
    (hhead : k'.key_head = k.key_head) (htail : k'.key_tail = k.key_tail) : k'.Queues q :=
  ⟨by rw [hbuf, hhead, htail]; exact h.holds, h.nonzero⟩

theorem tmod_succ {i : ℤ} (h : 0 ≤ i) : (i + 1).tmod 256 = (i + 1) % (256 : ℕ) :=
  Int.tmod_eq_emod_of_nonneg (by omega)

theorem pushKey_spec (h : k.Queues q) (hc : c ≠ 0) :
    (q.length = 255 ∧ k.pushKey c = (k, .dropped c)) ∨
      ((k.pushKey c).2 = .accepted c ∧ (k.pushKey c).1.Queues (q ++ [c])) := by
  have hnext := tmod_succ h.holds.head_nonneg
  have hroom := h.holds.room
  by_cases hfull : (k.key_head + 1) % (256 : ℕ) = k.key_tail
  · have hlen := h.holds.full_iff.mp hfull
    refine Or.inl ⟨by omega, ?_⟩
    simp only [pushKey, hnext, hfull, ne_eq, not_true_eq_false, if_false]
  · have hlen : q.length + 1 ≠ 256 := mt h.holds.full_iff.mpr hfull
    have hpush : k.pushKey c = ({ k with
        key_buffer := Function.update k.key_buffer k.key_head c
        key_head := (k.key_head + 1) % (256 : ℕ) }, .accepted c) := by
      simp only [pushKey, hnext, ne_eq, hfull, not_false_eq_true, if_true]
    rw [hpush]
    refine Or.inr ⟨rfl, h.holds.push (by omega) c, fun x hx => ?_⟩
    rcases List.mem_append.mp hx with hx | hx
    · exact h.nonzero x hx
    · rw [List.mem_singleton.mp hx]
      exact hc

theorem handlerMain_cases (k : Keyboard) (sc : Byte) :
    ((k.handlerMain sc).2 = none ∧ (k.handlerMain sc).1.key_buffer = k.key_buffer ∧
        (k.handlerMain sc).1.key_head = k.key_head ∧ (k.handlerMain sc).1.key_tail = k.key_tail) ∨
      ∃ c, c ≠ 0 ∧ k.handlerMain sc = ((k.pushKey c).1, some (k.pushKey c).2) := by
  unfold handlerMain
  dsimp only
  split_ifs with h1 h2 h3 h4 h5 h6
  pick_goal 6
  · exact Or.inr ⟨_, h6, rfl⟩
  -- prefixes, releases and modifiers store nothing
  all_goals exact Or.inl ⟨rfl, rfl, rfl, rfl⟩

end Keyboard

/-! ### What a run of events preserves -/

/-- What the call in progress knows of the queue before its next statement. The handler
only appends, so none of it is lost to an interrupt. -/
def GetChar.Sees (q : List Byte) : GetChar → Prop
  | .test => True
  | .read => q ≠ []
  | .advance c => q.head? = some c
  | .done c => c ≠ 0

theorem GetChar.Sees.append {q : List Byte} {next : GetChar} (h : next.Sees q) (more : List Byte) :
    next.Sees (q ++ more) := by
  cases next with
  | test => trivial
  | read => exact List.append_ne_nil_of_left_ne_nil h more
  | advance c =>
    obtain ⟨rest, rfl⟩ := List.head?_eq_some_iff.mp h
    rfl
  | done c => exact h

namespace KeySystem

structure Inv (s : KeySystem) (q : List Byte) : Prop where
  queues : s.keyboard.Queues q
  sees : ∀ next, s.call = some next → next.Sees q

/-- The character that a call has taken out of the ring and not yet returned. -/
def inHand (s : KeySystem) : List Byte :=
  match s.call with
  | some (.done c) => [c]
  | _ => []

def pending (s : KeySystem) : List Byte := s.inHand ++ s.keyboard.ringChars

end KeySystem

def acceptedChars (seen : List KeyObs) : List Byte :=
  seen.filterMap fun o => match o with
    | .accepted c => some c
    | _ => none

def returnedChars (seen : List KeyObs) : List Byte :=
  seen.filterMap fun o => match o with
    | .returned c => some c
    | _ => none

theorem acceptedChars_append (a b : List KeyObs) :
    acceptedChars (a ++ b) = acceptedChars a ++ acceptedChars b := List.filterMap_append

theorem returnedChars_append (a b : List KeyObs) :
    returnedChars (a ++ b) = returnedChars a ++ returnedChars b := List.filterMap_append

def deliveredChars (seen : List KeyObs) : List Byte := (returnedChars seen).filter (· ≠ 0)

namespace KeySystem

variable {s : KeySystem} {q : List Byte}

/-- What a step takes in and what it hands out balance over the queue and the call's hand. -/
def Balances (s : KeySystem) (q : List Byte) (r : KeySystem × Option KeyObs) : Prop :=
  ∃ q', r.1.Inv q' ∧ s.inHand ++ q ++ acceptedChars r.2.toList =
    deliveredChars r.2.toList ++ (r.1.inHand ++ q')

theorem interrupt_balances (h : s.Inv q) (sc : Byte) : s.Balances q (s.step (.interrupt sc)) := by
  rcases s.keyboard.handlerMain_cases sc with ⟨hnone, hbuf, hhead, htail⟩ | ⟨c, hc, hrun⟩
  · refine ⟨q, ⟨h.queues.of_same hbuf hhead htail, h.sees⟩, ?_⟩
    simp [step, hnone, deliveredChars, acceptedChars, returnedChars, inHand]
  · rcases Keyboard.pushKey_spec h.queues hc with ⟨-, hdrop⟩ | ⟨hobs, hqueues⟩
    · refine ⟨q, ⟨?_, h.sees⟩, ?_⟩
      · simp only [step, hrun, hdrop]
        exact h.queues
      · simp [step, hrun, hdrop, deliveredChars, acceptedChars, returnedChars, inHand]
    · refine ⟨q ++ [c], ⟨?_, fun next hnext => (h.sees next hnext).append [c]⟩, ?_⟩
      · simp only [step, hrun]
        exact hqueues
      · simp [step, hrun, hobs, deliveredChars, acceptedChars, returnedChars, inHand]

theorem resume_balances (h : s.Inv q) {next : GetChar} (hcall : s.call = some next) :
    s.Balances q (s.resume next) := by
  have hsees := h.sees next hcall
  cases next with
  | test =>
    by_cases hempty : s.keyboard.key_head = s.keyboard.key_tail
    · refine ⟨q, ?_, ?_⟩
      · simp only [resume, hempty, if_true]
        exact ⟨h.queues, fun _ hnext => by cases hnext⟩
      · simp [resume, hempty, inHand, hcall, deliveredChars, acceptedChars, returnedChars]
    · refine ⟨q, ?_, ?_⟩
      · simp only [resume, hempty, if_false]
        refine ⟨h.queues, fun _ hnext => ?_⟩
        cases hnext
        exact mt h.queues.holds.empty_iff.mpr hempty
      · simp [resume, hempty, inHand, hcall, deliveredChars, acceptedChars, returnedChars]
  | read =>
    obtain ⟨c, rest, rfl⟩ := List.exists_cons_of_ne_nil hsees
    refine ⟨c :: rest, ⟨h.queues, fun _ hnext => ?_⟩, ?_⟩
    · cases hnext
      rw [GetChar.Sees, h.queues.holds.front]
      rfl
    · simp [resume, inHand, hcall, deliveredChars, acceptedChars, returnedChars]
  | advance c =>
    obtain ⟨rest, rfl⟩ := List.head?_eq_some_iff.mp hsees
    have hpop := h.queues.holds.pop
    refine ⟨rest, ⟨⟨?_, fun x hx => h.queues.nonzero x (List.mem_cons_of_mem c hx)⟩, fun _ hnext => ?_⟩, ?_⟩
    · simp only [resume, Keyboard.tmod_succ h.queues.holds.nonneg]
      exact hpop
    · cases hnext
      exact h.queues.nonzero c List.mem_cons_self
    · simp [resume, inHand, hcall, deliveredChars, acceptedChars, returnedChars]
  | done c =>
    refine ⟨q, ⟨h.queues, fun _ hnext => by cases hnext⟩, ?_⟩
    have hc : deliveredChars [.returned c] = [c] :=
      List.filter_cons_of_pos (decide_eq_true hsees)
    simp [resume, inHand, hcall, hc, acceptedChars]

theorem step_balances (h : s.Inv q) (e : KeyEvent) : s.Balances q (s.step e) := by
  have hsame : s.Balances q (s, none) := ⟨q, h, by simp [deliveredChars, acceptedChars, returnedChars]⟩
  cases e with
  | interrupt sc => exact interrupt_balances h sc
  | call =>
    cases hcall : s.call with
    | none =>
      refine ⟨q, ?_, ?_⟩
      · simp only [step, hcall]
        exact ⟨h.queues, fun _ hnext => by cases hnext; trivial⟩
      · simp [step, hcall, inHand, deliveredChars, acceptedChars, returnedChars]
    | some next =>
      rw [step, hcall]
      exact hsame
  | resume =>
    cases hcall : s.call with
    | none =>
      rw [step, hcall]
      exact hsame
    | some next =>
      rw [step, hcall]
      exact resume_balances h hcall

theorem run_balances (es : List KeyEvent) (h : s.Inv q) :
    ∃ q', (s.run es).1.Inv q' ∧ s.inHand ++ q ++ acceptedChars (s.run es).2 =
      deliveredChars (s.run es).2 ++ ((s.run es).1.inHand ++ q') := by
  induction es generalizing s q with
  | nil => exact ⟨q, h, by simp [run, deliveredChars, acceptedChars, returnedChars]⟩
  | cons e es ih =>
    obtain ⟨mid, hmid, hstep⟩ := step_balances h e
    obtain ⟨last, hlast, hrest⟩ := ih hmid
    refine ⟨last, hlast, ?_⟩
    calc s.inHand ++ q ++ acceptedChars (s.run (e :: es)).2
        = s.inHand ++ q ++ acceptedChars (s.step e).2.toList ++
            acceptedChars ((s.step e).1.run es).2 := by
          rw [run, acceptedChars_append, List.append_assoc _ (acceptedChars _)]
      _ = deliveredChars (s.step e).2.toList ++ ((s.step e).1.inHand ++ mid ++
            acceptedChars ((s.step e).1.run es).2) := by rw [hstep, List.append_assoc]
      _ = deliveredChars (s.run (e :: es)).2 ++ ((s.run (e :: es)).1.inHand ++ last) := by
          rw [hrest, ← List.append_assoc, run, deliveredChars, deliveredChars, ← List.filter_append,
            ← returnedChars_append]
          rfl

/-- When each thing may be seen: a drop on a full ring, a 0 at the test of an empty one. -/
def Allowed (s : KeySystem) (q : List Byte) : KeyObs → Prop
  | .accepted _ => True
  | .dropped _ => q.length = 255
  | .returned c => c = 0 → s.call = some .test ∧ q = []

theorem step_allowed (h : s.Inv q) (e : KeyEvent) : ∀ o, (s.step e).2 = some o → s.Allowed q o := by
  cases e with
  | interrupt sc =>
    rcases s.keyboard.handlerMain_cases sc with ⟨hnone, -⟩ | ⟨c, hc, hrun⟩
    · simp [step, hnone]
    · rcases Keyboard.pushKey_spec h.queues hc with ⟨hlen, hdrop⟩ | ⟨hobs, -⟩
      · simp [step, hrun, hdrop, Allowed, hlen]
      · simp [step, hrun, hobs, Allowed]
  | call => cases hcall : s.call <;> simp [step, hcall]
  | resume =>
    cases hcall : s.call with
    | none => simp [step, hcall]
    | some next =>
      have hsees := h.sees next hcall
      cases next with
      | test =>
        by_cases hempty : s.keyboard.key_head = s.keyboard.key_tail
        · simp [step, hcall, resume, hempty, Allowed, h.queues.holds.empty_iff.mp hempty]
        · simp [step, hcall, resume, hempty]
      | read => simp [step, hcall, resume]
      | advance c => simp [step, hcall, resume]
      | done c =>
        intro o hobs
        simp only [step, hcall, resume, Option.some.injEq] at hobs
        rw [← hobs]
        exact fun hzero => absurd hzero hsees

theorem Inv.ringChars_eq (h : s.Inv q) : s.keyboard.ringChars = q := h.queues.holds.contents_eq

/-- Keyboard input is first in, first out: from an empty ring and at any moment of any run,
the characters stored so far are the ones delivered and then the pending ones. -/
theorem keyboard_fifo (s : KeySystem) (hcall : s.call = none)
    (hempty : s.keyboard.key_head = s.keyboard.key_tail) (h0 : 0 ≤ s.keyboard.key_tail)
    (hlt : s.keyboard.key_tail < 256) (es : List KeyEvent) :
    acceptedChars (s.run es).2 = deliveredChars (s.run es).2 ++ (s.run es).1.pending ∧
      (0 ≤ (s.run es).1.keyboard.key_head ∧ (s.run es).1.keyboard.key_head < 256) ∧
      (0 ≤ (s.run es).1.keyboard.key_tail ∧ (s.run es).1.keyboard.key_tail < 256) ∧
      (∀ e c, ((s.run es).1.step e).2 = some (.dropped c) →
        (s.run es).1.keyboard.ringChars.length = 255) ∧
      ∀ e, ((s.run es).1.step e).2 = some (.returned 0) →
        (s.run es).1.call = some .test ∧ (s.run es).1.keyboard.ringChars = [] := by
  have hinit : s.Inv [] := by
    refine ⟨⟨?_, fun c hc => absurd hc List.not_mem_nil⟩, fun next hnext => ?_⟩
    · rw [hempty]
      exact Holds.nil _ h0 hlt
    · rw [hcall] at hnext
      cases hnext
  obtain ⟨q, hinv, hbalance⟩ := run_balances es hinit
  have hhand : s.inHand = [] := by rw [inHand, hcall]
  have hring := hinv.queues.holds
  rw [hhand, List.append_nil, List.nil_append] at hbalance
  rw [pending, hinv.ringChars_eq]
  exact ⟨hbalance, ⟨hring.head_nonneg, hring.head_lt⟩, ⟨hring.nonneg, hring.lt⟩,
    fun e _ hdrop => step_allowed hinv e _ hdrop, fun e hzero => step_allowed hinv e _ hzero rfl⟩

theorem keyboard_fifo_boot :
    let r := (KeySystem.mk ⟨fun _ => 0, 0, 0, false, false, false⟩ none).run
      [.interrupt 0x1E, .call, .resume, .interrupt 0x30, .resume, .resume, .resume]
    acceptedChars r.2 = deliveredChars r.2 ++ r.1.pending ∧ acceptedChars r.2 = ascii "ab" ∧
      r.1.pending = ascii "b" :=
  ⟨(keyboard_fifo ⟨⟨fun _ => 0, 0, 0, false, false, false⟩, none⟩ rfl rfl (by decide) (by decide) _).1,
    by decide, by decide⟩

end KeySystem

end FrodOS
