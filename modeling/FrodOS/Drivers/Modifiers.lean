import FrodOS.Drivers.Keyboard
import FrodOS.Lib.Run

/-!
# Modifiers and physical keys (keyboard.c)

What the keyboard sends for physical keys in scancode set 1, and what the handler makes
of it. Extended keys send pairs after the prefix 0xE0, among them the fake shifts that
come with the navigation keys and Print Screen.
-/

namespace FrodOS
open Lib

/-! ### The handler's flags -/

structure Modifiers where
  (shift_down caps_on ext_prefix : Bool)

namespace Modifiers

def scan (m : Modifiers) (sc : Byte) : Modifiers :=
  if sc = 0xE0 then { m with ext_prefix := true }
  else if m.ext_prefix then { m with ext_prefix := false }
  else
    let released : Bool := sc &&& 0x80 ≠ 0
    let code := sc &&& 0x7F
    if code = 0x2A ∨ code = 0x36 then { m with shift_down := !released }
    else if released then m
    else if code = 0x3A then { m with caps_on := !m.caps_on }
    else m

end Modifiers

def Keyboard.modifiers (k : Keyboard) : Modifiers := ⟨k.shift_down, k.caps_on, k.ext_prefix⟩

theorem pushKey_modifiers (k : Keyboard) (c : Byte) : (k.pushKey c).1.modifiers = k.modifiers := by
  unfold Keyboard.pushKey
  dsimp only
  split_ifs <;> rfl

theorem handlerMain_modifiers (k : Keyboard) (sc : Byte) :
    (k.handlerMain sc).1.modifiers = k.modifiers.scan sc := by
  have hmod : k.modifiers.ext_prefix = k.ext_prefix := rfl
  rw [Keyboard.handlerMain, Modifiers.scan, hmod]
  by_cases hext : sc = 0xE0
  · rw [if_pos hext, if_pos hext]
    rfl
  rw [if_neg hext, if_neg hext]
  by_cases hpair : k.ext_prefix = true
  · rw [if_pos hpair, if_pos hpair]
    rfl
  rw [if_neg hpair, if_neg hpair]
  dsimp only
  split_ifs
  · rfl
  · rfl
  · rfl
  · exact pushKey_modifiers k _
  · rfl

/-! ### Scancode set 1 -/

/-- The code of a key. With the bit 7 it is the code of its release, which is not the
prefix. -/
structure KeyCode where
  code : Byte
  make : code < 0x80
  notPrefix : code ≠ 0x60

inductive KeyAction where
  | press
  /-- The key is still held. -/
  | typematic
  | release

def KeyAction.byte (c : KeyCode) : KeyAction → Byte
  | .press => c.code
  | .typematic => c.code
  | .release => c.code ||| 0x80

structure FakeShift where
  (right released : Bool)

def FakeShift.bytes (f : FakeShift) : List Byte :=
  [0xE0, (if f.right then 0x36 else 0x2A) ||| if f.released then 0x80 else 0]

inductive KeyStroke where
  | plain (a : KeyAction) (c : KeyCode)
  | extended (a : KeyAction) (c : KeyCode) (before after : List FakeShift)
  | pause

def KeyStroke.bytes : KeyStroke → List Byte
  | .plain a c => [a.byte c]
  | .extended a c before after =>
    before.flatMap FakeShift.bytes ++ [0xE0, a.byte c] ++ after.flatMap FakeShift.bytes
  | .pause => [0xE1, 0x1D, 0x45, 0xE1, 0x9D, 0xC5]

namespace Modifiers

variable {m : Modifiers}

/-- A press or a repeat, which look the same. -/
def onMake (m : Modifiers) (code : Byte) : Modifiers :=
  if code = 0x2A ∨ code = 0x36 then { m with shift_down := true }
  else if code = 0x3A then { m with caps_on := !m.caps_on }
  else m

def onBreak (m : Modifiers) (code : Byte) : Modifiers :=
  if code = 0x2A ∨ code = 0x36 then { m with shift_down := false } else m

theorem scan_make (h : m.ext_prefix = false) (c : KeyCode) : m.scan c.code = m.onMake c.code := by
  have hbits : ∀ b : Byte, b < 0x80 → b ≠ 0xE0 ∧ b &&& 0x80 = 0 ∧ b &&& 0x7F = b := by decide
  obtain ⟨hext, hbit, hcode⟩ := hbits c.code c.make
  rw [scan, if_neg hext, if_neg (by rw [h]; decide)]
  simp only [hbit, hcode, onMake, ne_eq, not_true_eq_false, decide_false, Bool.not_false,
    Bool.false_eq_true, if_false]

theorem scan_break (h : m.ext_prefix = false) (c : KeyCode) : m.scan (c.code ||| 0x80) = m.onBreak c.code := by
  have hbits : ∀ b : Byte, b < 0x80 → b ≠ 0x60 →
      b ||| 0x80 ≠ 0xE0 ∧ (b ||| 0x80) &&& 0x80 ≠ 0 ∧ (b ||| 0x80) &&& 0x7F = b := by decide
  obtain ⟨hext, hbit, hcode⟩ := hbits c.code c.make c.notPrefix
  rw [scan, if_neg hext, if_neg (by rw [h]; decide)]
  simp only [hbit, hcode, onBreak, ne_eq, not_false_eq_true, decide_true, Bool.not_true, if_true]

/-- What follows the prefix is dropped with it. -/
theorem scan_pair (h : m.ext_prefix = false) {sc : Byte} (hsc : sc ≠ 0xE0) : (m.scan 0xE0).scan sc = m := by
  obtain ⟨shift_down, caps_on, ext_prefix⟩ := m
  cases h
  rw [scan, scan, if_pos rfl, if_neg hsc]
  rfl

theorem scan_fakes (h : m.ext_prefix = false) (fs : List FakeShift) :
    (fs.flatMap FakeShift.bytes).foldl scan m = m := by
  induction fs with
  | nil => rfl
  | cons f fs ih =>
    have hcode : ((if f.right then 0x36 else 0x2A) ||| if f.released then 0x80 else 0 : Byte) ≠ 0xE0 := by
      cases f.right <;> cases f.released <;> decide
    rw [List.flatMap_cons, List.foldl_append]
    change List.foldl scan ((m.scan 0xE0).scan _) _ = m
    rw [scan_pair h hcode, ih]

/-- What the handler makes of a whole event. -/
def on (m : Modifiers) : KeyStroke → Modifiers
  | .plain .press c => m.onMake c.code
  | .plain .typematic c => m.onMake c.code
  | .plain .release c => m.onBreak c.code
  | .extended _ _ _ _ => m
  | .pause => m

theorem scan_stroke (h : m.ext_prefix = false) (e : KeyStroke) : e.bytes.foldl scan m = m.on e := by
  cases e with
  | plain a c =>
    cases a with
    | press => exact scan_make h c
    | typematic => exact scan_make h c
    | release => exact scan_break h c
  | extended a c before after =>
    have hbyte : a.byte c ≠ 0xE0 := by
      have hmake : ∀ b : Byte, b < 0x80 → b ≠ 0xE0 := by decide
      have hbreak : ∀ b : Byte, b < 0x80 → b ≠ 0x60 → b ||| 0x80 ≠ 0xE0 := by decide
      cases a with
      | press => exact hmake _ c.make
      | typematic => exact hmake _ c.make
      | release => exact hbreak _ c.make c.notPrefix
    rw [KeyStroke.bytes, List.foldl_append, List.foldl_append, scan_fakes h]
    change List.foldl scan ((m.scan 0xE0).scan _) _ = m
    rw [scan_pair h hbyte, scan_fakes h]
  | pause =>
    obtain ⟨shift_down, caps_on, ext_prefix⟩ := m
    cases h
    rfl

theorem on_ext_prefix (m : Modifiers) (e : KeyStroke) : Modifiers.ext_prefix (m.on e) = m.ext_prefix := by
  have hmake (code : Byte) : Modifiers.ext_prefix (m.onMake code) = m.ext_prefix := by
    unfold onMake
    split_ifs <;> rfl
  cases e with
  | plain a c =>
    cases a with
    | press => exact hmake c.code
    | typematic => exact hmake c.code
    | release =>
      change Modifiers.ext_prefix (m.onBreak c.code) = m.ext_prefix
      unfold onBreak
      split_ifs <;> rfl
  | extended a c before after => rfl
  | pause => rfl

end Modifiers

/-! ### The keys under the fingers -/

/-- The driver, the keys held (extended or not, with their code) and how often Caps Lock
was pressed. -/
structure Typist where
  keyboard : Keyboard
  held : Bool × Byte → Bool
  caps_presses : ℕ

def leftShift : Bool × Byte := (false, 0x2A)
def rightShift : Bool × Byte := (false, 0x36)
def capsLock : Bool × Byte := (false, 0x3A)

theorem leftShift_eq {code : Byte} : leftShift = (false, code) ↔ code = 0x2A :=
  ⟨fun h => (congrArg Prod.snd h).symm, fun h => by rw [h]; rfl⟩

theorem rightShift_eq {code : Byte} : rightShift = (false, code) ↔ code = 0x36 :=
  ⟨fun h => (congrArg Prod.snd h).symm, fun h => by rw [h]; rfl⟩

theorem capsLock_eq {code : Byte} : capsLock = (false, code) ↔ code = 0x3A :=
  ⟨fun h => (congrArg Prod.snd h).symm, fun h => by rw [h]; rfl⟩

namespace Modifiers

variable (m : Modifiers) (code : Byte)

theorem onMake_shift : (m.onMake code).shift_down = true ↔
    (leftShift = (false, code) ∨ rightShift = (false, code)) ∨ m.shift_down = true := by
  rw [leftShift_eq, rightShift_eq, onMake]
  split_ifs with hshift hcaps
  · exact ⟨fun _ => Or.inl hshift, fun _ => rfl⟩
  · exact ⟨Or.inr, fun h => h.resolve_left hshift⟩
  · exact ⟨Or.inr, fun h => h.resolve_left hshift⟩

theorem onMake_caps :
    (m.onMake code).caps_on = if capsLock = (false, code) then !m.caps_on else m.caps_on := by
  rw [onMake]
  split_ifs with hshift hlock hcaps hlock hlock
  · rw [capsLock_eq.mp hlock] at hshift
    exact absurd hshift (by decide)
  · rfl
  · rfl
  · exact absurd (capsLock_eq.mpr hcaps) hlock
  · exact absurd (capsLock_eq.mp hlock) hcaps
  · rfl

theorem onBreak_shift : (m.onBreak code).shift_down = true ↔
    m.shift_down = true ∧ ¬(leftShift = (false, code) ∨ rightShift = (false, code)) := by
  rw [leftShift_eq, rightShift_eq, onBreak]
  split_ifs with hshift
  · exact ⟨fun h => h.elim, fun h => absurd hshift h.2⟩
  · exact ⟨fun h => ⟨h, hshift⟩, And.left⟩

theorem onBreak_caps : (m.onBreak code).caps_on = m.caps_on := by
  rw [onBreak]
  split_ifs <;> rfl

end Modifiers

namespace Typist

def act (s : Typist) (key : Bool × Byte) : KeyAction → Typist
  | .press =>
    { s with held := Function.update s.held key true,
             caps_presses := if key = capsLock then s.caps_presses + 1 else s.caps_presses }
  | .typematic => s
  | .release => { s with held := Function.update s.held key false }

def move (s : Typist) : KeyStroke → Typist
  | .plain a c => s.act (false, c.code) a
  | .extended a c _ _ => s.act (true, c.code) a
  | .pause => s

def step (s : Typist) (e : KeyStroke) : Typist × Unit :=
  ({ s.move e with keyboard := e.bytes.foldl (fun k sc => (k.handlerMain sc).1) s.keyboard }, ())

/-- A key goes down when it is up, and repeats and comes up when it is down. -/
def Possible (s : Typist) (key : Bool × Byte) : KeyAction → Prop
  | .press => s.held key = false
  | .typematic => s.held key = true
  | .release => s.held key = true

def Valid (s : Typist) : KeyStroke → Prop
  | .plain a c => s.Possible (false, c.code) a
  | .extended a c _ _ => s.Possible (true, c.code) a
  | .pause => True

structure Follows (s : Typist) : Prop where
  shift : s.keyboard.shift_down = true ↔ s.held leftShift = true ∨ s.held rightShift = true
  caps : s.keyboard.caps_on = true ↔ s.caps_presses % 2 = 1

/-- No Shift comes up while the other one is held, and Caps Lock does not repeat. -/
def Unambiguous (s : Typist) : KeyStroke → Prop
  | .plain .release c =>
    ((false, c.code) = leftShift → s.held rightShift = false) ∧
      ((false, c.code) = rightShift → s.held leftShift = false)
  | .plain .typematic c => (false, c.code) ≠ capsLock
  | _ => True

variable {s : Typist}

theorem bytes_modifiers (k : Keyboard) (bytes : List Byte) :
    (bytes.foldl (fun k sc => (k.handlerMain sc).1) k).modifiers = bytes.foldl Modifiers.scan k.modifiers := by
  induction bytes generalizing k with
  | nil => rfl
  | cons sc bytes ih => rw [List.foldl_cons, ih, handlerMain_modifiers, List.foldl_cons]

theorem step_modifiers (h : s.keyboard.ext_prefix = false) (e : KeyStroke) :
    (s.step e).1.keyboard.modifiers = s.keyboard.modifiers.on e := by
  have hflags := bytes_modifiers s.keyboard e.bytes
  rwa [Modifiers.scan_stroke h] at hflags

theorem step_ext_prefix (h : s.keyboard.ext_prefix = false) (e : KeyStroke) :
    Keyboard.ext_prefix (s.step e).1.keyboard = false := by
  have hflags : Keyboard.ext_prefix (s.step e).1.keyboard = Modifiers.ext_prefix (s.keyboard.modifiers.on e) :=
    congrArg Modifiers.ext_prefix (step_modifiers h e)
  rw [hflags, Modifiers.on_ext_prefix]
  exact h

theorem held_press {held : Bool × Byte → Bool} {key other : Bool × Byte} :
    Function.update held key true other = true ↔ other = key ∨ held other = true := by
  by_cases he : other = key
  · simp [he]
  · simp [he]

theorem held_release {held : Bool × Byte → Bool} {key other : Bool × Byte} :
    Function.update held key false other = true ↔ other ≠ key ∧ held other = true := by
  by_cases he : other = key
  · simp [he]
  · simp [he]

/-- The state as the flags after an event and the keys and presses after it. -/
theorem follows_iff (h : s.keyboard.ext_prefix = false) (e : KeyStroke) :
    (s.step e).1.Follows ↔
      ((s.keyboard.modifiers.on e).shift_down = true ↔
        (s.move e).held leftShift = true ∨ (s.move e).held rightShift = true) ∧
      ((s.keyboard.modifiers.on e).caps_on = true ↔ (s.move e).caps_presses % 2 = 1) := by
  rw [← step_modifiers h e]
  exact ⟨fun hf => ⟨hf.shift, hf.caps⟩, fun hf => ⟨hf.1, hf.2⟩⟩

theorem Follows.flags (h : s.Follows) :
    (s.keyboard.modifiers.shift_down = true ↔ s.held leftShift = true ∨ s.held rightShift = true) ∧
      (s.keyboard.modifiers.caps_on = true ↔ s.caps_presses % 2 = 1) :=
  ⟨h.shift, h.caps⟩

theorem make_shift (h : s.Follows) (code : Byte) :
    (s.keyboard.modifiers.onMake code).shift_down = true ↔
      (leftShift = (false, code) ∨ s.held leftShift = true) ∨
        (rightShift = (false, code) ∨ s.held rightShift = true) := by
  rw [Modifiers.onMake_shift, h.flags.1]
  tauto

theorem press_follows (h : s.Follows) (hext : s.keyboard.ext_prefix = false) (c : KeyCode) :
    (s.step (.plain .press c)).1.Follows := by
  apply (follows_iff hext _).mpr
  simp only [Modifiers.on, move, act, held_press, eq_comm (b := capsLock)]
  refine ⟨make_shift h c.code, ?_⟩
  have hcaps := h.flags.2
  rw [Modifiers.onMake_caps]
  split_ifs
  · rw [Bool.not_eq_true', ← Bool.not_eq_true, hcaps]
    omega
  · exact hcaps

/-- A repeat of Caps Lock turns it over again. -/
theorem typematic_follows_iff (h : s.Follows) (hext : s.keyboard.ext_prefix = false) {c : KeyCode}
    (hv : s.held (false, c.code) = true) :
    (s.step (.plain .typematic c)).1.Follows ↔ (false, c.code) ≠ capsLock := by
  have hcaps := h.flags.2
  have hkey (key : Bool × Byte) : key = (false, c.code) ∨ s.held key = true ↔ s.held key = true :=
    ⟨fun hk => hk.elim (fun he => by rw [he, hv]) id, Or.inr⟩
  rw [follows_iff hext]
  simp only [Modifiers.on, move, act, make_shift h, hkey, true_and]
  rw [Modifiers.onMake_caps, ← hcaps, ne_eq, eq_comm (b := capsLock)]
  split_ifs with hlock
  · cases s.keyboard.modifiers.caps_on <;> simp [hlock]
  · simp [hlock]

/-- The flag is the same for both Shift keys, so the one that comes up clears it. -/
theorem release_follows_iff (h : s.Follows) (hext : s.keyboard.ext_prefix = false) (c : KeyCode) :
    (s.step (.plain .release c)).1.Follows ↔ s.Unambiguous (.plain .release c) := by
  obtain ⟨hshift, hcaps⟩ := h.flags
  have hne : leftShift ≠ rightShift := by decide
  rw [follows_iff hext]
  simp only [Modifiers.on, move, act, held_release, Modifiers.onBreak_shift, Modifiers.onBreak_caps, hshift,
    hcaps, Unambiguous, and_true]
  rw [eq_comm (b := leftShift), eq_comm (b := rightShift), ← Bool.not_eq_true, ← Bool.not_eq_true]
  by_cases hleft : leftShift = (false, c.code)
  · have hright : rightShift ≠ (false, c.code) := fun he => hne (hleft.trans he.symm)
    simp [hleft, hright]
  · by_cases hright : rightShift = (false, c.code)
    · simp [hleft, hright]
    · simp [hleft, hright]

theorem move_extended_held (a : KeyAction) (c : KeyCode) (before after : List FakeShift) (code : Byte) :
    (s.move (.extended a c before after)).held (false, code) = s.held (false, code) := by
  have hne : (false, code) ≠ (true, c.code) := fun he => by cases congrArg Prod.fst he
  cases a with
  | press => exact Function.update_of_ne hne true s.held
  | typematic => rfl
  | release => exact Function.update_of_ne hne false s.held

theorem move_extended_presses (a : KeyAction) (c : KeyCode) (before after : List FakeShift) :
    (s.move (.extended a c before after)).caps_presses = s.caps_presses := by
  have hne : (true, c.code) ≠ capsLock := fun he => by cases congrArg Prod.fst he
  cases a with
  | press =>
    dsimp only [move, act]
    rw [if_neg hne]
  | typematic => rfl
  | release => rfl

theorem stroke_follows_iff (s : Typist) (e : KeyStroke) (h : s.Follows ∧ s.keyboard.ext_prefix = false)
    (hv : s.Valid e) : (s.step e).1.Follows ↔ s.Unambiguous e := by
  cases e with
  | plain a c =>
    cases a with
    | press => exact iff_of_true (press_follows h.1 h.2 c) trivial
    | typematic => exact typematic_follows_iff h.1 h.2 hv
    | release => exact release_follows_iff h.1 h.2 c
  | extended a c before after =>
    apply iff_of_true _ trivial
    apply (follows_iff h.2 _).mpr
    rw [leftShift, rightShift, move_extended_held, move_extended_held, move_extended_presses]
    exact ⟨h.1.shift, h.1.caps⟩
  | pause => exact iff_of_true ((follows_iff h.2 _).mpr ⟨h.1.shift, h.1.caps⟩) trivial

/-- No key is held and the flags are clear. -/
def boot (key_buffer : ℤ → Byte) (key_head key_tail : ℤ) : Typist :=
  ⟨⟨key_buffer, key_head, key_tail, false, false, false⟩, fun _ => false, 0⟩

/-- The modifiers follow the keys after every event of a run exactly when no Shift comes up
while the other one is held and Caps Lock never repeats. -/
theorem modifiers_follow_iff (key_buffer : ℤ → Byte) (key_head key_tail : ℤ) (es : List KeyStroke)
    (hv : Along step Valid (boot key_buffer key_head key_tail) es) :
    Along step (fun s e => (s.step e).1.Follows) (boot key_buffer key_head key_tail) es ↔
      Along step Unambiguous (boot key_buffer key_head key_tail) es := by
  have hboot : (boot key_buffer key_head key_tail).Follows := by
    refine ⟨?_, ?_⟩
    · simp [boot]
    · simp [boot]
  exact along_iff_of_invariant (fun s => s.Follows ∧ s.keyboard.ext_prefix = false) stroke_follows_iff
    (fun _ e hs _ hf => ⟨hf, step_ext_prefix hs.2 e⟩) ⟨hboot, rfl⟩ hv

def leftShiftKey : KeyCode := ⟨0x2A, by decide, by decide⟩
def rightShiftKey : KeyCode := ⟨0x36, by decide, by decide⟩
def capsLockKey : KeyCode := ⟨0x3A, by decide, by decide⟩

theorem modifiers_follow_shift :
    let es : List KeyStroke := [.plain .press leftShiftKey,
      .extended .press ⟨0x48, by decide, by decide⟩ [⟨false, true⟩] [], .plain .typematic leftShiftKey,
      .plain .release leftShiftKey]
    Along step Valid (boot (fun _ => 0) 0 0) es ∧
      Along step (fun s e => (s.step e).1.Follows) (boot (fun _ => 0) 0 0) es := by
  intro es
  have hv : Along step Valid (boot (fun _ => 0) 0 0) es := ⟨rfl, rfl, rfl, rfl, trivial⟩
  refine ⟨hv, (modifiers_follow_iff _ 0 0 es hv).mpr ⟨trivial, trivial, ?_, ⟨fun _ => rfl, ?_⟩, trivial⟩⟩
  · exact fun he => by cases congrArg Prod.snd he
  · exact fun he => by cases congrArg Prod.snd he

/-- Both Shift keys held and one of them released; Caps Lock held until it repeats. -/
theorem modifiers_lost :
    let shifts : List KeyStroke := [.plain .press leftShiftKey, .plain .press rightShiftKey,
      .plain .release leftShiftKey]
    let caps : List KeyStroke := [.plain .press capsLockKey, .plain .typematic capsLockKey]
    (Along step Valid (boot (fun _ => 0) 0 0) shifts ∧
      ¬Along step (fun s e => (s.step e).1.Follows) (boot (fun _ => 0) 0 0) shifts) ∧
      Along step Valid (boot (fun _ => 0) 0 0) caps ∧
        ¬Along step (fun s e => (s.step e).1.Follows) (boot (fun _ => 0) 0 0) caps := by
  refine ⟨⟨⟨rfl, rfl, rfl, trivial⟩, fun h => ?_⟩, ⟨rfl, rfl, trivial⟩, fun h => ?_⟩
  · have hshift := h.2.2.1.shift.mpr (Or.inr rfl)
    exact absurd hshift (by decide)
  · have hcaps := h.2.1.caps.mpr rfl
    exact absurd hcaps (by decide)

end Typist

end FrodOS
