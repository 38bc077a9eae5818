import FrodOS.Frodfs.Storage
import FrodOS.Lib.Run

/-!
# The interval timer and the speaker (timer.c, speaker.c)

Both drivers program one chip: channel 0 gives the ticks, channel 2 the tone, and a command
byte goes to the same port for both. Port 0x61 connects channel 2 to the speaker; its other
bits belong to other devices.
-/

namespace FrodOS
open Lib

/-! ### The ports -/

structure PitChannel where
  /-- 1: low byte, 2: high byte, 3: low byte, then high byte -/
  access : BitVec 2
  mode : BitVec 3
  /-- The low byte of a count whose high byte has not come yet. -/
  pending : Option Byte
  count : BitVec 16

namespace PitChannel

def load (c : PitChannel) (val : Byte) : PitChannel :=
  match c.access with
  | 1 => { c with count := 0#8 ++ val }
  | 2 => { c with count := val ++ 0#8 }
  | 3 =>
    match c.pending with
    | none => { c with pending := some val }
    | some low => { c with pending := none, count := val ++ low }
  | _ => c

def command (c : PitChannel) (access : BitVec 2) (mode : BitVec 3) : PitChannel :=
  { c with access := access, mode := mode, pending := none }

/-- A count of zero stands for the largest one. -/
def divisor (c : PitChannel) : ℕ := if c.count = 0 then 65536 else c.count.toNat

end PitChannel

structure Ports where
  pit : Fin 3 → PitChannel
  port61 : Byte

namespace Ports

/-- The command byte 0x43: channel, access and mode. A read-back or latch command
programs nothing. -/
def command (p : Ports) (val : Byte) : Ports :=
  let channel := (val.extractLsb' 6 2).toNat
  let access := val.extractLsb' 4 2
  if h : channel < 3 then
    if access = 0 then p
    else
      let c := (p.pit ⟨channel, h⟩).command access (val.extractLsb' 1 3)
      { p with pit := Function.update p.pit ⟨channel, h⟩ c }
  else p

def outb (p : Ports) (port : BitVec 16) (val : Byte) : Ports :=
  match port with
  | 0x40 => { p with pit := Function.update p.pit 0 ((p.pit 0).load val) }
  | 0x41 => { p with pit := Function.update p.pit 1 ((p.pit 1).load val) }
  | 0x42 => { p with pit := Function.update p.pit 2 ((p.pit 2).load val) }
  | 0x43 => p.command val
  | 0x61 => { p with port61 := val }
  | _ => p

/-! ### The drivers -/

def timerInit (p : Ports) : Ports :=
  let divisor : U32 := 1193182 / 100
  let p := p.outb 0x43 0x36
  let p := p.outb 0x40 ((divisor &&& 0xFF).setWidth 8)
  p.outb 0x40 (((divisor >>> 8) &&& 0xFF).setWidth 8)

def playSound (p : Ports) (nFrequence : U32) : Ports :=
  let div := 1193180 / nFrequence
  let p := p.outb 0x43 0xB6
  let p := p.outb 0x42 (div.setWidth 8)
  let p := p.outb 0x42 ((div >>> 8).setWidth 8)
  let tmp := p.port61
  if tmp ≠ tmp ||| 3 then p.outb 0x61 (tmp ||| 3) else p

def nosound (p : Ports) : Ports :=
  let tmp := p.port61 &&& 0xFC
  p.outb 0x61 tmp

/-- `beep`; the delay in the middle is left out. -/
def beep (p : Ports) : Ports := (p.playSound 1000).nosound

end Ports

/-- Nobody calls `play_sound` with 0: the system call checks its argument. -/
inductive SoundCall where
  | playSound (hz : U32) (h : 0 < hz)
  | nosound
  | beep

namespace SoundCall

def run (p : Ports) : SoundCall → Ports
  | .playSound hz _ => p.playSound hz
  | .nosound => p.nosound
  | .beep => p.beep

/-- Whether the speaker is on after the call, if it was `on` before. -/
def sounds : SoundCall → Bool
  | .playSound _ _ => true
  | .nosound => false
  | .beep => false

/-- The frequency that the call asks for. -/
def tone (last : Option U32) : SoundCall → Option U32
  | .playSound hz _ => some hz
  | .nosound => last
  | .beep => some 1000

end SoundCall

/-! ### What one call does -/

/-- A channel as `play_sound` leaves it, whatever was going on in it. -/
def soundChannel (hz : U32) : PitChannel := ⟨3, 3, none, (1193180 / hz).setWidth 16⟩

/-- 100 interrupts a second, as near as the clock of 1193182 Hz can come to it. -/
def tickChannel : PitChannel := ⟨3, 3, none, 11931⟩

namespace PitChannel

theorem load_command (c : PitChannel) (mode : BitVec 3) (low high : Byte) :
    ((c.command 3 mode).load low).load high = ⟨3, mode, none, high ++ low⟩ := rfl

theorem bytes_append (v : U32) : ((v >>> 8).setWidth 8 : Byte) ++ (v.setWidth 8 : Byte) = v.setWidth 16 := by
  apply BitVec.eq_of_getLsbD_eq
  intro i hi
  rw [BitVec.getLsbD_append]
  split_ifs with hlow
  · simp [hlow, hi]
  · simp [show i - 8 < 8 by omega, show 8 + (i - 8) = i by omega, hi]

end PitChannel

namespace Ports

theorem outb_ticks (p : Ports) (val : Byte) :
    p.outb 0x40 val = { p with pit := Function.update p.pit 0 ((p.pit 0).load val) } := rfl

theorem outb_sound (p : Ports) (val : Byte) :
    p.outb 0x42 val = { p with pit := Function.update p.pit 2 ((p.pit 2).load val) } := rfl

theorem outb_speaker (p : Ports) (val : Byte) : p.outb 0x61 val = { p with port61 := val } := rfl

theorem timerInit_eq (p : Ports) : p.timerInit = { p with pit := Function.update p.pit 0 tickChannel } := by
  have hcommand : p.outb 0x43 0x36 = { p with pit := Function.update p.pit 0 ((p.pit 0).command 3 3) } := rfl
  simp only [timerInit, hcommand, outb_ticks, Function.update_self, Function.update_idem,
    PitChannel.load_command]
  rfl

theorem timerInit_pit (p : Ports) : p.timerInit.pit = Function.update p.pit 0 tickChannel := by
  rw [timerInit_eq]

theorem playSound_eq (p : Ports) (hz : U32) :
    p.playSound hz = ⟨Function.update p.pit 2 (soundChannel hz), p.port61 ||| 3⟩ := by
  have hcommand : p.outb 0x43 0xB6 = { p with pit := Function.update p.pit 2 ((p.pit 2).command 3 3) } := rfl
  simp only [playSound, hcommand, outb_sound, outb_speaker, Function.update_self, Function.update_idem,
    PitChannel.load_command, PitChannel.bytes_append]
  split_ifs with hset
  · rfl
  · rw [← not_ne_iff.mp hset]
    rfl

theorem playSound_pit (p : Ports) (hz : U32) :
    (p.playSound hz).pit = Function.update p.pit 2 (soundChannel hz) := by rw [playSound_eq]

theorem playSound_port61 (p : Ports) (hz : U32) : (p.playSound hz).port61 = p.port61 ||| 3 := by
  rw [playSound_eq]

theorem nosound_eq (p : Ports) : p.nosound = { p with port61 := p.port61 &&& 0xFC } := rfl

end Ports

/-- The chip and the port after calls on `p`: `tone` is the frequency asked for last and `on`
whether the speaker was switched on or off last, if at all. -/
structure Sounding (p : Ports) (tone : Option U32) (on : Option Bool) (q : Ports) : Prop where
  ticks : q.pit 0 = p.pit 0
  refresh : q.pit 1 = p.pit 1
  sound : q.pit 2 = (tone.map soundChannel).getD (p.pit 2)
  others : q.port61 &&& 0xFC = p.port61 &&& 0xFC
  speaker : q.port61 &&& 3 = (on.map fun b => if b then 3 else 0).getD (p.port61 &&& 3)

namespace Sounding

variable {p q : Ports} {tone : Option U32} {on : Option Bool}

theorem start (p : Ports) : Sounding p none none p := ⟨rfl, rfl, rfl, rfl, rfl⟩

theorem playSound (h : Sounding p tone on q) (hz : U32) :
    Sounding p (some hz) (some true) (q.playSound hz) := by
  have hothers : ∀ v : Byte, (v ||| 3) &&& 0xFC = v &&& 0xFC := by decide
  have hspeaker : ∀ v : Byte, (v ||| 3) &&& 3 = 3 := by decide
  refine ⟨?_, ?_, ?_, ?_, ?_⟩
  · rw [Ports.playSound_pit, Function.update_of_ne (by decide), h.ticks]
  · rw [Ports.playSound_pit, Function.update_of_ne (by decide), h.refresh]
  · rw [Ports.playSound_pit, Function.update_self]
    rfl
  · rw [Ports.playSound_port61, hothers, h.others]
  · rw [Ports.playSound_port61, hspeaker]
    rfl

theorem nosound (h : Sounding p tone on q) : Sounding p tone (some false) q.nosound := by
  have hothers : ∀ v : Byte, (v &&& 0xFC) &&& 0xFC = v &&& 0xFC := by decide
  have hspeaker : ∀ v : Byte, (v &&& 0xFC) &&& 3 = 0 := by decide
  rw [Ports.nosound_eq]
  exact ⟨h.ticks, h.refresh, h.sound, (hothers _).trans h.others, hspeaker _⟩

theorem run (h : Sounding p tone on q) (call : SoundCall) :
    Sounding p (call.tone tone) (some call.sounds) (call.run q) := by
  cases call with
  | playSound hz => exact h.playSound hz
  | nosound => exact h.nosound
  | beep => exact (h.playSound 1000).nosound

theorem calls (h : Sounding p tone on q) (calls : List SoundCall) :
    Sounding p (calls.foldl SoundCall.tone tone) ((calls.getLast?.map SoundCall.sounds).or on)
      (calls.foldl SoundCall.run q) := by
  induction calls generalizing q tone on with
  | nil => exact h
  | cons call calls ih =>
    have hrest := ih (h.run call)
    cases calls with
    | nil => exact hrest
    | cons next calls =>
      rw [List.getLast?_cons_cons]
      obtain ⟨last, hlast⟩ := Option.isSome_iff_exists.mp (List.getLast?_isSome.mpr (List.cons_ne_nil next calls))
      rw [hlast] at hrest ⊢
      exact hrest

end Sounding

end FrodOS
