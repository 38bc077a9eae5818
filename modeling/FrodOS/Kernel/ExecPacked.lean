import FrodOS.Kernel.Userland
import FrodOS.Kernel.ExecBounds
import FrodOS.Frodfs.Held
import FrodOS.Sdk.Packer

/-!
# From the packer to user mode

The packer and exec share the header and nothing else: exec copies all that follows
it as one block, and the offsets of the header only describe the file.
-/

namespace FrodOS
open Lib

/-! ### Launching it -/

def ExecFinds (k : Kernel) (app_name : U32) (file : List Byte) : Prop :=
  userPtrOk app_name = true ∧
    ∃ i, FirstNamed k.storage (view k.mem app_name) i ∧ (k.storage i).bytes = file

def pagesFrom (base : U32) (n : ℕ) : List U32 := (List.range n).map fun j => off base (j * 4096)

/-- The program of header `h` runs, with its pages asked for and its payload in place. -/
structure Launched (k : Kernel) (h : FxeHeader) (payload : List Byte) (o : Outcome) : Prop where
  control : o.control = .userMode h.entry_point userStack
  mapped : o.mapped.map Prod.fst =
    pagesFrom h.entry_point h.appPages.toNat ++ pagesFrom stackVirtualBase h.stackPages.toNat
  spent : Spent k h.frames o.kernel
  copied : ∀ j (hj : j < payload.length), o.kernel.mem (off h.entry_point j) = payload[j]
  outside : ∀ a : U32, 0x90000 ≤ a.toNat → a ∉ span h.entry_point payload.length →
    o.kernel.mem a = k.mem a

theorem allocAndMap_pages {base : U32} {left : ℕ} {k : Kernel} (h : left ≤ available k.bitmap) :
    (allocAndMap base left 0 k).mapped.map Prod.fst = pagesFrom base left := by
  obtain ⟨_, hmap, _⟩ := allocAndMap_spec base left 0 k
  rw [hmap, Nat.min_eq_left h, pagesFrom]
  simp only [Nat.zero_add]

theorem mapped_pages {k : Kernel} {h : FxeHeader} (hframes : h.frames ≤ available k.bitmap) :
    ((mapImage k h).mapped ++ (mapStack k h).mapped).map Prod.fst =
      pagesFrom h.entry_point h.appPages.toNat ++ pagesFrom stackVirtualBase h.stackPages.toNat := by
  unfold FxeHeader.frames at hframes
  obtain ⟨hok, _, hleft⟩ := allocAndMap_spec h.entry_point h.appPages.toNat 0 k
  have hav := (hleft (hok.mpr (by omega))).1
  have himage : (mapImage k h).mapped.map Prod.fst = _ := allocAndMap_pages (by omega)
  have hstack : (mapStack k h).mapped.map Prod.fst = _ := allocAndMap_pages (by
    change available (mapImage k h).kernel.bitmap + _ = _ at hav
    omega)
  rw [List.map_append, himage, hstack]

/-- Above the locals of the call the payload is copied and nothing else changes. -/
theorem execJump_mem (frame : ExecFrame) {k : Kernel} {h : FxeHeader} (mapped : List (U32 × U32)) {n : ℕ}
    (hn : (load32 k.mem frame.file_size - 32).toNat = n) (hbuf : 32 + n ≤ 4096)
    (habove : 0x90000 ≤ h.entry_point.toNat) (hfit : Fits h.entry_point n) :
    (∀ j < n, (execJump frame k h mapped).kernel.mem (off h.entry_point j) =
        k.mem (off frame.file_buf (32 + j))) ∧
      (∀ a ∉ span h.entry_point n, (execJump frame k h mapped).kernel.mem a = k.mem a) ∧
      (execJump frame k h mapped).control =
        .userMode (fxeHeader (view k.mem frame.file_buf)).entry_point userStack := by
  have hbelow := frame.buf_below
  have hsrc : Fits (off frame.file_buf 32) n := by
    unfold Fits
    rw [frame.buf_off (by omega)]
    omega
  have hinside : ∀ j < n, (execJump frame k h mapped).kernel.mem (off h.entry_point j) =
      k.mem (off frame.file_buf (32 + j)) := fun j hj => by
    rw [← off_off]
    exact kernelMemmove_inside k.mem (hn ▸ hfit) (hn ▸ hsrc) (hn ▸ hj)
  have hout : ∀ a ∉ span h.entry_point n, (execJump frame k h mapped).kernel.mem a = k.mem a := by
    intro a ha
    refine kernelMemmove_outside k.mem _ _ _ fun hc => ha ?_
    rw [kernelMemmove_copied] at hc
    split_ifs at hc
    · cases hc
    · rwa [hn] at hc
  refine ⟨hinside, hout, congrArg (fun e => Control.userMode e userStack) ?_⟩
  -- the header is read again where the copy has not been
  refine congrArg FxeHeader.entry_point (fxeHeader_congr _ _ fun j hj => hout _ fun hc => ?_)
  obtain ⟨l, hl, he⟩ := mem_span.mp hc
  have hnat := congrArg BitVec.toNat he
  unfold Fits at hfit
  rw [frame.buf_off (by omega), off_toNat _ _ (by omega)] at hnat
  omega

theorem execLoaded_above (frame : ExecFrame) (k : Kernel) (i : Fin 32) {a : U32}
    (ha : 0x90000 ≤ a.toNat) : execLoaded frame k i a = k.mem a := by
  have hle := (k.storage i).size_le
  have hbuf := frame.buf_below
  have hsize := frame.size_below
  have hbuf_ne : ∀ j < 4096, a ≠ off frame.file_buf j := fun j hj he => by
    rw [he, frame.buf_off hj] at ha
    omega
  have hsize_ne : a ∉ span frame.file_size 4 := fun hc => by
    obtain ⟨j, hj, rfl⟩ := mem_span.mp hc
    rw [frame.size_off hj] at ha
    omega
  rw [execLoaded, store32_outside _ _ _ hsize_ne, writeBytes_outside _ _ _ _ _ fun j hj => hbuf_ne j (by omega),
    execClear, writeBytes_outside _ _ _ _ _ hbuf_ne, store32_outside _ _ _ hsize_ne]

theorem sysExec_launched (frame : ExecFrame) {k : Kernel} {regs : SyscallRegs} {h : FxeHeader}
    {payload : List Byte} (hm : h.magic = fxeMagic) (hfind : ExecFinds k regs.ebx (h.encode ++ payload))
    (hframes : h.frames ≤ available k.bitmap) (habove : 0x90000 ≤ h.entry_point.toNat)
    (hfit : Fits h.entry_point payload.length) : Launched k h payload (sysExec frame k regs) := by
  obtain ⟨huser, i, hi, hbytes⟩ := hfind
  have hencode : h.encode.length = 32 := by rw [h.encode_length, hm]; rfl
  have hsize : (k.storage i).size.toNat = 32 + payload.length := by
    rw [← FrodfsEntry.bytes_length, hbytes, List.length_append, hencode]
  have hdata : ∀ j < 32 + payload.length, (k.storage i).dataView j = (h.encode ++ payload).getD j 0 :=
    fun j hj => by rw [dataView_eq_getD _ (by omega), hbytes]
  have hheader : fxeHeader (k.storage i).dataView = h := fxeHeader_encode hm fun j hj => by
    rw [hdata j (by omega), List.getD_append _ _ _ _ (by omega)]
  have hx : Executable k.storage k.mem regs.ebx i := ⟨huser, hi, by omega, by rw [hheader, hm]⟩
  have hword : ((k.storage i).size - 32).toNat = payload.length := by
    rw [BitVec.toNat_sub_of_le (show (32 : U32) ≤ _ from hx.size), hsize]
    exact Nat.add_sub_cancel_left ..
  have hload : ∀ j < 32 + payload.length,
      execLoaded frame k i (off frame.file_buf j) = (h.encode ++ payload).getD j 0 :=
    fun j hj => (execLoaded_bytes frame k i (by omega)).trans (hdata j hj)
  have hloaded : fxeHeader (view (execLoaded frame k i) frame.file_buf) = h :=
    fxeHeader_encode hm fun j hj => by
      rw [view, hload j (by omega), List.getD_append _ _ _ _ (by omega)]
  let k₁ : Kernel := { k with mem := execLoaded frame k i }
  rcases execImage_cases frame k₁ h with ⟨hshort, _⟩ | ⟨hav, hcard, hsame, he⟩
  · change available k.bitmap < _ at hshort
    omega
  · have hmem : (mapStack k₁ h).kernel.mem = execLoaded frame k i := hsame.mem
    have hle := (k.storage i).size_le
    obtain ⟨hin, hout, hcontrol⟩ := execJump_mem frame (k := (mapStack k₁ h).kernel) (h := h)
      ((mapImage k₁ h).mapped ++ (mapStack k₁ h).mapped) (n := payload.length)
      (by rw [hmem, execLoaded_size, hword]) (by omega) habove hfit
    rw [← he, ← hheader, ← sysExec_valid frame k regs hx, hheader, hmem] at hin hout hcontrol
    refine ⟨?_, ?_, ?_, ?_, ?_⟩
    · rw [hcontrol, hloaded]
    · rw [sysExec_valid frame k regs hx, hheader, he]
      exact mapped_pages hframes
    · rw [sysExec_valid frame k regs hx, hheader, he]
      exact ⟨hcard, hav, hsame.ramfs_start, hsame.ramfs_end⟩
    · intro j hj
      rw [hin j hj, hload _ (by omega), List.getD_append_right _ _ _ _ (by omega), hencode,
        Nat.add_sub_cancel_left, List.getD_eq_getElem]
    · intro a ha hspan
      rw [hout a hspan]
      exact execLoaded_above frame k i ha

/-! ### Packed, stored and run -/

/-- A run of the packer that finds the text file, the output and memory for its copies. -/
structure Packs (r : PackerRun) (text : List Byte) : Prop where
  args : 4 ≤ r.argc
  text : r.f_text = some text
  out : r.f_out = true
  text_buf : r.text_buf = true
  data_buf : r.data_buf = true

/-- The program runs in pages of its own for both sections, the bss and the stack, with
each section where its offset from the first one says. -/
structure Placed (k : Kernel) (h : FxeHeader) (text data : List Byte) (o : Outcome) : Prop where
  control : o.control = .userMode h.entry_point userStack
  mapped : o.mapped.map Prod.fst =
    pagesFrom h.entry_point (imagePages text.length data.length) ++ pagesFrom stackVirtualBase 4
  spent : Spent k (imagePages text.length data.length + 4) o.kernel
  text : ∀ j (hj : j < text.length), o.kernel.mem (off h.entry_point j) = text[j]
  data : ∀ j (hj : j < data.length),
    o.kernel.mem (off (h.entry_point + h.data_offset - h.text_offset) j) = data[j]

theorem fxePacker_packs {r : PackerRun} {text : List Byte} (hr : Packs r text)
    (ht : text.length < 2 ^ 32) (hd : r.data.length < 2 ^ 32) :
    fxePacker r = (0, some ((packerHeader (BitVec.ofNat 32 text.length)
      (BitVec.ofNat 32 r.data.length)).encode ++ (text ++ r.data))) := by
  refine (fxePacker_done_iff r _).mpr ⟨hr.args, hr.out, text, hr.text, ?_⟩
  rw [r.payload_copied hr.text_buf hr.data_buf ht hd, r.dataSize_eq]
  rfl

theorem sysExec_placed (frame : ExecFrame) {k : Kernel} {regs : SyscallRegs} {text data : List Byte}
    (hsize : text.length + data.length ≤ 4064)
    (hfind : ExecFinds k regs.ebx ((packerHeader (BitVec.ofNat 32 text.length)
      (BitVec.ofNat 32 data.length)).encode ++ (text ++ data)))
    (hframes : imagePages text.length data.length + 4 ≤ available k.bitmap) :
    Placed k (packerHeader (BitVec.ofNat 32 text.length) (BitVec.ofNat 32 data.length)) text data
      (sysExec frame k regs) := by
  have ht : (BitVec.ofNat 32 text.length).toNat = text.length := by
    rw [BitVec.toNat_ofNat, Nat.mod_eq_of_lt (by omega)]
  have hd : (BitVec.ofNat 32 data.length).toNat = data.length := by
    rw [BitVec.toNat_ofNat, Nat.mod_eq_of_lt (by omega)]
  have happ := packerHeader_appPages (t := BitVec.ofNat 32 text.length)
    (d := BitVec.ofNat 32 data.length) (by omega)
  have hstack := packerHeader_stackPages (BitVec.ofNat 32 text.length) (BitVec.ofNat 32 data.length)
  rw [ht, hd] at happ
  have hall : FxeHeader.frames (packerHeader (BitVec.ofNat 32 text.length) (BitVec.ofNat 32 data.length)) =
      imagePages text.length data.length + 4 := by rw [FxeHeader.frames, happ, hstack]
  have hlen : (text ++ data).length ≤ 4064 := by
    rw [List.length_append]
    exact hsize
  have hl := sysExec_launched frame rfl hfind (hall ▸ hframes)
    (show 0x90000 ≤ (0x6000000 : U32).toNat by decide)
    (show 0x6000000 + (text ++ data).length ≤ 2 ^ 32 by omega)
  have hmapped := hl.mapped
  have hspent := hl.spent
  rw [happ, hstack] at hmapped
  rw [hall] at hspent
  refine ⟨hl.control, hmapped, hspent, fun j hj => ?_, fun j hj => ?_⟩
  · rw [hl.copied j (by rw [List.length_append]; omega), List.getElem_append_left hj]
  · rw [packerHeader_dataAt]
    change (sysExec frame k regs).kernel.mem (off (off _ text.length) j) = _
    rw [off_off, hl.copied (text.length + j) (by rw [List.length_append]; omega),
      List.getElem_append_right (by omega)]
    simp only [Nat.add_sub_cancel_left]

/-- The packer and the kernel agree on the format: what is packed is cut back into its
sections by its header, and once stored it runs with both of them in place. -/
theorem fxePacker_round_trip {r : PackerRun} {text : List Byte} (hr : Packs r text)
    (hsize : 32 + text.length + r.data.length ≤ 4096) :
    ∃ file, fxePacker r = (0, some file) ∧ file.length = 32 + text.length + r.data.length ∧
      let h := fxeHeader fun j => file.getD j 0
      h.textOf file = text ∧ h.dataOf file = r.data ∧
      ∀ (s : Storage) (n : List Byte) (name name' source : View), FreshName s n → IsCStr name n →
        IsCStr name' n → (∀ j < file.length, source j = file.getD j 0) →
        let c := frodfsCreate s (some name)
        let w := frodfsWrite c.2.1 (some name') (some source) (BitVec.ofNat 32 file.length)
        c.1 = 0 ∧ w.1 = 0 ∧ ∀ (frame : ExecFrame) (k : Kernel) (regs : SyscallRegs),
          k.storage = w.2.1 → userPtrOk regs.ebx = true → IsCStr (view k.mem regs.ebx) n →
          imagePages text.length r.data.length + 4 ≤ available k.bitmap →
            Placed k h text r.data (sysExec frame k regs) := by
  let h := packerHeader (BitVec.ofNat 32 text.length) (BitVec.ofNat 32 r.data.length)
  have hencode : h.encode.length = 32 := h.encode_length
  have hlen : (h.encode ++ (text ++ r.data)).length = 32 + text.length + r.data.length := by
    rw [List.length_append, List.length_append, hencode, Nat.add_assoc]
  have hheader : (fxeHeader fun j => (h.encode ++ (text ++ r.data)).getD j 0) = h := fxeHeader_packed ..
  refine ⟨h.encode ++ (text ++ r.data), fxePacker_packs hr (by omega) (by omega), hlen, ?_⟩
  simp only [hheader]
  refine ⟨?_, ?_, fun s n name name' source hfresh hname hname' hsource => ?_⟩
  · exact packerHeader_textOf (by omega) hencode
  · exact packerHeader_dataOf (by omega) hencode
  · obtain ⟨i, hc, hi⟩ := frodfsCreate_fresh hfresh hname
    obtain ⟨hw, hheld⟩ := frodfsWrite_file hi (by omega) hname' hsource
    refine ⟨hc, hw, fun frame k regs hk huser hn hframes => ?_⟩
    refine sysExec_placed frame (by omega) ⟨huser, i, ?_, ?_⟩ hframes
    · rw [hk]
      exact hheld.firstNamed hn
    · rw [hk]
      exact hheld.bytes

def oneInstruction : PackerRun where
  argc := 4
  data_name := noneName
  f_text := some [0xC3]
  f_data := none
  f_out := true
  text_buf := true
  data_buf := true

theorem fxePacker_round_trip_one : ∃ file s, fxePacker oneInstruction = (0, some file) ∧
    (sysExec demoFrame { kernelA [] (by decide) with storage := s } execA).kernel.mem
      (off (fxeHeader fun j => file.getD j 0).entry_point 0) = 0xC3 := by
  have hpacks : Packs oneInstruction [0xC3] := ⟨by decide, rfl, rfl, rfl, rfl⟩
  obtain ⟨file, hfile, _, _, _, hrun⟩ := fxePacker_round_trip hpacks (by decide)
  have hfresh : FreshName bootStorage [97] :=
    ⟨by decide, by decide, fun _ hu => absurd hu Bool.false_ne_true, ⟨0, rfl⟩⟩
  have hcstr : IsCStr (cstr [97]) [97] := isCStr_cstr [97] (by decide)
  have hname : IsCStr (view (kernelA [] (by decide)).mem execA.ebx) [97] :=
    .of_leading 31 (by decide) (by decide)
  have havail : 6 ≤ available (kernelA [] (by decide)).bitmap :=
    le_available (by decide) {256, 257, 258, 259, 260, 261} (by decide)
  obtain ⟨_, _, hexec⟩ := hrun bootStorage [97] (cstr [97]) (cstr [97]) (fun j => file.getD j 0) hfresh
    hcstr hcstr fun _ _ => rfl
  have hplaced := hexec demoFrame { kernelA [] (by decide) with storage := _ } execA rfl (by decide)
    hname havail
  exact ⟨file, _, hfile, hplaced.text 0 (by decide)⟩

/-! ### What else is in its memory -/

def FxeHeader.declared (h : FxeHeader) : ℕ := h.text_size.toNat + h.data_size.toNat + h.bss_size.toNat

/-- The program sees its payload, and behind it what was there before the call. -/
theorem sysExec_declared (frame : ExecFrame) {k : Kernel} {regs : SyscallRegs} {t d : U32}
    {payload : List Byte} (hfind : ExecFinds k regs.ebx ((packerHeader t d).encode ++ payload))
    (hlen : payload.length ≤ t.toNat + d.toNat) (hframes : imagePages t.toNat d.toNat + 4 ≤ available k.bitmap)
    {j : ℕ} (hj : j < (packerHeader t d).declared) :
    (sysExec frame k regs).kernel.mem (off (packerHeader t d).entry_point j) =
      payload.getD j (k.mem (off (packerHeader t d).entry_point j)) := by
  have hdeclared : (packerHeader t d).declared = t.toNat + d.toNat + 4096 := rfl
  have hentry : (packerHeader t d).entry_point.toNat = 0x6000000 := rfl
  have hpages := available_le k.bitmap
  have hsmall : t.toNat + d.toNat + 4096 + 4095 < 2 ^ 28 := by
    unfold imagePages at hframes
    omega
  have hall : (packerHeader t d).frames = imagePages t.toNat d.toNat + 4 := by
    rw [FxeHeader.frames, packerHeader_appPages (by omega), packerHeader_stackPages]
  have hl := sysExec_launched frame rfl hfind (by omega) (by omega)
    (show (packerHeader t d).entry_point.toNat + payload.length ≤ 2 ^ 32 by omega)
  by_cases hin : j < payload.length
  · rw [hl.copied j hin, List.getD_eq_getElem]
  · rw [List.getD_eq_default _ _ (by omega)]
    refine hl.outside _ (by rw [off_toNat _ _ (by omega)]; omega) fun hc => hin ?_
    obtain ⟨i, hi, he⟩ := mem_span.mp hc
    rwa [off_inj _ i j (by omega) (by omega) he] at hi

/-- What a packed program finds in the range it declares depends on what ran before it
exactly as far as the bytes behind its payload do: exec clears none of them. -/
theorem sysExec_hides_iff {r : PackerRun} {file : List Byte} (hr : fxePacker r = (0, some file))
    (frame : ExecFrame) {k₁ k₂ : Kernel} {regs₁ regs₂ : SyscallRegs} (h₁ : ExecFinds k₁ regs₁.ebx file)
    (h₂ : ExecFinds k₂ regs₂.ebx file) :
    let h := fxeHeader fun j => file.getD j 0
    imagePages h.text_size.toNat h.data_size.toNat + 4 ≤ available k₁.bitmap →
    imagePages h.text_size.toNat h.data_size.toNat + 4 ≤ available k₂.bitmap →
    ((∀ j < h.declared, (sysExec frame k₁ regs₁).kernel.mem (off h.entry_point j) =
          (sysExec frame k₂ regs₂).kernel.mem (off h.entry_point j) ∧
        (h.text_size.toNat + h.data_size.toNat ≤ j →
          (sysExec frame k₁ regs₁).kernel.mem (off h.entry_point j) = 0)) ↔
      ∀ j < h.declared, file.length - 32 ≤ j →
        k₁.mem (off h.entry_point j) = k₂.mem (off h.entry_point j) ∧
          (h.text_size.toNat + h.data_size.toNat ≤ j → k₁.mem (off h.entry_point j) = 0)) := by
  obtain ⟨_, _, text, _, rfl⟩ := (fxePacker_done_iff r file).mp hr
  have hle := r.payload_length_le text
  clear hr
  generalize PackerRun.textSize text = t, r.dataSize = d, r.payload text = payload at *
  have hencode : (packerHeader t d).encode.length = 32 := FxeHeader.encode_length _
  have hheader := fxeHeader_packed t d payload
  have hpayload : ((packerHeader t d).encode ++ payload).length - 32 = payload.length := by
    rw [List.length_append, hencode, Nat.add_sub_cancel_left]
  simp only [hheader, hpayload]
  intro hf₁ hf₂
  have hsees₁ := fun j => sysExec_declared frame h₁ hle hf₁ (j := j)
  have hsees₂ := fun j => sysExec_declared frame h₂ hle hf₂ (j := j)
  constructor
  · intro hall j hj hout
    have hj' := hall j hj
    rwa [hsees₁ j hj, hsees₂ j hj, List.getD_eq_default _ _ hout, List.getD_eq_default _ _ hout] at hj'
  · intro hall j hj
    rw [hsees₁ j hj, hsees₂ j hj]
    by_cases hin : j < payload.length
    · rw [List.getD_eq_getElem _ _ hin, List.getD_eq_getElem _ _ hin]
      exact ⟨rfl, fun hbss => absurd (hle.trans hbss) (Nat.not_le.mpr hin)⟩
    · rw [List.getD_eq_default _ _ (by omega), List.getD_eq_default _ _ (by omega)]
      exact hall j hj (by omega)

def oneFile : List Byte := (packerHeader 1 0).encode ++ [0xC3]

theorem fxePacker_one : fxePacker oneInstruction = (0, some oneFile) :=
  (fxePacker_done_iff _ _).mpr ⟨by decide, rfl, [0xC3], rfl, rfl⟩

def kernelOne (dirt : U32) : Kernel :=
  { kernelA oneFile (by decide) with
    mem := Function.update (kernelA oneFile (by decide)).mem dirt 1 }

theorem fileA_bytes (bytes : List Byte) (h : bytes.length ≤ 4096) : (fileA bytes h).bytes = bytes := by
  have hsize : (BitVec.ofNat 32 bytes.length).toNat = bytes.length := by
    rw [BitVec.toNat_ofNat, Nat.mod_eq_of_lt (by omega)]
  apply List.ext_getElem
  · rw [FrodfsEntry.bytes_length]
    exact hsize
  · intro j _ hj
    rw [FrodfsEntry.bytes_getElem]
    exact List.getD_eq_getElem _ _ hj

theorem kernelOne_mem {dirt a : U32} (h : a ≠ dirt) :
    (kernelOne dirt).mem a = (kernelA oneFile (by decide)).mem a := Function.update_of_ne h _ _

theorem kernelOne_finds {dirt : U32} (h : 0x300020 ≤ dirt.toNat) :
    ExecFinds (kernelOne dirt) execA.ebx oneFile := by
  have hfile := kernelA_file oneFile (by decide)
  refine ⟨by decide, 0, (firstNamed_congr (fun i hi => ?_) 0).mp hfile, fileA_bytes oneFile (by decide)⟩
  have hbase : (0x300000 : U32).toNat = 0x300000 := rfl
  refine (kernelOne_mem fun he => ?_).symm
  have hn := congrArg BitVec.toNat he
  rw [off_toNat _ _ (by omega)] at hn
  omega

theorem kernelOne_available (dirt : U32) : 6 ≤ available (kernelOne dirt).bitmap :=
  le_available (b := (kernelA oneFile (by decide)).bitmap) (by decide) {256, 257, 258, 259, 260, 261}
    (by decide)

theorem sysExec_hides_iff_one : (sysExec demoFrame (kernelOne 0x8000000) execA).kernel.mem
      (off (0x6000000 : U32) 4096) =
    (sysExec demoFrame (kernelOne 0x8000001) execA).kernel.mem (off (0x6000000 : U32) 4096) := by
  have hiff := sysExec_hides_iff fxePacker_one demoFrame (kernelOne_finds (by decide))
    (kernelOne_finds (by decide)) (kernelOne_available 0x8000000) (kernelOne_available 0x8000001)
  have hheader : (fxeHeader fun j => oneFile.getD j 0) = packerHeader 1 0 := fxeHeader_packed 1 0 [0xC3]
  have hdeclared : (packerHeader 1 0).declared = 4097 := by decide
  have hentry : (packerHeader 1 0).entry_point = 0x6000000 := rfl
  rw [hheader, hdeclared, hentry] at hiff
  have hclean : ∀ dirt : U32, 0x8000000 ≤ dirt.toNat → ∀ j < 4097,
      (kernelOne dirt).mem (off 0x6000000 j) = 0 := by
    intro dirt hdirt j hj
    have haddr : (off (0x6000000 : U32) j).toNat = 0x6000000 + j := off_toNat _ _ (by
      have hbase : (0x6000000 : U32).toNat = 0x6000000 := rfl
      omega)
    have hne : off (0x6000000 : U32) j ≠ dirt := fun he => by
      rw [← he] at hdirt
      omega
    have hname : off (0x6000000 : U32) j ≠ 0x300000 := fun he => by
      have hn := congrArg BitVec.toNat he
      have h30 : (0x300000 : U32).toNat = 0x300000 := rfl
      omega
    rw [kernelOne_mem hne]
    exact if_neg hname
  have hall := hiff.mpr fun j hj _ => ⟨(hclean _ (by decide) j hj).trans (hclean _ (by decide) j hj).symm,
    fun _ => hclean _ (by decide) j hj⟩
  exact (hall 4096 (by omega)).1

theorem sysExec_not_hides_dirty : ¬ ∀ (r : PackerRun) (file : List Byte) (frame : ExecFrame)
    (k₁ k₂ : Kernel) (regs : SyscallRegs), fxePacker r = (0, some file) → k₁.storage = k₂.storage →
    ExecFinds k₁ regs.ebx file → ExecFinds k₂ regs.ebx file →
    let h := fxeHeader fun j => file.getD j 0
    imagePages h.text_size.toNat h.data_size.toNat + 4 ≤ available k₁.bitmap →
    imagePages h.text_size.toNat h.data_size.toNat + 4 ≤ available k₂.bitmap →
    ∀ j < h.declared, (sysExec frame k₁ regs).kernel.mem (off h.entry_point j) =
        (sysExec frame k₂ regs).kernel.mem (off h.entry_point j) ∧
      (h.text_size.toNat + h.data_size.toNat ≤ j →
        (sysExec frame k₁ regs).kernel.mem (off h.entry_point j) = 0) := by
  intro h
  have hsame := (h oneInstruction oneFile demoFrame (kernelOne 0x6000001) (kernelOne 0x8000000) execA
    fxePacker_one rfl (kernelOne_finds (by decide)) (kernelOne_finds (by decide)) (kernelOne_available _)
    (kernelOne_available _) 1 (by decide)).2 (by decide)
  have hheader : (fxeHeader fun j => oneFile.getD j 0) = packerHeader 1 0 := fxeHeader_packed 1 0 [0xC3]
  rw [hheader, sysExec_declared demoFrame (kernelOne_finds (by decide)) (by decide)
    (kernelOne_available _) (by decide)] at hsame
  exact absurd hsame (by decide)

end FrodOS
