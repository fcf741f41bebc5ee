import Neos.Interrupt.Model

/-!
# The frame of the interrupt stub

What the routines leave on the stack, and how the exit of the stub takes the words it
finds there for the frame.
-/

namespace Neos.Interrupt

open Machine32

section

variable {m : Machine} {bottom : Word} {vs : List Word}

/-! ## The routines -/

/-- The machine with the data segments of a pair loaded. -/
def withData (data code : Word) (m : Machine) : Machine :=
  let selector := (data <<< 3).setWidth 16
  { (m.setEdx (code <<< 3)).setEax (data <<< 3) with
    segs := { m.segs with ds := selector, ss := selector, es := selector, fs := selector,
                          gs := selector } }

/-- The segments behind `gdtr_switch`. -/
def switched (data code : Word) : Segments :=
  let selector := (data <<< 3).setWidth 16
  { cs := (code <<< 3).setWidth 16
    ds := selector
    ss := selector
    es := selector
    fs := selector
    gs := selector }

theorem gdtr_switch_eq (m : Machine) :
    gdtr_switch m =
      let q := (withData (m.peek 4) (m.peek 8) m).push (m.peek 8 <<< 3)
      (q.push (q.peek 4)).retf 4 := rfl

theorem call_gdtr_switch {data code : Word} (behind : Word)
    (h : Holds m.esp m.mem bottom (data :: code :: vs)) (hsmall : vs.length < 2 ^ 10) :
    ∃ m', m.call behind gdtr_switch = some m' ∧ Returned m m' bottom (data :: code :: vs) ∧
      m'.segs = switched data code ∧ m'.sent = m.sent := by
  have h₁ := h.push behind (by simp only [List.length_cons]; omega)
  have hdata : (m.push behind).peek 4 = data := h₁.peek (i := 1) (by simp)
  have hcode : (m.push behind).peek 8 = code := h₁.peek (i := 2) (by simp)
  have hrun := gdtr_switch_eq (m.push behind)
  rw [hdata, hcode] at hrun
  dsimp only at hrun
  -- the far return finds a copy of the return address under the new code segment
  have h₂ := Holds.push (m := withData data code (m.push behind)) h₁ (code <<< 3)
    (by simp only [List.length_cons]; omega)
  have hback : ((withData data code (m.push behind)).push (code <<< 3)).peek 4 = behind :=
    h₂.peek (i := 1) (by simp)
  have h₃ := h₂.push behind (by simp only [List.length_cons]; omega)
  rw [hback] at hrun
  have hselector :
      (((withData data code (m.push behind)).push (code <<< 3)).push behind).peek 4 = code <<< 3 :=
    h₃.peek (i := 1) (by simp)
  refine ⟨gdtr_switch (m.push behind), Machine.call_eq ?_, ⟨?_, ?_⟩, ?_, ?_⟩
  · rw [hrun]
    exact h₃.top
  · rw [hrun]
    exact h₃.release [behind, code <<< 3, behind]
  · rw [hrun]
    exact ⟨rfl, rfl, rfl, rfl⟩
  · rw [hrun, Machine.retf, hselector]
    rfl
  · rw [hrun]
    rfl

/-- The IRQ mask of an interrupt number. -/
def irqMask (pic_offset number : Word) : Word :=
  if pic_offset ≤ number ∧ number - pic_offset < 16 then
    (1 : Word) <<< ((number - pic_offset) &&& 31)
  else 0

/-- `pic_irq` only changes registers before it returns. -/
theorem pic_irq_eq (pic_offset : Word) (m : Machine) :
    ∃ regs : Registers, pic_irq pic_offset m = { m with regs := regs }.ret ∧
      regs.ebx = m.regs.ebx ∧ regs.ebp = m.regs.ebp ∧ regs.esi = m.regs.esi ∧
        regs.edi = m.regs.edi ∧ regs.eax = irqMask pic_offset (m.peek 4) := by
  unfold pic_irq pic_irq_invalid
  dsimp only
  split
  · next hbelow =>
      have hlt : decide (m.peek 4 < pic_offset) = true :=
        (Machine.cf_setFlags _ _ _).symm.trans hbelow
      have hnot : ¬ (pic_offset ≤ m.peek 4 ∧ m.peek 4 - pic_offset < 16) :=
        fun h => absurd h.1 (BitVec.not_le.mpr (of_decide_eq_true hlt))
      refine ⟨_, rfl, rfl, rfl, rfl, rfl, ?_⟩
      rw [irqMask, if_neg hnot]
  · next hreached =>
      have hle : pic_offset ≤ m.peek 4 := by
        have hcf : ¬ decide (m.peek 4 < pic_offset) = true :=
          fun h => hreached ((Machine.cf_setFlags _ _ _).trans h)
        rwa [decide_eq_true_iff, BitVec.not_lt] at hcf
      split
      · next hbeyond =>
          have hge : ¬ m.peek 4 - pic_offset < 16 := fun h =>
            hbeyond ((Machine.cf_setFlags _ _ _).trans (decide_eq_true h))
          refine ⟨_, rfl, rfl, rfl, rfl, rfl, ?_⟩
          rw [irqMask, if_neg fun h => hge h.2]
      · next hirq =>
          have hlt : decide (m.peek 4 - pic_offset < 16) = true :=
            (Machine.cf_setFlags _ _ _).symm.trans (not_not.mp hirq)
          refine ⟨_, rfl, rfl, rfl, rfl, rfl, ?_⟩
          rw [irqMask, if_pos ⟨hle, of_decide_eq_true hlt⟩]
          rfl

theorem call_pic_irq {number : Word} (pic_offset behind : Word)
    (h : Holds m.esp m.mem bottom (number :: vs)) (hsmall : vs.length < 2 ^ 10) :
    ∃ m', m.call behind (pic_irq pic_offset) = some m' ∧ Returned m m' bottom (number :: vs) ∧
      m'.segs = m.segs ∧ m'.sent = m.sent ∧ m'.regs.eax = irqMask pic_offset number := by
  have h₁ := h.push behind (by simp only [List.length_cons]; omega)
  have hnumber : (m.push behind).peek 4 = number := h₁.peek (i := 1) (by simp)
  obtain ⟨regs, hrun, hebx, hebp, hesi, hedi, heax⟩ := pic_irq_eq pic_offset (m.push behind)
  rw [hnumber] at heax
  obtain ⟨hcall, hreturned⟩ := h.call_ret (by simp only [List.length_cons]; omega) hrun rfl rfl
    ⟨hebx, hebp, hesi, hedi⟩
  exact ⟨_, hcall, hreturned, rfl, rfl, heax⟩

/-- The commands of `pic_isr`. -/
def askInService : List (BitVec 16 × Byte) := [(PIC2_COM, PIC_ISR), (PIC1_COM, PIC_ISR)]

/-- The bytes of the two controllers under a high half that is clear. -/
theorem inService_eq (p : Pics) {v : Word} (h : v.extractLsb' 16 16 = 0) :
    ((v.extractLsb' 16 16 ++ p.slave ++ v.extractLsb' 0 8 : Word).extractLsb' 8 24 ++
      p.master : Word) = p.inService := by
  have hhigh : (v.extractLsb' 16 16 ++ p.slave ++ v.extractLsb' 0 8 : Word).extractLsb' 8 24 =
      v.extractLsb' 16 16 ++ p.slave := BitVec.extractLsb'_append_eq_left
  rw [hhigh, h, Pics.inService]
  ext i hi
  simp only [BitVec.getElem_append, BitVec.getElem_setWidth, BitVec.getLsbD_append]
  split
  · next hmaster => exact (BitVec.getLsbD_eq_getElem hmaster).symm
  · split
    · next hslave => exact (BitVec.getLsbD_eq_getElem hslave).symm
    · next hrest =>
        rw [BitVec.getLsbD_of_ge _ _ (by omega)]
        exact BitVec.getElem_zero (by omega)

theorem pic_isr_eq (p : Pics) (m : Machine) :
    ∃ regs : Registers,
      pic_isr p m = { m with regs := regs, sent := m.sent ++ askInService }.ret ∧
        regs.ebx = m.regs.ebx ∧ regs.ebp = m.regs.ebp ∧ regs.esi = m.regs.esi ∧
          regs.edi = m.regs.edi ∧ regs.eax = p.inService := by
  refine ⟨(pic_isr p m).regs, ?_, rfl, rfl, rfl, rfl, ?_⟩
  · simp only [pic_isr, Machine.out, Machine.setAl, Machine.setAh, Machine.setEax, low_append,
      List.append_assoc]
    rfl
  · simp only [pic_isr, Machine.out, Machine.ret, Machine.release, Machine.setAl, Machine.setAh,
      Machine.setEax, low_append]
    rw [BitVec.extractLsb'_append_eq_left]
    refine inService_eq p ?_
    rw [BitVec.extractLsb'_append_eq_of_le (by decide)]
    decide

theorem call_pic_isr (p : Pics) (behind : Word) (h : Holds m.esp m.mem bottom vs)
    (hsmall : vs.length < 2 ^ 10) :
    ∃ m', m.call behind (pic_isr p) = some m' ∧ Returned m m' bottom vs ∧
      m'.segs = m.segs ∧ m'.sent = m.sent ++ askInService ∧ m'.regs.eax = p.inService := by
  obtain ⟨regs, hrun, hebx, hebp, hesi, hedi, heax⟩ := pic_isr_eq p (m.push behind)
  obtain ⟨hcall, hreturned⟩ := h.call_ret (by omega) hrun rfl rfl ⟨hebx, hebp, hesi, hedi⟩
  exact ⟨_, hcall, hreturned, rfl, rfl, heax⟩

/-- The commands of `pic_accept` for a mask. -/
def accepted (mask : Word) : List (BitVec 16 × Byte) :=
  (if high mask = 0 then [] else [(PIC2_COM, PIC_EOI)]) ++
    if low mask = 0 then [] else [(PIC1_COM, PIC_EOI)]

theorem pic_accept_master_eq (m : Machine) :
    ∃ flags : Word,
      pic_accept_master m = { m with
        regs := { m.regs with eflags := flags }
        sent := m.sent ++ if low m.regs.edx = 0 then [] else [(PIC1_COM, low m.regs.eax)] }.ret := by
  unfold pic_accept_master
  simp only [Machine.zf_setFlags, decide_eq_true_eq]
  by_cases hmaster : low m.regs.edx = 0
  · refine ⟨(m.setFlags (decide (low m.regs.edx = 0)) false).regs.eflags, ?_⟩
    rw [if_pos hmaster, if_pos hmaster, List.append_nil]
    rfl
  · refine ⟨(m.setFlags (decide (low m.regs.edx = 0)) false).regs.eflags, ?_⟩
    rw [if_neg hmaster, if_neg hmaster]
    rfl

theorem pic_accept_eq (m : Machine) :
    ∃ regs : Registers,
      pic_accept m = { m with regs := regs, sent := m.sent ++ accepted (m.peek 4) }.ret ∧
        regs.ebx = m.regs.ebx ∧ regs.ebp = m.regs.ebp ∧ regs.esi = m.regs.esi ∧
          regs.edi = m.regs.edi := by
  let q := ((m.setEdx (m.peek 4)).setAl PIC_EOI).setFlags (decide (high (m.peek 4) = 0)) false
  have hal : low q.regs.eax = PIC_EOI := low_append _ _
  have hrun : pic_accept m = if high (m.peek 4) = 0 then pic_accept_master q
      else pic_accept_master (q.out PIC2_COM (low q.regs.eax)) := by
    unfold pic_accept
    simp only [Machine.zf_setFlags, decide_eq_true_eq]
    rfl
  rw [hrun, accepted]
  split
  · obtain ⟨flags, hmaster⟩ := pic_accept_master_eq q
    rw [hal] at hmaster
    exact ⟨{ q.regs with eflags := flags }, hmaster, rfl, rfl, rfl, rfl⟩
  · obtain ⟨flags, hmaster⟩ := pic_accept_master_eq (q.out PIC2_COM (low q.regs.eax))
    have hal' : low (q.out PIC2_COM (low q.regs.eax)).regs.eax = PIC_EOI := hal
    rw [hal', hal] at hmaster
    refine ⟨{ q.regs with eflags := flags }, ?_, rfl, rfl, rfl, rfl⟩
    rw [hal, hmaster, ← List.append_assoc]
    rfl

theorem call_pic_accept {mask : Word} (behind : Word)
    (h : Holds m.esp m.mem bottom (mask :: vs)) (hsmall : vs.length < 2 ^ 10) :
    ∃ m', m.call behind pic_accept = some m' ∧ Returned m m' bottom (mask :: vs) ∧
      m'.segs = m.segs ∧ m'.sent = m.sent ++ accepted mask := by
  have h₁ := h.push behind (by simp only [List.length_cons]; omega)
  have hmask : (m.push behind).peek 4 = mask := h₁.peek (i := 1) (by simp)
  obtain ⟨regs, hrun, hebx, hebp, hesi, hedi⟩ := pic_accept_eq (m.push behind)
  rw [hmask] at hrun
  obtain ⟨hcall, hreturned⟩ := h.call_ret (by simp only [List.length_cons]; omega) hrun rfl rfl
    ⟨hebx, hebp, hesi, hedi⟩
  exact ⟨_, hcall, hreturned, rfl, rfl⟩

/-! ## The exit -/

/-- The words the exit takes for the saved frame. -/
structure SavedFrame where
  data : Word
  code : Word
  edi : Word
  esi : Word
  ebp : Word
  esp : Word
  ebx : Word
  edx : Word
  ecx : Word
  eax : Word
  number : Word
  error : Word

/-- What `pusha` left, and the words the head pushed. -/
def SavedFrame.pushed (f : SavedFrame) : List Word :=
  [f.edi, f.esi, f.ebp, f.esp, f.ebx, f.edx, f.ecx, f.eax, f.number, f.error]

def SavedFrame.words (f : SavedFrame) : List Word := f.data :: f.code :: f.pushed

/-- The exit takes the frame `f` down, with `rest` left for `iret`. -/
structure TakesDown (m : Machine) (w : Wait) (bottom : Word) (f : SavedFrame) (rest : List Word)
    (x : Exit) : Prop where
  switch : Holds x.switch.esp x.switch.mem bottom (f.words ++ rest)
  popa : Holds x.popa.esp x.popa.mem bottom (f.pushed ++ rest)
  segs : x.popa.segs = switched f.data f.code
  iret : Holds x.iret.esp x.iret.mem bottom rest
  edi : x.iret.regs.edi = f.edi
  esi : x.iret.regs.esi = f.esi
  ebp : x.iret.regs.ebp = f.ebp
  ebx : x.iret.regs.ebx = f.ebx
  edx : x.iret.regs.edx = f.edx
  ecx : x.iret.regs.ecx = f.ecx
  eax : x.iret.regs.eax = f.eax
  iret_segs : x.iret.segs = x.popa.segs
  resumed : x.resumed = x.iret.iret
  sent : x.iret.sent = m.sent ++ accepted m.regs.ebx
  wait : x.wait = w

/-- Whatever lies under the eight arguments is taken for the frame. -/
theorem isr_tail_no_handle_eq (r : Routines) (w : Wait) {f : SavedFrame} {as rest : List Word}
    (h : Holds m.esp m.mem bottom (as ++ (f.words ++ rest))) (has : as.length = 8)
    (hsmall : rest.length < 2 ^ 9) :
    ∃ x, isr_tail_no_handle r w m = some x ∧ TakesDown m w bottom f rest x := by
  have hlength : (f.pushed ++ rest).length < 2 ^ 10 - 2 := by
    rw [List.length_append, show f.pushed.length = 10 from rfl]
    omega
  have hswitch : Holds (m.release (4 * 8)).esp (m.release (4 * 8)).mem bottom
      (f.data :: f.code :: (f.pushed ++ rest)) := by
    have hdrop := h.release as
    rw [has] at hdrop
    exact hdrop
  obtain ⟨m₁, hcall₁, hback₁, hsegs₁, hsent₁⟩ := call_gdtr_switch (r.behind 5) hswitch (by omega)
  have hrest₁ : Holds (m₁.release 8).esp (m₁.release 8).mem bottom (f.pushed ++ rest) :=
    hback₁.holds.release [f.data, f.code]
  have hmask := hrest₁.push (m₁.release 8).regs.ebx (by omega)
  obtain ⟨m₂, hcall₂, hback₂, hsegs₂, hsent₂⟩ := call_pic_accept (r.behind 6) hmask (by omega)
  have hpopa : Holds (m₂.release 4).esp (m₂.release 4).mem bottom (f.pushed ++ rest) :=
    hback₂.holds.release [m₁.regs.ebx]
  have hheads : Holds (m₂.release 4).popa.esp (m₂.release 4).popa.mem bottom
      ([f.number, f.error] ++ rest) :=
    hpopa.release [f.edi, f.esi, f.ebp, f.esp, f.ebx, f.edx, f.ecx, f.eax]
  have hiret : Holds ((m₂.release 4).popa.release 8).esp ((m₂.release 4).popa.release 8).mem bottom
      rest := hheads.release [f.number, f.error]
  have hword : ∀ (i : ℕ) (v : Word), (f.pushed ++ rest)[i]? = some v →
      (m₂.release 4).peek (BitVec.ofNat 32 (4 * i)) = v := fun i v => hpopa.peek_of_getElem?
  have hebx : m₁.regs.ebx = m.regs.ebx := hback₁.saved.ebx
  have hrun : isr_tail_no_handle r w m =
      some ⟨m.release (4 * 8), m₂.release 4, (m₂.release 4).popa.release 8,
        ((m₂.release 4).popa.release 8).iret, w⟩ := by
    rw [isr_tail_no_handle]
    simp only [hcall₁, Option.bind_eq_bind, Option.bind_some, hcall₂]
    rfl
  refine ⟨_, hrun, hswitch, hpopa, ?_, hiret, hword 0 _ rfl, hword 1 _ rfl, hword 2 _ rfl,
    hword 4 _ rfl, hword 5 _ rfl, hword 6 _ rfl, hword 7 _ rfl, rfl, rfl, ?_, rfl⟩
  · exact hsegs₂.trans hsegs₁
  · calc m₂.sent = m₁.sent ++ accepted m₁.regs.ebx := hsent₂
      _ = m.sent ++ accepted m.regs.ebx := by
          rw [hsent₁, hebx]
          rfl

/-! ## The begin -/

/-- What `isr_tail` saves of the machine it finds. -/
def savedFrame (m : Machine) : SavedFrame where
  data := (m.segs.ds >>> 3).setWidth 32
  code := (m.segs.cs >>> 3).setWidth 32
  edi := m.regs.edi
  esi := m.regs.esi
  ebp := m.regs.ebp
  esp := m.esp
  ebx := m.regs.ebx
  edx := m.regs.edx
  ecx := m.regs.ecx
  eax := m.regs.eax
  number := m.peek 0
  error := m.peek 4

theorem pusha_holds {rest : List Word}
    (h : Holds m.esp m.mem bottom (m.peek 0 :: m.peek 4 :: rest)) (hsmall : rest.length < 2 ^ 9) :
    Holds m.pusha.esp m.pusha.mem bottom ((savedFrame m).pushed ++ rest) := by
  have hlength : (m.peek 0 :: m.peek 4 :: rest).length < 2 ^ 9 + 2 := by
    simp only [List.length_cons]
    omega
  have h₁ := h.push m.regs.eax (by omega)
  have h₂ := h₁.push m.regs.ecx (by simp only [List.length_cons] at *; omega)
  have h₃ := h₂.push m.regs.edx (by simp only [List.length_cons] at *; omega)
  have h₄ := h₃.push m.regs.ebx (by simp only [List.length_cons] at *; omega)
  have h₅ := h₄.push m.esp (by simp only [List.length_cons] at *; omega)
  have h₆ := h₅.push m.regs.ebp (by simp only [List.length_cons] at *; omega)
  have h₇ := h₆.push m.regs.esi (by simp only [List.length_cons] at *; omega)
  exact h₇.push m.regs.edi (by simp only [List.length_cons] at *; omega)

theorem pusha_kept (m : Machine) :
    m.pusha.segs = m.segs ∧ m.pusha.regs = m.regs ∧ m.pusha.sent = m.sent ∧
      m.pusha.esp = m.esp - 32 := by
  simp only [Machine.pusha, Machine.push_segs, Machine.push_regs, Machine.push_sent,
    Machine.push_esp, true_and]
  bv_omega

/-- The high half of a register that is clear stays clear. -/
theorem loadIndex_eax (selector : BitVec 16) (h : m.regs.eax.extractLsb' 16 16 = 0) :
    (loadIndex m selector).regs.eax = (selector >>> 3).setWidth 32 ∧
      (loadIndex m selector).regs.eax.extractLsb' 16 16 = 0 := by
  have hax : (m.setAx selector).regs.eax.setWidth 16 = selector :=
    BitVec.setWidth_append_eq_right
  have hhigh : (m.setAx selector).regs.eax.extractLsb' 16 16 = m.regs.eax.extractLsb' 16 16 :=
    BitVec.extractLsb'_append_eq_left
  have heax : (loadIndex m selector).regs.eax = (m.setAx selector).regs.eax.extractLsb' 16 16 ++
      (m.setAx selector).regs.eax.setWidth 16 >>> 3 := rfl
  rw [heax, hax, hhigh, h]
  refine ⟨?_, BitVec.extractLsb'_append_eq_left⟩
  rw [BitVec.setWidth_eq_append (by decide)]
  rfl

theorem push_index (selector : BitVec 16) (h : Holds m.esp m.mem bottom vs)
    (hsmall : vs.length < 2 ^ 20) (hhigh : m.regs.eax.extractLsb' 16 16 = 0) :
    Holds ((loadIndex m selector).push (loadIndex m selector).regs.eax).esp
      ((loadIndex m selector).push (loadIndex m selector).regs.eax).mem bottom
      ((selector >>> 3).setWidth 32 :: vs) := by
  have hindex := (loadIndex_eax selector hhigh).1
  have hpush := Holds.push (m := loadIndex m selector) h (loadIndex m selector).regs.eax hsmall
  generalize (loadIndex m selector).regs.eax = v at *
  rwa [hindex] at hpush ⊢

theorem isr_tail_segments_eq (r : Routines) (h : Holds m.esp m.mem bottom vs)
    (hsmall : vs.length < 2 ^ 9) :
    ∃ m', isr_tail_segments r m = some m' ∧
      Holds m'.esp m'.mem bottom
        ((m.segs.ds >>> 3).setWidth 32 :: (m.segs.cs >>> 3).setWidth 32 :: vs) ∧
      m'.regs.ebp = m.esp ∧ m'.regs.ebx = m.regs.ebx ∧ m'.sent = m.sent := by
  let q₁ := (m.setEbp m.esp).setEax 0
  have hzero : q₁.regs.eax.extractLsb' 16 16 = 0 := show (0 : Word).extractLsb' 16 16 = 0 by decide
  have hcode := push_index (m := q₁) m.segs.cs h (by omega) hzero
  have hhigh := (loadIndex_eax (m := q₁) m.segs.cs hzero).2
  let q₂ := (loadIndex q₁ m.segs.cs).push (loadIndex q₁ m.segs.cs).regs.eax
  have hdata := push_index (m := q₂) m.segs.ds hcode (by simp only [List.length_cons]; omega) hhigh
  have hone := hdata.push 1 (by simp only [List.length_cons]; omega)
  have htwo := hone.push 2 (by simp only [List.length_cons]; omega)
  obtain ⟨m', hcall, hback, -, hsent⟩ := call_gdtr_switch (r.behind 0) htwo
    (by simp only [List.length_cons]; omega)
  refine ⟨m'.release 8, ?_, hback.holds.release [2, 1], hback.saved.ebp, hback.saved.ebx, hsent⟩
  have hrun : isr_tail_segments r m =
      ((((loadIndex q₂ m.segs.ds).push (loadIndex q₂ m.segs.ds).regs.eax).push 1).push 2).call
        (r.behind 0) gdtr_switch >>= fun m' => some (m'.release 8) := rfl
  rw [hrun, hcall]
  rfl

/-- The stub saves the registers and the segments. -/
theorem isr_tail_save (r : Routines) {rest : List Word}
    (h : Holds m.esp m.mem bottom (m.peek 0 :: m.peek 4 :: rest)) (hsmall : rest.length < 2 ^ 8) :
    ∃ m', isr_tail_segments r m.pusha = some m' ∧
      Holds m'.esp m'.mem bottom ((savedFrame m).words ++ rest) ∧ m'.regs.ebp = m.esp - 32 ∧
        m'.regs.ebx = m.regs.ebx ∧ m'.sent = m.sent := by
  have hlength : ((savedFrame m).pushed ++ rest).length < 2 ^ 9 := by
    rw [List.length_append, show (savedFrame m).pushed.length = 10 from rfl]
    omega
  obtain ⟨hsegs, hregs, hsent, hesp⟩ := pusha_kept m
  obtain ⟨m', hrun, hholds, hebp, hebx, hsent'⟩ := isr_tail_segments_eq r (pusha_holds h (by omega))
    hlength
  rw [hsegs] at hholds
  exact ⟨m', hrun, hholds, hebp.trans hesp, hebx.trans (congrArg Registers.ebx hregs),
    hsent'.trans hsent⟩

/-- The arguments of the handler. -/
def SavedFrame.arguments (f : SavedFrame) (eax : Word) : List Word :=
  [f.number, f.error, eax, f.ecx, f.edx, f.ebx, f.esi, f.edi]

/-- A word of the saved registers, while `us` lies on top of the frame. -/
theorem saved_register {f : SavedFrame} {us rest : List Word} {ebp : Word}
    (h : Holds m.esp m.mem bottom (us ++ (f.words ++ rest)))
    (hsmall : us.length + rest.length < 2 ^ 10)
    (hebp : ebp + BitVec.ofNat 32 (4 * (10 + rest.length)) = bottom) {i : ℕ} {v : Word}
    (hv : f.pushed[i]? = some v) :
    load m.mem (ebp + BitVec.ofNat 32 (4 * i)) = v := by
  obtain ⟨hi, rfl⟩ := List.getElem?_eq_some_iff.mp hv
  have hpushed : f.pushed.length = 10 := rfl
  have hwords : f.words.length = 12 := rfl
  rw [hpushed] at hi
  have hload := h.load_at (i := us.length + (2 + i)) (a := ebp + BitVec.ofNat 32 (4 * i)) (by
    rw [List.length_append, List.length_append]
    omega) (by
    rw [List.length_append, List.length_append, hwords, ← hebp]
    bv_omega)
  rw [hload, List.getElem_append_right (by omega)]
  simp only [Nat.add_sub_cancel_left]
  rw [List.getElem_append_left (by omega)]
  simp only [SavedFrame.words, Nat.add_comm 2 i, List.getElem_cons_succ]

/-- Pushing one of the saved registers again. -/
theorem push_register {q : Machine} {f : SavedFrame} {us rest : List Word} {i : ℕ} {a v : Word}
    (hq : q = m.push (load m.mem a)) (h : Holds m.esp m.mem bottom (us ++ (f.words ++ rest)))
    (hsmall : us.length + rest.length < 2 ^ 9 + 8)
    (hebp : m.regs.ebp + BitVec.ofNat 32 (4 * (10 + rest.length)) = bottom)
    (hv : f.pushed[i]? = some v) (ha : a = m.regs.ebp + BitVec.ofNat 32 (4 * i)) :
    Holds q.esp q.mem bottom (v :: us ++ (f.words ++ rest)) ∧ q.regs = m.regs ∧ q.sent = m.sent := by
  have hwords : f.words.length = 12 := rfl
  have hload := saved_register h (by omega) hebp hv
  rw [hq, ha, hload]
  refine ⟨h.push v ?_, rfl, rfl⟩
  rw [List.length_append, List.length_append]
  omega

theorem isr_tail_arguments_holds (r : Routines) {f : SavedFrame} {rest : List Word}
    (h : Holds m.esp m.mem bottom (f.words ++ rest)) (hsmall : rest.length < 2 ^ 9)
    (hebp : m.regs.ebp + BitVec.ofNat 32 (4 * (10 + rest.length)) = bottom) :
    Holds (isr_tail_arguments r m).esp (isr_tail_arguments r m).mem bottom
        (f.number :: (f.arguments (m.regs.ebp + 28) ++ (f.words ++ rest))) ∧
      (isr_tail_arguments r m).regs.esi = r.service_table f.number ∧
        (isr_tail_arguments r m).regs.ebx = m.regs.ebx ∧
          (isr_tail_arguments r m).sent = m.sent := by
  have herror : m.peek 44 = f.error := h.peek_of_getElem? (i := 11) rfl
  have hnumber : m.peek 40 = f.number := h.peek_of_getElem? (i := 10) rfl
  obtain ⟨q₀, hq₀⟩ : ∃ q, q = ((m.setEdx f.error).setEax f.number).setEsi
    (r.service_table f.number) := ⟨_, rfl⟩
  have h₀ : Holds q₀.esp q₀.mem bottom ([] ++ (f.words ++ rest)) := by
    rw [hq₀]
    exact h
  have hebp₀ : q₀.regs.ebp = m.regs.ebp := by
    rw [hq₀]
    rfl
  rw [← hebp₀] at hebp
  obtain ⟨q₁, hq₁⟩ : ∃ q, q = q₀.push (load q₀.mem (q₀.regs.ebp + 4 * 0)) := ⟨_, rfl⟩
  obtain ⟨h₁, hregs₁, hsent₁⟩ := push_register (v := f.edi) (i := 0) hq₁ h₀ (by simp; omega) hebp
    rfl rfl
  rw [← hregs₁] at hebp
  obtain ⟨q₂, hq₂⟩ : ∃ q, q = q₁.push (load q₁.mem (q₁.regs.ebp + 4 * 1)) := ⟨_, rfl⟩
  obtain ⟨h₂, hregs₂, hsent₂⟩ := push_register (v := f.esi) (i := 1) hq₂ h₁ (by simp; omega) hebp
    rfl rfl
  rw [← hregs₂] at hebp
  obtain ⟨q₃, hq₃⟩ : ∃ q, q = q₂.push (load q₂.mem (q₂.regs.ebp + 4 * 4)) := ⟨_, rfl⟩
  obtain ⟨h₃, hregs₃, hsent₃⟩ := push_register (v := f.ebx) (i := 4) hq₃ h₂ (by simp; omega) hebp
    rfl rfl
  rw [← hregs₃] at hebp
  obtain ⟨q₄, hq₄⟩ : ∃ q, q = q₃.push (load q₃.mem (q₃.regs.ebp + 4 * 5)) := ⟨_, rfl⟩
  obtain ⟨h₄, hregs₄, hsent₄⟩ := push_register (v := f.edx) (i := 5) hq₄ h₃ (by simp; omega) hebp
    rfl rfl
  rw [← hregs₄] at hebp
  obtain ⟨q₅, hq₅⟩ : ∃ q, q = q₄.push (load q₄.mem (q₄.regs.ebp + 4 * 6)) := ⟨_, rfl⟩
  obtain ⟨h₅, hregs₅, hsent₅⟩ := push_register (v := f.ecx) (i := 6) hq₅ h₄ (by simp; omega) hebp
    rfl rfl
  have hregs : q₅.regs = q₀.regs := by rw [hregs₅, hregs₄, hregs₃, hregs₂, hregs₁]
  have hsent : q₅.sent = m.sent := by
    rw [hsent₅, hsent₄, hsent₃, hsent₂, hsent₁, hq₀]
    rfl
  have hrun : isr_tail_arguments r m =
      ((((q₅.setEbp (q₅.regs.ebp + 4 * 7)).push (q₅.regs.ebp + 4 * 7)).push q₅.regs.edx).push
        q₅.regs.eax).push q₅.regs.eax := by
    rw [hq₅, hq₄, hq₃, hq₂, hq₁, hq₀, ← herror, ← hnumber]
    rfl
  have h₆ := Holds.push (m := q₅.setEbp (q₅.regs.ebp + 4 * 7)) h₅ (q₅.regs.ebp + 4 * 7)
    (by simp [SavedFrame.words, SavedFrame.pushed]; omega)
  have h₇ := h₆.push q₅.regs.edx (by simp [SavedFrame.words, SavedFrame.pushed]; omega)
  have h₈ := h₇.push q₅.regs.eax (by simp [SavedFrame.words, SavedFrame.pushed]; omega)
  have h₉ := h₈.push q₅.regs.eax (by simp [SavedFrame.words, SavedFrame.pushed]; omega)
  rw [← hrun, hregs, hebp₀, hq₀] at h₉
  have hkept : (isr_tail_arguments r m).regs.esi = q₀.regs.esi ∧
      (isr_tail_arguments r m).regs.ebx = q₀.regs.ebx ∧
        (isr_tail_arguments r m).sent = m.sent := by
    have hesi : q₅.regs.esi = q₀.regs.esi := congrArg Registers.esi hregs
    have hebx : q₅.regs.ebx = q₀.regs.ebx := congrArg Registers.ebx hregs
    rw [hrun]
    exact ⟨hesi, hebx, hsent⟩
  rw [hq₀] at hkept
  exact ⟨h₉, hkept⟩

end

/-! ## How deep the stub goes -/

section

variable {m m' : Machine} {top behind : Word} {room d : ℕ} {mem : Word → Byte}

theorem atDepth_call_gdtr_switch (h : AtDepth top room mem d m) (hroom : d + 12 ≤ room)
    (hcall : m.call behind gdtr_switch = some m') : AtDepth top room mem d m' := by
  refine h.call (by omega) hcall fun q hq => ?_
  have h₁ : AtDepth top room mem (d + 4) (withData (q.peek 4) (q.peek 8) q) := ⟨hq.depth, hq.kept⟩
  have h₂ := (h₁.push (by omega) (q.peek 8 <<< 3)).push (by omega)
    (((withData (q.peek 4) (q.peek 8) q).push (q.peek 8 <<< 3)).peek 4)
  have h₃ := AtDepth.release (n := 12) h₂ (8 + 4) rfl
  exact ⟨h₃.depth, h₃.kept⟩

/-- A routine that only changes registers and ports before its `ret`. -/
theorem atDepth_call_ret {f : Machine → Machine} (h : AtDepth top room mem d m)
    (hroom : d + 4 ≤ room) (hcall : m.call behind f = some m')
    (hf : ∀ q, ∃ q' : Machine, f q = q'.ret ∧ q'.esp = q.esp ∧ q'.mem = q.mem) :
    AtDepth top room mem d m' := by
  refine h.call hroom hcall fun q hq => ?_
  obtain ⟨q', hrun, hesp, hmem⟩ := hf q
  have h' : AtDepth top room mem (d + 4) q' := ⟨hesp ▸ hq.depth, hmem ▸ hq.kept⟩
  have hback := h'.release 4 rfl
  rw [hrun]
  exact ⟨hback.depth, hback.kept⟩

theorem atDepth_call_pic_irq {pic_offset : Word} (h : AtDepth top room mem d m)
    (hroom : d + 4 ≤ room) (hcall : m.call behind (pic_irq pic_offset) = some m') :
    AtDepth top room mem d m' := by
  refine atDepth_call_ret h hroom hcall fun q => ?_
  obtain ⟨regs, hrun, -⟩ := pic_irq_eq pic_offset q
  exact ⟨_, hrun, rfl, rfl⟩

theorem atDepth_call_pic_isr {p : Pics} (h : AtDepth top room mem d m) (hroom : d + 4 ≤ room)
    (hcall : m.call behind (pic_isr p) = some m') : AtDepth top room mem d m' := by
  refine atDepth_call_ret h hroom hcall fun q => ?_
  obtain ⟨regs, hrun, -⟩ := pic_isr_eq p q
  exact ⟨_, hrun, rfl, rfl⟩

theorem atDepth_call_pic_accept (h : AtDepth top room mem d m) (hroom : d + 4 ≤ room)
    (hcall : m.call behind pic_accept = some m') : AtDepth top room mem d m' := by
  refine atDepth_call_ret h hroom hcall fun q => ?_
  obtain ⟨regs, hrun, -⟩ := pic_accept_eq q
  exact ⟨_, hrun, rfl, rfl⟩

theorem atDepth_isr_tail_segments {r : Routines} (h : AtDepth top room mem d m)
    (hroom : d + 28 ≤ room) (hrun : isr_tail_segments r m = some m') :
    AtDepth top room mem (d + 8) m' := by
  obtain ⟨q, hcall, hq⟩ := Option.bind_eq_some_iff.mp hrun
  obtain rfl := Option.some.inj hq
  have hcode := AtDepth.push (m := loadIndex ((m.setEbp m.esp).setEax 0) m.segs.cs)
    ⟨h.depth, h.kept⟩ (by omega) (loadIndex ((m.setEbp m.esp).setEax 0) m.segs.cs).regs.eax
  let q₂ := (loadIndex ((m.setEbp m.esp).setEax 0) m.segs.cs).push
    (loadIndex ((m.setEbp m.esp).setEax 0) m.segs.cs).regs.eax
  have hdata := AtDepth.push (m := loadIndex q₂ q₂.segs.ds) ⟨hcode.depth, hcode.kept⟩ (by omega)
    (loadIndex q₂ q₂.segs.ds).regs.eax
  have hargs := (hdata.push (by omega) 1).push (by omega) 2
  exact AtDepth.release (n := 8) (atDepth_call_gdtr_switch hargs (by omega) hcall) 8 rfl

theorem atDepth_isr_tail_arguments {r : Routines} (h : AtDepth top room mem d m)
    (hroom : d + 36 ≤ room) : AtDepth top room mem (d + 36) (isr_tail_arguments r m) := by
  let q₀ := ((m.setEdx (m.peek 44)).setEax (m.peek 40)).setEsi (r.service_table (m.peek 40))
  have h₀ : AtDepth top room mem d q₀ := ⟨h.depth, h.kept⟩
  have h₁ := h₀.push (by omega) (load q₀.mem (q₀.regs.ebp + 4 * 0))
  let q₁ := q₀.push (load q₀.mem (q₀.regs.ebp + 4 * 0))
  have h₂ := h₁.push (by omega) (load q₁.mem (q₁.regs.ebp + 4 * 1))
  let q₂ := q₁.push (load q₁.mem (q₁.regs.ebp + 4 * 1))
  have h₃ := h₂.push (by omega) (load q₂.mem (q₂.regs.ebp + 4 * 4))
  let q₃ := q₂.push (load q₂.mem (q₂.regs.ebp + 4 * 4))
  have h₄ := h₃.push (by omega) (load q₃.mem (q₃.regs.ebp + 4 * 5))
  let q₄ := q₃.push (load q₃.mem (q₃.regs.ebp + 4 * 5))
  have h₅ := h₄.push (by omega) (load q₄.mem (q₄.regs.ebp + 4 * 6))
  let q₅ := q₄.push (load q₄.mem (q₄.regs.ebp + 4 * 6))
  have h₆ := AtDepth.push (m := q₅.setEbp (q₅.regs.ebp + 4 * 7)) ⟨h₅.depth, h₅.kept⟩ (by omega)
    (q₅.regs.ebp + 4 * 7)
  exact ((h₆.push (by omega) q₅.regs.edx).push (by omega) q₅.regs.eax).push (by omega) q₅.regs.eax

end

end Neos.Interrupt
