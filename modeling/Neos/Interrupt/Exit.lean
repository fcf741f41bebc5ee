import Neos.Interrupt.Stub

/-!
# How the interrupt stub returns

The frame is taken down where it was built unless the interrupt is a spurious IRQ.  The
mask for the acknowledgement is assigned for IRQs only: for another interrupt `EBX` still
has the value of the interrupted code.
-/

namespace Neos.Interrupt

open Machine32

/-! ## The frame -/

/-- The stub returns through the frame built on entry: the saved pair is restored, the
pushed registers are popped, and `iret` consumes what the interrupt pushed.  Only a
handler may replace `EAX`. -/
structure Restores (r : Routines) (m : Machine) (x : Exit) : Prop where
  switch_esp : x.switch.esp = m.esp - 40
  data : x.switch.peek 0 = (m.segs.ds >>> 3).setWidth 32
  code : x.switch.peek 4 = (m.segs.cs >>> 3).setWidth 32
  segs : x.popa.segs = switched ((m.segs.ds >>> 3).setWidth 32) ((m.segs.cs >>> 3).setWidth 32)
  popa_esp : x.popa.esp = m.esp - 32
  edi : x.iret.regs.edi = m.regs.edi
  esi : x.iret.regs.esi = m.regs.esi
  ebp : x.iret.regs.ebp = m.regs.ebp
  ebx : x.iret.regs.ebx = m.regs.ebx
  edx : x.iret.regs.edx = m.regs.edx
  ecx : x.iret.regs.ecx = m.regs.ecx
  eax : r.service_table (m.peek 0) = 0 → x.iret.regs.eax = m.regs.eax
  iret_esp : x.iret.esp = m.esp + 8
  resumed_eip : x.resumed.eip = m.peek 8
  resumed_cs : x.resumed.segs.cs = (m.peek 12).setWidth 16
  resumed_flags : x.resumed.regs.eflags = m.peek 16
  resumed_esp : x.resumed.esp = m.esp + 20

section

variable {r : Routines} {p : Pics} {w w' : Wait} {m q : Machine} {x : Exit}

/-- The frame that was built is taken down. -/
theorem TakesDown.restores {eax : Word}
    (h : TakesDown q w' (m.esp + 20) { savedFrame m with eax := eax } (interrupted m) x)
    (heax : r.service_table (m.peek 0) = 0 → eax = m.regs.eax) : Restores r m x where
  switch_esp := h.switch.esp_eq.trans
    (show m.esp + 20 - BitVec.ofNat 32 (4 * 15) = m.esp - 40 by bv_omega)
  data := h.switch.peek_of_getElem? (i := 0) rfl
  code := h.switch.peek_of_getElem? (i := 1) rfl
  segs := h.segs
  popa_esp := h.popa.esp_eq.trans
    (show m.esp + 20 - BitVec.ofNat 32 (4 * 13) = m.esp - 32 by bv_omega)
  edi := h.edi
  esi := h.esi
  ebp := h.ebp
  ebx := h.ebx
  edx := h.edx
  ecx := h.ecx
  eax habsent := h.eax.trans (heax habsent)
  iret_esp := h.iret.esp_eq.trans
    (show m.esp + 20 - BitVec.ofNat 32 (4 * 3) = m.esp + 8 by bv_omega)
  resumed_eip := by
    rw [h.resumed]
    exact h.iret.top
  resumed_cs := by
    rw [h.resumed]
    exact congrArg (BitVec.setWidth 16) (h.iret.peek_of_getElem? (i := 1) rfl)
  resumed_flags := by
    rw [h.resumed]
    exact h.iret.peek_of_getElem? (i := 2) rfl
  resumed_esp := by
    have hiret : x.iret.esp = m.esp + 20 - BitVec.ofNat 32 (4 * 3) := h.iret.esp_eq
    rw [h.resumed]
    show x.iret.esp + 12 = m.esp + 20
    rw [hiret]
    bv_omega

/-- The words a spurious IRQ makes the exit take for the frame: the last argument, the
saved segments, and the pushed registers up to the number. -/
def shiftedFrame (m : Machine) : SavedFrame where
  data := m.regs.edi
  code := (savedFrame m).data
  edi := (savedFrame m).code
  esi := m.regs.edi
  ebp := m.regs.esi
  esp := m.regs.ebp
  ebx := m.esp
  edx := m.regs.ebx
  ecx := m.regs.edx
  eax := m.regs.ecx
  number := m.regs.eax
  error := m.peek 0

/-- A spurious IRQ: the exit finds its frame one word too low, and acknowledges nothing. -/
theorem isr_tail_of_spurious (h : Spurious r p (m.peek 0)) :
    ∃ x, isr_tail r p w m = some x ∧ x.switch.esp = m.esp - 44 ∧
      x.iret.sent = m.sent ++ askInService := by
  obtain ⟨q, hholds, -, -, ⟨hnot, -⟩ | ⟨-, hrun, hebx, hsent⟩ | ⟨hgenuine, -⟩⟩ := isr_tail_cases r p w m
  · exact absurd h.1 hnot
  · have hshifted : Holds q.esp q.mem (m.esp + 20)
        ([m.peek 0, m.peek 0, m.peek 4, m.esp - 4, m.regs.ecx, m.regs.edx, m.regs.ebx, m.regs.esi] ++
          ((shiftedFrame m).words ++ (m.peek 4 :: interrupted m))) := hholds
    obtain ⟨x, hx, hdown⟩ := isr_tail_no_handle_eq r w hshifted rfl (show 4 < 2 ^ 9 by decide)
    refine ⟨x, hrun.trans hx, hdown.switch.esp_eq.trans ?_, ?_⟩
    · show m.esp + 20 - BitVec.ofNat 32 (4 * 16) = m.esp - 44
      bv_omega
    · have hnone : accepted 0 = [] := by decide
      rw [hdown.sent, hebx, hsent, hnone, List.append_nil]
  · exact absurd (hgenuine.2.symm.trans h.2) (by decide)

/-- The other interrupts, with what the stub sends to the controllers. -/
theorem isr_tail_of_not_spurious (hr : Obeys r (m.peek 0) m.esp) (h : ¬ Spurious r p (m.peek 0)) :
    ∃ x, isr_tail r p w m = some x ∧ Restores r m x ∧
      x.wait = int_common_handle w (toInt (m.peek 0).toNat) ∧
      x.iret.sent = m.sent ++
        if Genuine r p (m.peek 0) then
          askInService ++ accepted (ackMask (BitVec.twoPow 32 (irqOf r (m.peek 0))))
        else accepted m.regs.ebx := by
  obtain ⟨q, hholds, -, hesi, ⟨hnot, hrun, hebx, hsent⟩ | ⟨hspurious, -⟩ |
    ⟨hgenuine, hrun, hebx, hsent⟩⟩ := isr_tail_cases r p w m
  · obtain ⟨x, eax, hx, hdown, heax⟩ := isr_tail_not_irq_eq (f := savedFrame m) (w := w) hr rfl
      rfl hholds hesi
    refine ⟨x, hrun.trans hx, hdown.restores heax, hdown.wait, ?_⟩
    rw [hdown.sent, hebx, hsent, if_neg fun hg => hnot hg.1]
  · exact absurd hspurious h
  · obtain ⟨x, eax, hx, hdown, heax⟩ := isr_tail_not_irq_eq (f := savedFrame m) (w := w) hr rfl
      rfl hholds hesi
    refine ⟨x, hrun.trans hx, hdown.restores heax, hdown.wait, ?_⟩
    rw [hdown.sent, hebx, hsent, if_pos hgenuine, List.append_assoc]

/-- The stub returns through its frame exactly when the interrupt is not a spurious
IRQ. -/
theorem isr_tail_restores_iff (hr : Obeys r (m.peek 0) m.esp) :
    (∃ x, isr_tail r p w m = some x ∧ Restores r m x) ↔ ¬ Spurious r p (m.peek 0) := by
  constructor
  · rintro ⟨x, hx, hrestores⟩ hspurious
    obtain ⟨x', hx', hesp, -⟩ := isr_tail_of_spurious (w := w) hspurious
    obtain rfl := Option.some.inj (hx.symm.trans hx')
    have heq := hesp.symm.trans hrestores.switch_esp
    bv_omega
  · intro h
    obtain ⟨x, hx, hrestores, -⟩ := isr_tail_of_not_spurious (w := w) hr h
    exact ⟨x, hx, hrestores⟩

end

/-! ## A machine with a system call -/

/-- A kernel in which only `int 0x80` has a handler, which answers with `5`. -/
def sampleRoutines : Routines where
  service_table number := if number = 0x80 then 0x1000 else 0
  code _ m := { m with mem := store m.mem (m.peek 12) 5 }.ret
  common := Machine.ret
  pic_offset := 0x20
  behind i := BitVec.ofNat 32 i

/-- The stack of an interrupt, with a value of the interrupted code in `EBX`. -/
def sampleMachine (number ebx : Word) : Machine where
  regs := ⟨0, 0, 0, ebx, 0, 0, 0, 0⟩
  segs := ⟨8, 16, 16, 16, 16, 16⟩
  esp := 0x8000
  eip := 0
  mem := store (fun _ => 0) 0x8000 number
  sent := []

theorem sampleMachine_number (number ebx : Word) : (sampleMachine number ebx).peek 0 = number :=
  load_store_self

theorem ret_cdecl (args frame : ℕ) (out : Option ℕ) (entered : Machine → Prop) :
    Cdecl Machine.ret args frame out entered where
  returns _ _ := rfl
  balanced _ _ := rfl
  saved _ _ := ⟨rfl, rfl, rfl, rfl⟩
  kept _ _ _ _ _ _ _ := rfl

theorem sampleRoutines_obeys (number esp : Word) : Obeys sampleRoutines number esp where
  common := ret_cdecl _ _ _ _
  handler := by
    right
    refine ⟨?_, fun _ _ => rfl, fun _ _ => ⟨rfl, rfl, rfl, rfl⟩, ?_⟩
    · rintro m ⟨hesp, hpointer⟩
      show load (store m.mem (m.peek 12) 5) m.esp = load m.mem m.esp
      rw [hpointer, hesp]
      exact load_store_of_ne (by bv_omega) (by bv_omega)
    · intro m hentered i a hi ha hout
      obtain ⟨h₁, h₂⟩ := hout 2 _ rfl rfl
      exact load_store_of_ne h₁ h₂

theorem isr_tail_restores_syscall :
    (∃ x, isr_tail sampleRoutines ⟨0, 0⟩ ⟨0, false⟩ (sampleMachine 0x80 1) = some x ∧
      Restores sampleRoutines (sampleMachine 0x80 1) x) ↔
        ¬ Spurious sampleRoutines ⟨0, 0⟩ ((sampleMachine 0x80 1).peek 0) :=
  isr_tail_restores_iff (sampleRoutines_obeys _ _)

/-- A spurious IRQ 7. -/
theorem spurious_not_restored :
    ¬ ∃ x, isr_tail sampleRoutines ⟨0, 0⟩ ⟨0, false⟩ (sampleMachine 0x27 0) = some x ∧
      Restores sampleRoutines (sampleMachine 0x27 0) x := by
  rintro ⟨x, hx, hrestores⟩
  have hspurious : Spurious sampleRoutines ⟨0, 0⟩ ((sampleMachine 0x27 0).peek 0) := by
    rw [sampleMachine_number]
    exact ⟨by decide, by decide⟩
  obtain ⟨x', hx', hesp, -⟩ := isr_tail_of_spurious (w := ⟨0, false⟩) hspurious
  obtain rfl := Option.some.inj (hx.symm.trans hx')
  exact absurd (hesp.symm.trans hrestores.switch_esp) (by decide)

/-! ## The acknowledgement -/

/-- An End Of Interrupt command goes to the master exactly for a genuine IRQ, and to the
slave exactly for a genuine IRQ of the slave. -/
def Acknowledges (r : Routines) (p : Pics) (m : Machine) (x : Exit) : Prop :=
  ∃ commands, x.iret.sent = m.sent ++ commands ∧
    commands.count (PIC1_COM, PIC_EOI) = (if Genuine r p (m.peek 0) then 1 else 0) ∧
    commands.count (PIC2_COM, PIC_EOI) =
      if Genuine r p (m.peek 0) ∧ 8 ≤ irqOf r (m.peek 0) then 1 else 0

theorem accepted_count (mask : Word) :
    (accepted mask).count (PIC1_COM, PIC_EOI) = (if low mask = 0 then 0 else 1) ∧
      (accepted mask).count (PIC2_COM, PIC_EOI) = if high mask = 0 then 0 else 1 := by
  unfold accepted
  split <;> split <;> decide

/-- The mask of a genuine IRQ. -/
theorem accepted_irq {k : ℕ} (hk : k < 16) :
    low (ackMask (BitVec.twoPow 32 k)) ≠ 0 ∧
      (high (ackMask (BitVec.twoPow 32 k)) = 0 ↔ ¬ 8 ≤ k) := by
  have hall : ∀ k : Fin 16, low (ackMask (BitVec.twoPow 32 k)) ≠ 0 ∧
      (high (ackMask (BitVec.twoPow 32 k)) = 0 ↔ ¬ 8 ≤ k.val) := by decide
  exact hall ⟨k, hk⟩

section

variable {r : Routines} {p : Pics} {w : Wait} {m : Machine}

/-- The right commands are sent exactly when the interrupt is an IRQ or the interrupted
code has `BL` and `BH` clear. -/
theorem isr_tail_acknowledges_iff (hr : Obeys r (m.peek 0) m.esp) :
    (∃ x, isr_tail r p w m = some x ∧ Acknowledges r p m x) ↔
      IsIrq r (m.peek 0) ∨ (low m.regs.ebx = 0 ∧ high m.regs.ebx = 0) := by
  have hask : askInService.count (PIC1_COM, PIC_EOI) = 0 ∧
      askInService.count (PIC2_COM, PIC_EOI) = 0 := by decide
  by_cases hspurious : Spurious r p (m.peek 0)
  · have hnot : ¬ Genuine r p (m.peek 0) := fun h =>
      absurd (h.2.symm.trans hspurious.2) (by decide)
    obtain ⟨x, hx, -, hsent⟩ := isr_tail_of_spurious (w := w) hspurious
    refine iff_of_true ⟨x, hx, askInService, hsent, ?_, ?_⟩ (Or.inl hspurious.1)
    · rw [if_neg hnot, hask.1]
    · rw [if_neg fun h => hnot h.1, hask.2]
  · obtain ⟨x, hx, -, -, hsent⟩ := isr_tail_of_not_spurious (w := w) hr hspurious
    by_cases hgenuine : Genuine r p (m.peek 0)
    · obtain ⟨hlow, hhigh⟩ := accepted_irq (irqMask_of_irq hgenuine.1).2
      obtain ⟨hmaster, hslave⟩ := accepted_count (ackMask (BitVec.twoPow 32 (irqOf r (m.peek 0))))
      rw [if_pos hgenuine] at hsent
      refine iff_of_true ⟨x, hx, _, hsent, ?_, ?_⟩ (Or.inl hgenuine.1)
      · rw [List.count_append, hask.1, hmaster, if_neg hlow, if_pos hgenuine]
      · rw [List.count_append, hask.2, hslave]
        simp only [hhigh, hgenuine, true_and, Nat.zero_add]
        split <;> simp_all
    · have hirq : ¬ IsIrq r (m.peek 0) := by
        intro h
        rcases Bool.eq_false_or_eq_true (p.inService.getLsbD (irqOf r (m.peek 0))) with ht | hf
        · exact hgenuine ⟨h, ht⟩
        · exact hspurious ⟨h, hf⟩
      have hnone : ¬ (Genuine r p (m.peek 0) ∧ 8 ≤ irqOf r (m.peek 0)) := fun h => hgenuine h.1
      obtain ⟨hmaster, hslave⟩ := accepted_count m.regs.ebx
      rw [if_neg hgenuine] at hsent
      constructor
      · rintro ⟨x', hx', commands, hsent', hcount₁, hcount₂⟩
        obtain rfl := Option.some.inj (hx.symm.trans hx')
        obtain rfl := List.append_cancel_left (hsent.symm.trans hsent')
        rw [hmaster, if_neg hgenuine] at hcount₁
        rw [hslave, if_neg hnone] at hcount₂
        refine Or.inr ⟨?_, ?_⟩
        · by_contra hne
          rw [if_neg hne] at hcount₁
          exact absurd hcount₁ (by decide)
        · by_contra hne
          rw [if_neg hne] at hcount₂
          exact absurd hcount₂ (by decide)
      · rintro (h | ⟨hlow, hhigh⟩)
        · exact absurd h hirq
        · refine ⟨x, hx, _, hsent, ?_, ?_⟩
          · rw [hmaster, if_pos hlow, if_neg hgenuine]
          · rw [hslave, if_pos hhigh, if_neg hnone]

end

theorem isr_tail_acknowledges_syscall :
    (∃ x, isr_tail sampleRoutines ⟨0, 0⟩ ⟨0, false⟩ (sampleMachine 0x80 0) = some x ∧
      Acknowledges sampleRoutines ⟨0, 0⟩ (sampleMachine 0x80 0) x) ↔
        IsIrq sampleRoutines ((sampleMachine 0x80 0).peek 0) ∨
          (low (sampleMachine 0x80 0).regs.ebx = 0 ∧ high (sampleMachine 0x80 0).regs.ebx = 0) :=
  isr_tail_acknowledges_iff (sampleRoutines_obeys _ _)

/-- A system call with `1` in `EBX` acknowledges an interrupt to the master. -/
theorem syscall_acknowledges :
    ¬ ∃ x, isr_tail sampleRoutines ⟨0, 0⟩ ⟨0, false⟩ (sampleMachine 0x80 1) = some x ∧
      Acknowledges sampleRoutines ⟨0, 0⟩ (sampleMachine 0x80 1) x := by
  rintro ⟨x, hx, commands, hsent, hmaster, -⟩
  have hirq : ¬ IsIrq sampleRoutines ((sampleMachine 0x80 1).peek 0) := by
    rw [sampleMachine_number]
    decide
  obtain ⟨x', hx', -, -, hsent'⟩ := isr_tail_of_not_spurious (p := ⟨0, 0⟩) (w := ⟨0, false⟩)
    (sampleRoutines_obeys ((sampleMachine 0x80 1).peek 0) (sampleMachine 0x80 1).esp)
    fun h => hirq h.1
  obtain rfl := Option.some.inj (hx.symm.trans hx')
  rw [if_neg fun h => hirq h.1] at hsent' hmaster
  obtain rfl := List.append_cancel_left (hsent'.symm.trans hsent)
  rw [(accepted_count _).1] at hmaster
  exact absurd hmaster (by decide)

end Neos.Interrupt
