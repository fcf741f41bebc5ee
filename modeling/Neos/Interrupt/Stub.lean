import Neos.Interrupt.Frame

/-!
# Runs of the interrupt stub

`isr_tail` for interrupts that are no IRQ, for genuine IRQs and for spurious ones.  A
spurious IRQ jumps over the code that drops the argument of `int_common_handle`, so the
exit takes the frame from one word too low.
-/

namespace Neos.Interrupt

open Machine32

/-! ## Interrupt numbers -/

/-- The interrupt number is that of an IRQ. -/
def IsIrq (r : Routines) (number : Word) : Prop :=
  r.pic_offset ≤ number ∧ number - r.pic_offset < 16

instance (r : Routines) (number : Word) : Decidable (IsIrq r number) :=
  inferInstanceAs (Decidable (_ ∧ _))

/-- The number of the IRQ. -/
def irqOf (r : Routines) (number : Word) : ℕ := (number - r.pic_offset).toNat

/-- The IRQ is in service. -/
def Genuine (r : Routines) (p : Pics) (number : Word) : Prop :=
  IsIrq r number ∧ p.inService.getLsbD (irqOf r number) = true

instance (r : Routines) (p : Pics) (number : Word) : Decidable (Genuine r p number) :=
  inferInstanceAs (Decidable (_ ∧ _))

/-- An IRQ that no controller has in service. -/
def Spurious (r : Routines) (p : Pics) (number : Word) : Prop :=
  IsIrq r number ∧ p.inService.getLsbD (irqOf r number) = false

section

variable {r : Routines} {p : Pics} {number : Word}

theorem irqMask_of_irq (h : IsIrq r number) :
    irqMask r.pic_offset number = BitVec.twoPow 32 (irqOf r number) ∧ irqOf r number < 16 := by
  have hlt : irqOf r number < 16 := h.2
  have hshift : ∀ k : Fin 16, (1 : Word) <<< (BitVec.ofNat 32 k &&& 31) = BitVec.twoPow 32 k := by
    decide
  have hk := hshift ⟨irqOf r number, hlt⟩
  have hirq : r.pic_offset ≤ number ∧ number - r.pic_offset < 16 := h
  rw [irqMask, if_pos hirq]
  refine ⟨?_, hlt⟩
  simp only [irqOf, BitVec.ofNat_toNat, BitVec.setWidth_eq] at hk ⊢
  exact hk

theorem irqMask_ne_zero (h : IsIrq r number) : irqMask r.pic_offset number ≠ 0 := by
  obtain ⟨hmask, hlt⟩ := irqMask_of_irq h
  have hpow : ∀ k : Fin 16, BitVec.twoPow 32 k ≠ 0 := by decide
  rw [hmask]
  exact hpow ⟨_, hlt⟩

theorem irqMask_of_not_irq (h : ¬ IsIrq r number) : irqMask r.pic_offset number = 0 := if_neg h

/-- The mask and the in-service register share the bit of the IRQ. -/
theorem irqMask_and (h : IsIrq r number) :
    irqMask r.pic_offset number &&& p.inService =
      if p.inService.getLsbD (irqOf r number) then BitVec.twoPow 32 (irqOf r number) else 0 := by
  rw [(irqMask_of_irq h).1, BitVec.twoPow_and]
  rfl

end

/-! ## The handlers -/

/-- The code called for an interrupt obeys `cdecl` where the stub calls it, `esp` being
the stack pointer the stub was entered with.  Behind its argument `int_common_handle`
finds those of the handler, the twelve saved words and what the interrupt pushed; the
handler is given a pointer to the saved `EAX`. -/
structure Obeys (r : Routines) (number esp : Word) : Prop where
  common : Cdecl r.common 1 23 none fun m => m.esp = esp - 80
  handler : r.service_table number = 0 ∨
    Cdecl (r.code (r.service_table number)) 8 15 (some 2) fun m =>
      m.esp = esp - 76 ∧ m.peek 12 = esp - 4

section

variable {r : Routines} {w : Wait} {m : Machine} {bottom : Word} {f : SavedFrame}
  {rest : List Word}

/-- A call of C code returns, with the frame of its caller but for the word it may
write. -/
theorem call_cdecl {g : Machine → Machine} {args frame : ℕ} {out : Option ℕ}
    {entered : Machine → Prop} (hg : Cdecl g args frame out entered) (as fs : List Word)
    (behind : Word) (slot : ℕ) (hentered : entered (m.push behind))
    (h : Holds m.esp m.mem bottom (as ++ fs)) (has : as.length = args) (hfs : fs.length = frame)
    (hsmall : args + frame < 2 ^ 16)
    (hout : ∀ k, out = some k → ∃ hk : k < as.length,
      as[k] + BitVec.ofNat 32 (4 * (frame - slot)) = bottom) :
    ∃ m' as' x, callC behind g m = some m' ∧ as'.length = args ∧
      Holds m'.esp m'.mem bottom (as' ++ fs.set slot x) ∧ CalleeSaved m m' ∧
        m'.sent = m.sent := by
  obtain ⟨as', x, has', hholds⟩ := hg.holds slot h has hfs hsmall hentered hout
  have heip : (g (m.push behind)).eip = behind := by
    rw [hg.returns _ hentered]
    exact (h.push behind (by rw [List.length_append]; omega)).top
  have hsaved := hg.saved _ hentered
  refine ⟨{ g (m.push behind) with sent := m.sent }, as', x, ?_, has', hholds, ?_, rfl⟩
  · rw [callC, Machine.call_eq heip, Option.map_some]
  · exact ⟨hsaved.ebx, hsaved.ebp, hsaved.esi, hsaved.edi⟩

/-- What a call of C code leaves in memory. -/
theorem callC_mem {g : Machine → Machine} {behind : Word} {m' : Machine}
    (h : callC behind g m = some m') : m'.mem = (g (m.push behind)).mem := by
  obtain ⟨q, hcall, rfl⟩ := Option.map_eq_some_iff.mp h
  unfold Machine.call at hcall
  split at hcall
  · cases hcall
    rfl
  · cases hcall

/-- `int_common_handle` is called, with the arguments of the handler left on the stack. -/
theorem isr_tail_not_irq_common {esp : Word}
    (hcommon : Cdecl r.common 1 23 none fun m => m.esp = esp - 80) (hrest : rest.length = 3)
    (hbottom : bottom = esp + 20)
    (h : Holds m.esp m.mem bottom (f.number :: (f.arguments (esp - 4) ++ (f.words ++ rest))))
    (hesi : m.regs.esi = r.service_table f.number) :
    ∃ q : Machine, Holds q.esp q.mem bottom (f.arguments (esp - 4) ++ (f.words ++ rest)) ∧
      q.regs.esi = r.service_table f.number ∧ q.regs.ebx = m.regs.ebx ∧ q.sent = m.sent ∧
        q.mem = (r.common (m.push (r.behind 3))).mem ∧
          isr_tail_not_irq r w m =
            if r.service_table f.number = 0 then
              isr_tail_no_handle r (int_common_handle w (toInt f.number.toNat)) q
            else
              (callC (r.behind 4) (r.code q.regs.esi) q).bind
                (isr_tail_no_handle r (int_common_handle w (toInt f.number.toNat))) := by
  have hwords : (f.words ++ rest).length = 15 := by
    rw [List.length_append, hrest]
    rfl
  have harguments : (f.arguments (esp - 4) ++ (f.words ++ rest)).length = 23 := by
    rw [List.length_append, hwords]
    rfl
  have htop : m.top = f.number := h.top
  have hentered : (m.push (r.behind 3)).esp = esp - 80 := by
    have hesp := h.esp_eq
    rw [List.length_cons, harguments, hbottom] at hesp
    simp only [Machine.push, hesp]
    bv_omega
  -- `int_common_handle` may write over the number it was given
  obtain ⟨m₁, as₁, x₁, hcall₁, has₁, hholds₁, hsaved₁, hsent₁⟩ := call_cdecl hcommon
    [f.number] (f.arguments (esp - 4) ++ (f.words ++ rest)) (r.behind 3) 23
    hentered h rfl harguments (by decide) (fun k hk => by cases hk)
  rw [List.set_eq_of_length_le (by rw [harguments])] at hholds₁
  have hdropped : Holds (m₁.release 4).esp (m₁.release 4).mem bottom
      (f.arguments (esp - 4) ++ (f.words ++ rest)) := by
    have hdrop := hholds₁.release as₁
    rw [has₁] at hdrop
    exact hdrop
  have hesi₁ : m₁.regs.esi = r.service_table f.number := hsaved₁.esi.trans hesi
  have hmem₁ : m₁.mem = (r.common (m.push (r.behind 3))).mem := callC_mem hcall₁
  refine ⟨(m₁.release 4).setFlags (decide (m₁.regs.esi = 0)) false, hdropped, hesi₁, hsaved₁.ebx,
    hsent₁, hmem₁, ?_⟩
  have hzero : ((m₁.release 4).setFlags (decide ((m₁.release 4).regs.esi = 0)) false).zf =
      decide (r.service_table f.number = 0) := by
    rw [← hesi₁]
    exact Machine.zf_setFlags _ _ _
  rw [isr_tail_not_irq, hcall₁, htop]
  simp only [Option.bind_eq_bind, Option.bind_some, hzero, decide_eq_true_eq]
  rfl

/-- The handlers are called and the frame is taken down; the handler may have written
the saved `EAX`. -/
theorem isr_tail_not_irq_eq {esp : Word} (hr : Obeys r f.number esp) (hrest : rest.length = 3)
    (hbottom : bottom = esp + 20)
    (h : Holds m.esp m.mem bottom (f.number :: (f.arguments (esp - 4) ++ (f.words ++ rest))))
    (hesi : m.regs.esi = r.service_table f.number) :
    ∃ x eax, isr_tail_not_irq r w m = some x ∧
      TakesDown m (int_common_handle w (toInt f.number.toNat)) bottom { f with eax := eax } rest x ∧
        (r.service_table f.number = 0 → eax = f.eax) := by
  have hwords : (f.words ++ rest).length = 15 := by
    rw [List.length_append, hrest]
    rfl
  have harguments : (f.arguments (esp - 4) ++ (f.words ++ rest)).length = 23 := by
    rw [List.length_append, hwords]
    rfl
  obtain ⟨q, hcommon, hesi₁, hebx₁, hsent₁, -, hrun⟩ := isr_tail_not_irq_common (w := w) hr.common
    hrest hbottom h hesi
  rw [hrun]
  split
  · next habsent =>
      obtain ⟨x, hx, hdown⟩ := isr_tail_no_handle_eq (m := q) r
        (int_common_handle w (toInt f.number.toNat)) hcommon rfl (by omega)
      refine ⟨x, f.eax, hx, { hdown with sent := ?_ }, fun _ => rfl⟩
      rw [hdown.sent, hebx₁, hsent₁]
  · next hpresent =>
      have hhandler := hr.handler.resolve_left hpresent
      rw [hesi₁]
      have hentered₂ : (q.push (r.behind 4)).esp = esp - 76 := by
        have hesp : q.esp = bottom - BitVec.ofNat 32 (4 * 23) := by
          rw [← harguments]
          exact hcommon.esp_eq
        simp only [Machine.push, hesp, hbottom]
        bv_omega
      have hargument : (q.push (r.behind 4)).peek 12 = esp - 4 :=
        (Holds.push (m := q) hcommon (r.behind 4) (by rw [harguments]; decide)).peek_of_getElem?
          (i := 3) rfl
      -- the third argument points to the saved `EAX`
      obtain ⟨m₂, as₂, eax, hcall₂, has₂, hholds₂, hsaved₂, hsent₂⟩ := call_cdecl (m := q) hhandler
        (f.arguments (esp - 4)) (f.words ++ rest) (r.behind 4) 9 ⟨hentered₂, hargument⟩ hcommon rfl
        hwords (by decide) (fun k hk => by
          cases hk
          refine ⟨by simp [SavedFrame.arguments], ?_⟩
          show esp - 4 + BitVec.ofNat 32 (4 * (15 - 9)) = bottom
          rw [hbottom]
          bv_omega)
      have hset : (f.words ++ rest).set 9 eax = { f with eax := eax }.words ++ rest := rfl
      rw [hset] at hholds₂
      obtain ⟨x, hx, hdown⟩ := isr_tail_no_handle_eq r
        (int_common_handle w (toInt f.number.toNat)) hholds₂ has₂ (by omega)
      refine ⟨x, eax, ?_, { hdown with sent := ?_ }, fun h => absurd h hpresent⟩
      · rw [hcall₂, Option.bind_some, hx]
      · rw [hdown.sent, hsent₂, hsaved₂.ebx, hebx₁, hsent₁]

/-- The mask that is acknowledged: a slave's IRQ is acknowledged to the master too. -/
def ackMask (mask : Word) : Word := if high mask = 0 then mask else mask ||| 0x02

theorem isr_tail_no_low_bit_eq (r : Routines) (w : Wait) {flags : Word} {vs : List Word}
    (h : Holds m.esp m.mem bottom (flags :: vs)) :
    ∃ q : Machine, Holds q.esp q.mem bottom vs ∧ q.regs = { m.regs with eflags := flags } ∧
      q.sent = m.sent ∧ q.mem = m.mem ∧
        isr_tail_no_low_bit r w m =
          if flags.getLsbD 6 then isr_tail_no_handle r w q else isr_tail_not_irq r w q := by
  refine ⟨{ m.release 4 with regs := { m.regs with eflags := flags } },
    h.release [flags], rfl, rfl, rfl, ?_⟩
  rw [isr_tail_no_low_bit, h.top]
  rfl

/-- An IRQ: the mask of the interrupt is compared with the in-service register. -/
theorem isr_tail_irq_eq (r : Routines) (p : Pics) (w : Wait) {vs : List Word}
    (h : Holds m.esp m.mem bottom vs) (hsmall : vs.length < 2 ^ 9) :
    ∃ q : Machine, Holds q.esp q.mem bottom vs ∧ q.regs.esi = m.regs.esi ∧
      q.regs.ebx = ackMask (m.regs.eax &&& p.inService) ∧ q.sent = m.sent ++ askInService ∧
        (∀ {top : Word} {room d : ℕ} {mem : Word → Byte}, AtDepth top room mem d m →
          d + 8 ≤ room → AtDepth top room mem d q) ∧
        isr_tail_irq r p w m =
          if m.regs.eax &&& p.inService = 0 then isr_tail_no_handle r w q
          else isr_tail_not_irq r w q := by
  have hmask := h.push m.regs.eax (by omega)
  obtain ⟨m₁, hcall, hback, -, hsent, heax⟩ := call_pic_isr p (r.behind 2) hmask
    (by simp only [List.length_cons]; omega)
  have htop : m₁.top = m.regs.eax := hback.holds.top
  have hpop : Holds (m₁.release 4).esp (m₁.release 4).mem bottom vs :=
    hback.holds.release [m.regs.eax]
  rw [← heax]
  let v := m.regs.eax &&& m₁.regs.eax
  let q₀ := (((m₁.release 4).setEbx m.regs.eax).setFlags (decide (v = 0)) false).setEbx v
  have hesi : q₀.regs.esi = m.regs.esi := hback.saved.esi
  -- the flags of the comparison lie on the stack while the low bits are set
  have hflags := Holds.push (m := q₀) hpop q₀.regs.eflags (by omega)
  have hzero : q₀.regs.eflags.getLsbD 6 = decide (v = 0) := Machine.zf_setFlags _ _ _
  let q₁ := (q₀.push q₀.regs.eflags).setFlags (decide (high v = 0)) false
  let q₂ := (q₁.setFlags false false).setEbx (v ||| 0x02)
  have hrun : isr_tail_irq r p w m =
      if high v = 0 then isr_tail_no_low_bit r w q₁ else isr_tail_no_low_bit r w q₂ := by
    rw [isr_tail_irq, hcall]
    simp only [Option.bind_eq_bind, Option.bind_some, htop, Machine.zf_setFlags,
      decide_eq_true_eq]
    rfl
  -- the flags are written where the mask was
  have hdepth : ∀ q : Machine, Holds q.esp q.mem bottom vs → q.mem = q₁.mem →
      ∀ {top : Word} {room d : ℕ} {mem : Word → Byte}, AtDepth top room mem d m →
        d + 8 ≤ room → AtDepth top room mem d q := by
    intro q hq hmem top room d mem hd hroom
    have hback' := atDepth_call_pic_isr (hd.push (by omega) m.regs.eax) (by omega) hcall
    have hrelease := AtDepth.release (n := 4) hback' 4 rfl
    have hpop' : AtDepth top room mem d q₀ := ⟨hrelease.depth, hrelease.kept⟩
    refine ⟨?_, ?_⟩
    · rw [hq.esp_eq, ← h.esp_eq]
      exact hd.depth
    · rw [hmem]
      exact (hpop'.push (by omega) q₀.regs.eflags).kept
  rw [hrun, ackMask]
  by_cases hhigh : high v = 0
  · obtain ⟨q, hq, hregs, hsent', hmem, hlow⟩ := isr_tail_no_low_bit_eq (m := q₁) r w hflags
    refine ⟨q, hq, ?_, ?_, hsent'.trans hsent, hdepth q hq hmem, ?_⟩
    · rw [hregs]
      exact hesi
    · rw [hregs, if_pos hhigh]
      rfl
    · rw [if_pos hhigh, hlow, hzero]
      simp only [decide_eq_true_eq]
      rfl
  · obtain ⟨q, hq, hregs, hsent', hmem, hlow⟩ := isr_tail_no_low_bit_eq (m := q₂) r w hflags
    refine ⟨q, hq, ?_, ?_, hsent'.trans hsent, hdepth q hq hmem, ?_⟩
    · rw [hregs]
      exact hesi
    · rw [hregs, if_neg hhigh]
      rfl
    · rw [if_neg hhigh, hlow, hzero]
      simp only [decide_eq_true_eq]
      rfl

/-- What the interrupt pushed: `EIP`, `CS` and the flags. -/
def interrupted (m : Machine) : List Word := [m.peek 8, m.peek 12, m.peek 16]

/-- The stack in front of the handlers: the number for `int_common_handle`, the arguments
of the handler and the frame. -/
def armed (m : Machine) : List Word :=
  m.peek 0 :: ((savedFrame m).arguments (m.esp - 4) ++ ((savedFrame m).words ++ interrupted m))

/-- The three ways through the stub, which go no deeper than `104` bytes below what the
interrupt pushed. -/
theorem isr_tail_cases (r : Routines) (p : Pics) (w : Wait) (m : Machine) :
    ∃ q : Machine, Holds q.esp q.mem (m.esp + 20) (armed m) ∧
      AtDepth (m.esp + 20) 104 m.mem 96 q ∧ q.regs.esi = r.service_table (m.peek 0) ∧
      ((¬ IsIrq r (m.peek 0) ∧ isr_tail r p w m = isr_tail_not_irq r w q ∧
          q.regs.ebx = m.regs.ebx ∧ q.sent = m.sent) ∨
        (Spurious r p (m.peek 0) ∧ isr_tail r p w m = isr_tail_no_handle r w q ∧
          q.regs.ebx = 0 ∧ q.sent = m.sent ++ askInService) ∨
        (Genuine r p (m.peek 0) ∧ isr_tail r p w m = isr_tail_not_irq r w q ∧
          q.regs.ebx = ackMask (BitVec.twoPow 32 (irqOf r (m.peek 0))) ∧
          q.sent = m.sent ++ askInService)) := by
  have hentry : Holds m.esp m.mem (m.esp + 20) (m.peek 0 :: m.peek 4 :: interrupted m) :=
    holds_peeks m 5
  have hthree : (interrupted m).length = 3 := rfl
  have harmed : (armed m).length < 2 ^ 9 := show 24 < 2 ^ 9 by decide
  obtain ⟨m₁, hsave, hholds₁, hebp₁, hebx₁, hsent₁⟩ := isr_tail_save r hentry (by omega)
  have hframe : m₁.regs.ebp + BitVec.ofNat 32 (4 * (10 + (interrupted m).length)) = m.esp + 20 := by
    rw [hebp₁]
    simp only [interrupted, List.length_cons, List.length_nil]
    bv_omega
  have hpointer : m₁.regs.ebp + 28 = m.esp - 4 := by
    rw [hebp₁]
    bv_omega
  obtain ⟨hholds₂, hesi₂, hebx₂, hsent₂⟩ := isr_tail_arguments_holds r hholds₁ (by omega) hframe
  rw [hpointer] at hholds₂
  obtain ⟨m₃, hcall, hback, -, hsent₃, heax⟩ := call_pic_irq r.pic_offset (r.behind 1) hholds₂
    (show 23 < 2 ^ 10 by decide)
  let m₄ := m₃.setFlags (decide (m₃.regs.eax = 0)) false
  have hentered : AtDepth (m.esp + 20) 104 m.mem 20 m := ⟨rfl, fun _ _ => rfl⟩
  have hdepth : AtDepth (m.esp + 20) 104 m.mem 96 m₄ :=
    have hsegs := atDepth_isr_tail_segments (hentered.pusha (by decide)) (by decide) hsave
    have hargs := atDepth_isr_tail_arguments (r := r) hsegs (by decide)
    have hback := atDepth_call_pic_irq hargs (by decide) hcall
    ⟨hback.depth, hback.kept⟩
  have hesi : m₄.regs.esi = r.service_table (m.peek 0) := hback.saved.esi.trans hesi₂
  have hebx : m₄.regs.ebx = m.regs.ebx := by
    calc m₃.regs.ebx = (isr_tail_arguments r m₁).regs.ebx := hback.saved.ebx
      _ = m.regs.ebx := by rw [hebx₂, hebx₁]
  have hsent : m₄.sent = m.sent := by
    calc m₃.sent = (isr_tail_arguments r m₁).sent := hsent₃
      _ = m.sent := by rw [hsent₂, hsent₁]
  have hrun : isr_tail r p w m =
      if irqMask r.pic_offset (m.peek 0) = 0 then isr_tail_not_irq r w m₄
      else isr_tail_irq r p w m₄ := by
    rw [← show _ = irqMask r.pic_offset (m.peek 0) from heax, isr_tail, hsave]
    simp only [Option.bind_eq_bind, Option.bind_some, hcall, Machine.zf_setFlags,
      decide_eq_true_eq]
    rfl
  rw [hrun]
  by_cases hirq : IsIrq r (m.peek 0)
  · obtain ⟨q, hq, hesiq, hebxq, hsentq, hdepthq, hirqrun⟩ := isr_tail_irq_eq (m := m₄) r p w
      hback.holds harmed
    have hand : m₄.regs.eax &&& p.inService = if p.inService.getLsbD (irqOf r (m.peek 0)) then
        BitVec.twoPow 32 (irqOf r (m.peek 0)) else 0 := by
      rw [← irqMask_and hirq]
      exact congrArg (· &&& _) heax
    rw [hand] at hebxq hirqrun
    refine ⟨q, hq, hdepthq hdepth (by decide), hesiq.trans hesi, Or.inr ?_⟩
    rw [if_neg (irqMask_ne_zero hirq), hirqrun]
    rw [hsent] at hsentq
    by_cases hservice : p.inService.getLsbD (irqOf r (m.peek 0)) = true
    · right
      obtain ⟨hmask, -⟩ := irqMask_of_irq hirq
      rw [if_pos hservice] at hebxq ⊢
      rw [if_neg (hmask ▸ irqMask_ne_zero hirq)]
      exact ⟨⟨hirq, hservice⟩, rfl, hebxq, hsentq⟩
    · left
      rw [if_neg hservice] at hebxq ⊢
      rw [if_pos rfl]
      exact ⟨⟨hirq, Bool.eq_false_iff.mpr hservice⟩, rfl, hebxq, hsentq⟩
  · refine ⟨m₄, hback.holds, hdepth, hesi, Or.inl ⟨hirq, ?_, hebx, hsent⟩⟩
    rw [if_pos (irqMask_of_not_irq hirq)]

end

end Neos.Interrupt
