import Neos.Interrupt.Exit

/-!
# The stack switch

`switch.asm`, `context_switch`, the handler of the timer, with `isr_into_stack` and
`isr_stub_stack` of `routine.asm`.  The handler does not come back to the stack it was
called on: the stub goes on with the stack that `scheduler_context_switch` returns, and
takes down whatever frame lies there.
-/

namespace Neos.Interrupt

open Machine32

/-! ## The routines -/

/-- `routine.asm`, `isr_into_stack`. -/
def isr_into_stack (m : Machine) : Machine :=
  -- its own return address is ignored
  let m := m.release 4
  let m := (m.setEax m.top).release 4
  let m := (m.setEdx m.top).release 4
  { m with esp := m.regs.eax, eip := m.regs.edx }

/-- `switch.asm`, `context_switch`; the last call does not come back. -/
def context_switch (scheduler_context_switch : Machine → Machine) (behind behind' : Word)
    (m : Machine) : Option Machine := do
  let m := m.setEax m.esp
  let m := m.setEax (m.regs.eax + 4)
  let m := m.push m.regs.eax
  let m ← m.call behind scheduler_context_switch
  let m := m.release 4
  let m := m.push m.regs.eax
  return isr_into_stack (m.push behind')

/-- `routine.asm`, `isr_stub_stack`: the switch to the given stack. -/
def stub_enter (m : Machine) : Machine :=
  let m := m.push m.regs.ebp
  let m := m.setEbp m.esp
  let m := m.setEcx (load m.mem (m.regs.ebp + 12))
  { m with esp := load m.mem (m.regs.ebp + 8) }

/-- `routine.asm`, `isr_stub_stack`: the words that `iret` will take. -/
def stub_return (m : Machine) : Machine :=
  -- `clc` and `cld`
  let m := { m with regs := { m.regs with eflags := m.regs.eflags &&& ~~~0x401#32 } }
  let m := m.push m.regs.eflags
  let m := { m with mem := store m.mem m.esp (m.top ||| 0x0200) }
  let m := m.setAx ((load m.mem (m.regs.ebp + 20)).setWidth 16)
  let m := m.setAx (m.regs.eax.setWidth 16 <<< 3)
  let m := m.push m.regs.eax
  m.push m.regs.ecx

/-- `routine.asm`, `isr_stub_stack`: what the head and `pusha` would have pushed, with
`'SOEN'` in the place of `EAX`. -/
def stub_registers (m : Machine) : Machine :=
  let m := m.push 0x0000
  let m := m.push 0x00FF
  let m := m.setEdx m.esp
  let m := m.setEdx (m.regs.edx + load m.mem (m.regs.ebp + 24))
  let m := m.push 0x4E454F53
  let m := m.push 0xECEC
  let m := m.push 0xEDED
  let m := m.push 0xEBEB
  let m := m.push m.regs.edx
  let m := m.push 0xB1B1
  let m := m.push 0x5151
  m.push 0xD1D1

/-- `routine.asm`, `isr_stub_stack`: the saved segments. -/
def stub_segments (m : Machine) : Machine :=
  let m := m.push (load m.mem (m.regs.ebp + 20))
  m.push (load m.mem (m.regs.ebp + 16))

/-- `routine.asm`, `isr_stub_stack`, from `sub esp, 4*8`: the arguments of a handler are
left out, and the caller gets its stack back. -/
def stub_leave (m : Machine) : Machine :=
  let m := { m with esp := m.esp - 4 * 8 }
  let m := m.setEax m.esp
  let m := { m with esp := m.regs.ebp }
  let m := (m.setEbp m.top).release 4
  m.ret

/-- `routine.asm`, `isr_stub_stack`. -/
def isr_stub_stack (m : Machine) : Machine :=
  stub_leave (stub_segments (stub_registers (stub_return (stub_enter m))))

/-- The head of a routine without an error code. -/
def isr_head (number : Word) (m : Machine) : Machine := (m.push 0).push number

/-- A compiled C function that is entered `d` bytes below `top` and writes only to the
`room` bytes below `top`. -/
structure CdeclBelow (f : Machine → Machine) (args frame : ℕ) (top : Word) (room : ℕ)
    (entered : Machine → Prop) : Prop extends Cdecl f args frame none entered where
  confined : ∀ m, entered m → ∀ a : Word, room ≤ (top - 1 - a).toNat → (f m).mem a = m.mem a

/-- The linked kernel handles an interrupt with `context_switch`.  Its C functions keep to
`room` bytes of the interrupted stack, which begins at `top`, and the scheduler answers
the stack pointer it is given with `stack`. -/
structure SwitchesStack (r : Routines) (number : Word) (room : ℕ) (top stack : Word)
    (scheduler : Machine → Machine) : Prop where
  common : CdeclBelow r.common 1 23 top room fun m => m.esp = top - 100
  scheduled : CdeclBelow scheduler 1 24 top room fun m => m.esp = top - 104 ∧ m.peek 4 = top - 92
  answer : ∀ m : Machine, m.esp = top - 104 → m.peek 4 = top - 92 → (scheduler m).regs.eax = stack
  present : r.service_table number ≠ 0
  handler : ∃ behind behind', ∀ m : Machine, m.esp = top - 96 →
    context_switch scheduler behind behind' m = some (r.code (r.service_table number) m)

section

variable {r : Routines} {p : Pics} {w : Wait} {m : Machine} {x : Exit} {bottom : Word}
  {vs : List Word}

/-! ## The handler -/

/-- The stub goes on where the handler was called, with another stack. -/
theorem isr_into_stack_eq {own stack back : Word}
    (h : Holds m.esp m.mem bottom (own :: stack :: back :: vs)) :
    (isr_into_stack m).eip = back ∧ (isr_into_stack m).esp = stack ∧
      (isr_into_stack m).mem = m.mem ∧ CalleeSaved m (isr_into_stack m) ∧
        Holds (bottom - BitVec.ofNat 32 (4 * vs.length)) m.mem bottom vs := by
  have hstack : Holds (m.release 4).esp (m.release 4).mem bottom (stack :: back :: vs) :=
    h.release [own]
  let q := ((m.release 4).setEax (m.release 4).top).release 4
  have hback : Holds q.esp q.mem bottom (back :: vs) := hstack.release [stack]
  have hrest : Holds (q.release 4).esp (q.release 4).mem bottom vs := hback.release [back]
  refine ⟨hback.top, hstack.top, rfl, ⟨rfl, rfl, rfl, rfl⟩, ?_⟩
  rw [← hrest.esp_eq]
  exact hrest

/-- The machine in which the scheduler is entered. -/
def schedulerEntry (behind : Word) (m : Machine) : Machine :=
  (((m.setEax m.esp).setEax (m.esp + 4)).push (m.esp + 4)).push behind

theorem schedulerEntry_atDepth {top : Word} {room d : ℕ} {mem : Word → Byte}
    (h : AtDepth top room mem d m) (hroom : d + 8 ≤ room) (behind : Word) :
    AtDepth top room mem (d + 8) (schedulerEntry behind m) := by
  have hset : AtDepth top room mem d ((m.setEax m.esp).setEax (m.esp + 4)) := ⟨h.depth, h.kept⟩
  exact (hset.push (by omega) (m.esp + 4)).push (by omega) behind

theorem schedulerEntry_argument (behind : Word) (m : Machine) :
    (schedulerEntry behind m).peek 4 = m.esp + 4 := by
  have h : Holds m.esp m.mem m.esp [] := ⟨by simp, fun i hi => absurd hi (by simp)⟩
  have harg := Holds.push (m := (m.setEax m.esp).setEax (m.esp + 4)) h (m.esp + 4) (by simp)
  exact (harg.push behind (by simp)).peek_of_getElem? (i := 1) rfl

theorem context_switch_eq {scheduler : Machine → Machine} {back : Word}
    {entered : Machine → Prop} (behind behind' : Word) (hscheduler : Cdecl scheduler 1 24 none entered)
    (hentered : entered (schedulerEntry behind m))
    (h : Holds m.esp m.mem bottom (back :: vs)) (hvs : vs.length = 23) :
    ∃ q, context_switch scheduler behind behind' m = some q ∧ q.eip = back ∧
      q.esp = (scheduler (schedulerEntry behind m)).regs.eax ∧
        Holds (bottom - BitVec.ofNat 32 (4 * vs.length)) q.mem bottom vs ∧ CalleeSaved m q ∧
          (∀ {top : Word} {room d : ℕ} {mem : Word → Byte}, AtDepth top room mem d m →
            d + 8 ≤ room →
            (∀ a : Word, room ≤ (top - 1 - a).toNat →
              (scheduler (schedulerEntry behind m)).mem a = (schedulerEntry behind m).mem a) →
            ∀ a : Word, room ≤ (top - 1 - a).toNat → q.mem a = mem a) := by
  let q₀ := (m.setEax m.esp).setEax (m.esp + 4)
  have harg := Holds.push (m := q₀) h (m.esp + 4) (by rw [List.length_cons]; omega)
  have hlists : Holds (q₀.push (m.esp + 4)).esp (q₀.push (m.esp + 4)).mem bottom
      ([m.esp + 4] ++ (back :: vs)) := harg
  obtain ⟨as, x, has, hreturned⟩ := hscheduler.holds 24
    hlists rfl (by rw [List.length_cons, hvs]) (by decide) hentered (fun k hk => by cases hk)
  rw [List.set_eq_of_length_le (by rw [List.length_cons, hvs])] at hreturned
  have hbehind : (schedulerEntry behind m).top = behind :=
    (harg.push behind (by rw [List.length_cons, List.length_cons]; omega)).top
  let m₁ := scheduler (schedulerEntry behind m)
  have hcall : (q₀.push (m.esp + 4)).call behind scheduler = some m₁ :=
    Machine.call_eq ((hscheduler.returns _ hentered).trans hbehind)
  have hdropped : Holds (m₁.release 4).esp (m₁.release 4).mem bottom (back :: vs) := by
    have hdrop := hreturned.release as
    rw [has] at hdrop
    exact hdrop
  have hstack := hdropped.push m₁.regs.eax (by rw [List.length_cons]; omega)
  have hown := hstack.push behind' (by rw [List.length_cons, List.length_cons]; omega)
  obtain ⟨heip, hesp, hmem, hsaved, hholds⟩ := isr_into_stack_eq hown
  have hsaved₁ := hscheduler.saved _ hentered
  have hrun : context_switch scheduler behind behind' m =
      some (isr_into_stack (((m₁.release 4).push m₁.regs.eax).push behind')) := by
    have hstep : context_switch scheduler behind behind' m =
        ((q₀.push (m.esp + 4)).call behind scheduler).bind fun q =>
          some (isr_into_stack (((q.release 4).push q.regs.eax).push behind')) := rfl
    rw [hstep, hcall, Option.bind_some]
  refine ⟨_, hrun, heip, hesp, ?_, ?_, ?_⟩
  · rw [hmem]
    exact hholds
  · exact ⟨hsaved.ebx.trans hsaved₁.ebx, hsaved.ebp.trans hsaved₁.ebp,
      hsaved.esi.trans hsaved₁.esi, hsaved.edi.trans hsaved₁.edi⟩
  · intro top room d mem hd hroom hconfined a ha
    have hentry := schedulerEntry_atDepth hd hroom behind
    have hdropped' : AtDepth top room mem d (m₁.release 4) := by
      refine ⟨?_, fun a ha => (hconfined a ha).trans (hentry.kept a ha)⟩
      rw [hdropped.esp_eq, ← h.esp_eq]
      exact hd.depth
    rw [hmem]
    exact ((hdropped'.push (by omega) m₁.regs.eax).push (by omega) behind').kept a ha

/-- The stub leaves its frame on the interrupted stack and goes on with the other one. -/
theorem isr_tail_switches {room : ℕ} {stack : Word} {scheduler : Machine → Machine}
    (hr : SwitchesStack r (m.peek 0) room (m.esp + 20) stack scheduler) (hroom : 104 ≤ room)
    (hgenuine : Genuine r p (m.peek 0)) :
    ∃ q : Machine,
      isr_tail r p w m =
        isr_tail_no_handle r (int_common_handle w (toInt (m.peek 0).toNat)) q ∧
      q.esp = stack ∧
      Holds (m.esp - 72) q.mem (m.esp + 20)
        ((savedFrame m).arguments (m.esp - 4) ++ ((savedFrame m).words ++ interrupted m)) ∧
      (∀ a : Word, room ≤ (m.esp + 20 - 1 - a).toNat → q.mem a = m.mem a) ∧
      q.regs.ebx = ackMask (BitVec.twoPow 32 (irqOf r (m.peek 0))) ∧
      q.sent = m.sent ++ askInService := by
  obtain ⟨q₀, hholds, hdepth, hesi, ⟨hnot, -⟩ | ⟨hspurious, -⟩ | ⟨-, hrun, hebx, hsent⟩⟩ :=
    isr_tail_cases r p w m
  · exact absurd hgenuine.1 hnot
  · exact absurd (hgenuine.2.symm.trans hspurious.2) (by decide)
  have hdepth₀ := hdepth.mono hroom
  have hcommon := hr.common.toCdecl
  rw [show m.esp + 20 - 100 = m.esp - 80 by bv_omega] at hcommon
  obtain ⟨q₁, hholds₁, hesi₁, hebx₁, hsent₁, hmem₁, hrun₁⟩ := isr_tail_not_irq_common
    (f := savedFrame m) (w := w) hcommon rfl rfl hholds hesi
  rw [if_neg (show r.service_table (savedFrame m).number ≠ 0 from hr.present)] at hrun₁
  -- `int_common_handle` has returned
  have hdepth₁ : AtDepth (m.esp + 20) room m.mem 92 q₁ := by
    refine ⟨hholds₁.1, fun a ha => ?_⟩
    have hpushed := hdepth₀.push (by omega) (r.behind 3)
    rw [hmem₁, hr.common.confined _ hpushed.esp_eq a ha]
    exact hpushed.kept a ha
  have hentered := hdepth₁.push (by omega) (r.behind 4)
  have hback := hholds₁.push (r.behind 4) (show 23 < 2 ^ 20 by decide)
  obtain ⟨behind, behind', hhandler⟩ := hr.handler
  have hentry := schedulerEntry_atDepth hentered (by omega) behind
  have hargument : (schedulerEntry behind (q₁.push (r.behind 4))).peek 4 = m.esp + 20 - 92 := by
    rw [schedulerEntry_argument, hentered.esp_eq]
    bv_omega
  have hstate := And.intro hentry.esp_eq hargument
  obtain ⟨q₂, hswitch, heip, hesp, hholds₂, hsaved, hkept⟩ := context_switch_eq behind behind'
    hr.scheduled.toCdecl hstate hback rfl
  have hcode : r.code q₁.regs.esi (q₁.push (r.behind 4)) = q₂ := by
    have hrun₂ := hhandler _ hentered.esp_eq
    rw [hesi₁]
    exact (Option.some.inj (hswitch.symm.trans hrun₂)).symm
  have hcall : callC (r.behind 4) (r.code q₁.regs.esi) q₁ = some { q₂ with sent := q₁.sent } := by
    rw [callC, Machine.call_eq (by rw [hcode, heip]), Option.map_some, hcode]
  refine ⟨{ q₂ with sent := q₁.sent }, ?_, ?_, ?_, ?_, ?_, ?_⟩
  · rw [hrun, hrun₁, hcall, Option.bind_some]
    rfl
  · exact hesp.trans (hr.answer _ hentry.esp_eq hargument)
  · rw [show m.esp - 72 = m.esp + 20 - BitVec.ofNat 32 (4 * 23) by bv_omega]
    exact hholds₂
  · exact hkept hentered (by omega) (hr.scheduled.confined _ hstate)
  · exact hsaved.ebx.trans (hebx₁.trans hebx)
  · exact hsent₁.trans hsent

/-! ## The entry -/

/-- What lies on the stack when the tail is entered. -/
theorem isr_head_holds (number : Word) (gate : BitVec 16) (handler : Word) (m : Machine) :
    Holds (isr_head number (m.interrupt gate handler)).esp
      (isr_head number (m.interrupt gate handler)).mem m.esp
      [number, 0, m.eip, m.segs.cs.setWidth 32, m.regs.eflags] := by
  have hflags := (holds_nil m.esp m.mem).push m.regs.eflags (by decide)
  have heip := (hflags.push (m.segs.cs.setWidth 32) (by simp)).push m.eip (by simp)
  exact (Holds.push (m := m.interrupt gate handler) heip 0 (by simp)).push number (by simp)

theorem isr_head_atDepth {room : ℕ} (hroom : 20 ≤ room) (number : Word) (gate : BitVec 16)
    (handler : Word) (m : Machine) :
    AtDepth m.esp room m.mem 20 (isr_head number (m.interrupt gate handler)) := by
  have h₀ : AtDepth m.esp room m.mem 0 m := ⟨BitVec.add_zero _, fun _ _ => rfl⟩
  have heip := ((h₀.push (by omega) m.regs.eflags).push (by omega) (m.segs.cs.setWidth 32)).push
    (by omega) m.eip
  exact (AtDepth.push (m := m.interrupt gate handler) ⟨heip.depth, heip.kept⟩ (by omega) 0).push
    (by omega) number

/-! ## The way back -/

theorem atDepth_isr_tail_no_handle {top : Word} {room : ℕ} {mem : Word → Byte}
    (h : AtDepth top room mem 92 m) (hroom : 92 ≤ room)
    (hrun : isr_tail_no_handle r w m = some x) : AtDepth top room mem 0 x.resumed := by
  obtain ⟨m₁, hcall₁, hrest⟩ := Option.bind_eq_some_iff.mp hrun
  obtain ⟨m₂, hcall₂, hx⟩ := Option.bind_eq_some_iff.mp hrest
  obtain rfl := Option.some.inj hx
  have hswitch : AtDepth top room mem 60 (m.release (4 * 8)) :=
    AtDepth.release (n := 32) h (4 * 8) rfl
  have hback := atDepth_call_gdtr_switch hswitch (by omega) hcall₁
  have hpushed := (AtDepth.release (d := 52) (n := 8) hback 8 rfl).push (by omega)
    (m₁.release 8).regs.ebx
  have haccepted := atDepth_call_pic_accept hpushed (by omega) hcall₂
  have hpopa := AtDepth.release (d := 52) (n := 4) haccepted 4 rfl
  have hheads := AtDepth.release (d := 20) (n := 32) hpopa 32 rfl
  have hiret := AtDepth.release (d := 12) (n := 8) hheads 8 rfl
  have hout := AtDepth.release (d := 0) (n := 12) hiret 12 rfl
  exact ⟨hout.depth, hout.kept⟩

/-- What the exit makes of a frame with the words for `iret` above it. -/
theorem TakesDown.resumes {q : Machine} {w' : Wait} {f : SavedFrame} {eip cs flags : Word}
    (h : TakesDown q w' bottom f [eip, cs, flags] x) :
    x.resumed.eip = eip ∧ x.resumed.esp = bottom ∧
      x.resumed.regs = ⟨f.eax, f.ecx, f.edx, f.ebx, f.ebp, f.esi, f.edi, flags⟩ ∧
        x.resumed.segs = { switched f.data f.code with cs := cs.setWidth 16 } := by
  have hflags : x.iret.peek 8 = flags := h.iret.peek_of_getElem? (i := 2) rfl
  have hcs : x.iret.peek 4 = cs := h.iret.peek_of_getElem? (i := 1) rfl
  have hesp : x.iret.esp + BitVec.ofNat 32 12 = bottom := h.iret.1
  rw [h.resumed]
  refine ⟨h.iret.top, hesp, ?_, ?_⟩
  · rw [Machine.iret, hflags, ← h.eax, ← h.ecx, ← h.edx, ← h.ebx, ← h.ebp, ← h.esi, ← h.edi]
  · rw [Machine.iret, hcs, ← h.segs, ← h.iret_segs]

/-! ## The stack of a new process -/

/-- The frame `isr_stub_stack` builds. -/
def stubFrame (data code pointer : Word) : SavedFrame where
  data := data
  code := code
  edi := 0xD1D1
  esi := 0x5151
  ebp := 0xB1B1
  esp := pointer
  ebx := 0xEBEB
  edx := 0xEDED
  ecx := 0xECEC
  eax := 0x4E454F53
  number := 0xFF
  error := 0

theorem stub_return_eq {top : Word} {room d : ℕ} {mem : Word → Byte} (code : Word)
    (h : Holds m.esp m.mem bottom vs) (hsmall : vs.length < 2 ^ 9) (hd : AtDepth top room mem d m)
    (hroom : d + 12 ≤ room)
    (hcode : ∀ n : Machine, AtDepth top room mem (d + 4) n →
      load n.mem (m.regs.ebp + 20) = code) :
    ∃ cs : Word, cs.setWidth 16 = code.setWidth 16 <<< 3 ∧
      Holds (stub_return m).esp (stub_return m).mem bottom
        (m.regs.ecx :: cs :: ((m.regs.eflags &&& ~~~0x401#32) ||| 0x0200) :: vs) ∧
      AtDepth top room mem (d + 12) (stub_return m) ∧ CalleeSaved m (stub_return m) ∧
        (stub_return m).segs = m.segs := by
  let q₁ : Machine := { m with regs := { m.regs with eflags := m.regs.eflags &&& ~~~0x401#32 } }
  let q₂ := q₁.push (q₁.regs.eflags ||| 0x0200)
  have h₂ : Holds q₂.esp q₂.mem bottom ((q₁.regs.eflags ||| 0x0200) :: vs) :=
    Holds.push (m := q₁) h (q₁.regs.eflags ||| 0x0200) (by omega)
  have hd₁ : AtDepth top room mem d q₁ := ⟨hd.depth, hd.kept⟩
  have hd₂ : AtDepth top room mem (d + 4) q₂ := hd₁.push (by omega) (q₁.regs.eflags ||| 0x0200)
  -- the flags are pushed and then changed in place
  have htwice : ({ q₁.push q₁.regs.eflags with
      mem := store (q₁.push q₁.regs.eflags).mem (q₁.push q₁.regs.eflags).esp
        ((q₁.push q₁.regs.eflags).top ||| 0x0200) } : Machine) = q₂ := by
    have htop : (q₁.push q₁.regs.eflags).top = q₁.regs.eflags := load_store_self
    rw [htop]
    exact congrArg (fun mem => ({ q₁ with esp := q₁.esp - 4, mem := mem } : Machine))
      (store_store q₁.mem (q₁.esp - 4) q₁.regs.eflags (q₁.regs.eflags ||| 0x0200))
  let q₃ := q₂.setAx (code.setWidth 16)
  let q₄ := q₃.setAx (q₃.regs.eax.setWidth 16 <<< 3)
  have hrun : stub_return m = (q₄.push q₄.regs.eax).push q₄.regs.ecx := by
    let behindFlags : Machine → Machine := fun n =>
      let n := n.setAx ((load n.mem (n.regs.ebp + 20)).setWidth 16)
      let n := n.setAx (n.regs.eax.setWidth 16 <<< 3)
      (n.push n.regs.eax).push n.regs.ecx
    have hword : load q₂.mem (q₂.regs.ebp + 20) = code := hcode q₂ hd₂
    calc stub_return m = behindFlags { q₁.push q₁.regs.eflags with
          mem := store (q₁.push q₁.regs.eflags).mem (q₁.push q₁.regs.eflags).esp
            ((q₁.push q₁.regs.eflags).top ||| 0x0200) } := rfl
      _ = behindFlags q₂ := by rw [htwice]
      _ = (q₄.push q₄.regs.eax).push q₄.regs.ecx := by
          dsimp only [behindFlags]
          rw [hword]
  have h₄ := (Holds.push (m := q₄) h₂ q₄.regs.eax (by rw [List.length_cons]; omega)).push
    q₄.regs.ecx (by rw [List.length_cons, List.length_cons]; omega)
  have hd₄ : AtDepth top room mem (d + 4) q₄ := ⟨hd₂.depth, hd₂.kept⟩
  refine ⟨q₄.regs.eax, ?_, ?_, ?_, ?_, ?_⟩
  · have hax : q₃.regs.eax.setWidth 16 = code.setWidth 16 := BitVec.setWidth_append_eq_right
    have hshift : q₄.regs.eax.setWidth 16 = q₃.regs.eax.setWidth 16 <<< 3 :=
      BitVec.setWidth_append_eq_right
    rw [hshift, hax]
  · rw [hrun]
    exact h₄
  · rw [hrun]
    exact (hd₄.push (by omega) q₄.regs.eax).push (by omega) q₄.regs.ecx
  · rw [hrun]
    exact ⟨rfl, rfl, rfl, rfl⟩
  · rw [hrun]
    rfl

theorem stub_registers_eq {top : Word} {room d : ℕ} {mem : Word → Byte}
    (h : Holds m.esp m.mem bottom vs) (hsmall : vs.length < 2 ^ 9) (hd : AtDepth top room mem d m)
    (hroom : d + 40 ≤ room) :
    ∃ pointer : Word, ∀ data code : Word,
      Holds (stub_registers m).esp (stub_registers m).mem bottom
        ((stubFrame data code pointer).pushed ++ vs) ∧
      AtDepth top room mem (d + 40) (stub_registers m) ∧ CalleeSaved m (stub_registers m) ∧
        (stub_registers m).segs = m.segs := by
  let q₀ := (m.push 0x0000).push 0x00FF
  let pointer := q₀.esp + load q₀.mem (q₀.regs.ebp + 24)
  let q₁ := (q₀.setEdx q₀.esp).setEdx pointer
  have h₁ : Holds q₁.esp q₁.mem bottom (0x00FF :: 0x0000 :: vs) :=
    (h.push 0x0000 (by omega)).push 0x00FF (by rw [List.length_cons]; omega)
  have hd₁ : AtDepth top room mem (d + 8) q₁ :=
    have hpushed := (hd.push (by omega) 0x0000).push (by omega) 0x00FF
    ⟨hpushed.depth, hpushed.kept⟩
  have h₂ := (((h₁.push 0x4E454F53 (by simp only [List.length_cons]; omega)).push 0xECEC
    (by simp only [List.length_cons]; omega)).push 0xEDED
    (by simp only [List.length_cons]; omega)).push 0xEBEB (by simp only [List.length_cons]; omega)
  have h₃ := (((h₂.push pointer (by simp only [List.length_cons]; omega)).push 0xB1B1
    (by simp only [List.length_cons]; omega)).push 0x5151
    (by simp only [List.length_cons]; omega)).push 0xD1D1 (by simp only [List.length_cons]; omega)
  have hd₂ := (((hd₁.push (by omega) 0x4E454F53).push (by omega) 0xECEC).push (by omega)
    0xEDED).push (by omega) 0xEBEB
  have hd₃ := (((hd₂.push (by omega) pointer).push (by omega) 0xB1B1).push (by omega)
    0x5151).push (by omega) 0xD1D1
  exact ⟨pointer, fun data code => ⟨h₃, hd₃, ⟨rfl, rfl, rfl, rfl⟩, rfl⟩⟩

theorem stub_segments_eq {top : Word} {room d : ℕ} {mem : Word → Byte} (data code : Word)
    (h : Holds m.esp m.mem bottom vs) (hsmall : vs.length < 2 ^ 9) (hd : AtDepth top room mem d m)
    (hroom : d + 8 ≤ room)
    (hcode : load m.mem (m.regs.ebp + 20) = code)
    (hdata : ∀ n : Machine, AtDepth top room mem (d + 4) n →
      load n.mem (m.regs.ebp + 16) = data) :
    Holds (stub_segments m).esp (stub_segments m).mem bottom (data :: code :: vs) ∧
      AtDepth top room mem (d + 8) (stub_segments m) ∧ (stub_segments m).regs = m.regs ∧
        (stub_segments m).segs = m.segs := by
  have hd₁ := hd.push (by omega) code
  have hrun : stub_segments m = (m.push code).push data := by
    show (m.push (load m.mem (m.regs.ebp + 20))).push
      (load (m.push (load m.mem (m.regs.ebp + 20))).mem (m.regs.ebp + 16)) = _
    rw [hcode, hdata _ hd₁]
  rw [hrun]
  refine ⟨?_, hd₁.push (by omega) data, rfl, rfl⟩
  exact (h.push code (by omega)).push data (by rw [List.length_cons]; omega)

theorem stub_leave_eq (m : Machine) :
    stub_leave m =
      ({ m with
        regs := { m.regs with eax := m.esp - 4 * 8, ebp := load m.mem m.regs.ebp }
        esp := m.regs.ebp + 4 } : Machine).ret := rfl

/-- A push writes below the stack pointer. -/
theorem store_below {mem : Word → Byte} {esp v a : Word} (h : 4 ≤ (esp - 1 - a).toNat) :
    store mem (esp - 4) v a = mem a := by
  refine if_neg ?_
  bv_omega

/-- The stub frame ends at the given stack pointer, and the caller gets its own stack
back. -/
theorem isr_stub_stack_eq {behind stack eip data code offset : Word}
    (h : Holds m.esp m.mem (m.esp + 24) [behind, stack, eip, data, code, offset])
    (hapart : ∀ a : Word, (m.esp + 24 - 1 - a).toNat < 28 → 60 ≤ (stack - 1 - a).toNat) :
    ∃ cs flags pointer : Word, cs.setWidth 16 = code.setWidth 16 <<< 3 ∧
      flags = (m.regs.eflags &&& ~~~0x401#32) ||| 0x0200 ∧
      Holds (stack - 60) (isr_stub_stack m).mem stack
        ((stubFrame data code pointer).words ++ [eip, cs, flags]) ∧
      (isr_stub_stack m).eip = behind ∧ (isr_stub_stack m).esp = m.esp + 4 ∧
      (isr_stub_stack m).segs = m.segs ∧ (isr_stub_stack m).regs.eax = stack - 92 ∧
      CalleeSaved m (isr_stub_stack m) ∧
      ∀ a : Word, 60 ≤ (stack - 1 - a).toNat → 4 ≤ (m.esp - 1 - a).toNat →
        (isr_stub_stack m).mem a = m.mem a := by
  let e := (m.push m.regs.ebp).setEbp (m.push m.regs.ebp).esp
  have hargs : Holds e.esp e.mem (m.esp + 24) [m.regs.ebp, behind, stack, eip, data, code, offset] :=
    h.push m.regs.ebp (show 6 < 2 ^ 20 by decide)
  have heip : load e.mem (e.regs.ebp + 12) = eip := hargs.peek_of_getElem? (i := 3) rfl
  have hstack : load e.mem (e.regs.ebp + 8) = stack := hargs.peek_of_getElem? (i := 2) rfl
  obtain ⟨n₀, hn₀⟩ : ∃ n, n = stub_enter m := ⟨_, rfl⟩
  have henter : n₀ = { e.setEcx eip with esp := stack } := by
    rw [hn₀, ← hstack, ← heip]
    rfl
  have h₀ : Holds n₀.esp n₀.mem stack [] := by
    rw [henter]
    exact holds_nil _ _
  have hd₀ : AtDepth stack 60 e.mem 0 n₀ := by
    rw [henter]
    exact ⟨BitVec.add_zero _, fun _ _ => rfl⟩
  have hregs₀ : n₀.regs = { m.regs with ebp := e.esp, ecx := eip } := by
    rw [henter]
    rfl
  have hebp₀ : n₀.regs.ebp = e.esp := by rw [hregs₀]
  -- the arguments stay in place while the other stack is written
  have hword : ∀ {n : Machine} {d : ℕ}, AtDepth stack 60 e.mem d n → ∀ {i : ℕ} {v : Word},
      [m.regs.ebp, behind, stack, eip, data, code, offset][i]? = some v →
        load n.mem (e.esp + BitVec.ofNat 32 (4 * i)) = v := by
    intro n d hd i v hv
    obtain ⟨hi, rfl⟩ := List.getElem?_eq_some_iff.mp hv
    exact (hargs.congr fun a ha => hd.kept a (hapart a ha)).2 i hi
  obtain ⟨cs, hcs, h₁, hd₁, hsaved₁, hsegs₁⟩ := stub_return_eq code h₀ (by decide) hd₀
    (by decide) fun n hn => by
      rw [hebp₀]
      exact hword hn (i := 5) rfl
  rw [hregs₀] at h₁
  obtain ⟨pointer, hregisters⟩ := stub_registers_eq h₁ (by simp) hd₁ (by decide)
  obtain ⟨h₂, hd₂, hsaved₂, hsegs₂⟩ := hregisters data code
  have hebp₂ : (stub_registers (stub_return n₀)).regs.ebp = e.esp :=
    hsaved₂.ebp.trans (hsaved₁.ebp.trans hebp₀)
  obtain ⟨h₃, hd₃, hregs₃, hsegs₃⟩ := stub_segments_eq data code h₂
    (show 13 < 2 ^ 9 by decide) hd₂ (by decide) (by
      rw [hebp₂]
      exact hword hd₂ (i := 5) rfl) fun n hn => by
        rw [hebp₂]
        exact hword hn (i := 4) rfl
  obtain ⟨n₃, hn₃⟩ : ∃ n, n = stub_segments (stub_registers (stub_return n₀)) := ⟨_, rfl⟩
  rw [← hn₃] at h₃ hd₃ hregs₃ hsegs₃
  have hebp₃ : n₃.regs.ebp = e.esp := (congrArg Registers.ebp hregs₃).trans hebp₂
  have hframe : n₃.esp = stack - 60 := hd₃.esp_eq
  have hebp : load n₃.mem n₃.regs.ebp = m.regs.ebp := by
    have hfirst := hword hd₃ (i := 0) rfl
    rw [hebp₃]
    rwa [Nat.mul_zero, BitVec.add_zero] at hfirst
  have hbehind : load n₃.mem (n₃.regs.ebp + 4) = behind := by
    rw [hebp₃]
    exact hword hd₃ (i := 1) rfl
  have hrun : isr_stub_stack m = stub_leave n₃ := by rw [isr_stub_stack, ← hn₀, hn₃]
  rw [hrun, stub_leave_eq]
  refine ⟨cs, _, pointer, hcs, rfl, ?_, hbehind, ?_, ?_, ?_, ?_, ?_⟩
  · rw [← hframe]
    exact h₃
  · show n₃.regs.ebp + 4 + 4 = m.esp + 4
    rw [hebp₃]
    show m.esp - 4 + 4 + 4 = m.esp + 4
    rw [BitVec.sub_add_cancel]
  · show n₃.segs = m.segs
    rw [hsegs₃, hsegs₂, hsegs₁, henter]
    rfl
  · show n₃.esp - 4 * 8 = stack - 92
    rw [hframe]
    exact sub_sub stack 60 32
  · refine ⟨?_, hebp, ?_, ?_⟩
    · show n₃.regs.ebx = m.regs.ebx
      rw [hregs₃, hsaved₂.ebx, hsaved₁.ebx, hregs₀]
    · show n₃.regs.esi = m.regs.esi
      rw [hregs₃, hsaved₂.esi, hsaved₁.esi, hregs₀]
    · show n₃.regs.edi = m.regs.edi
      rw [hregs₃, hsaved₂.edi, hsaved₁.edi, hregs₀]
  · intro a ha hbelow
    exact (hd₃.kept a ha).trans (store_below hbelow)

end

end Neos.Interrupt
