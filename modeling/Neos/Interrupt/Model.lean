import Neos.Kernel.CLib
import Neos.Library.Machine32

/-!
# The interrupt stub

`routine.asm`, `isr_tail`, with the routines it calls: `pic_irq`, `pic_isr` and
`pic_accept` of `pic.asm` and `gdtr_switch` of `tables.asm`.  The `.data` sections
(`service_table` and `pic_offset`) are apart from the memory of the stack.
-/

namespace Neos.Interrupt

open Machine32

/-! ## `pic.asm` -/

def PIC1_COM : BitVec 16 := 0x20

def PIC2_COM : BitVec 16 := 0xA0

/-- End Of Interrupt command. -/
def PIC_EOI : Byte := 0x20

/-- Asks for the in-service register. -/
def PIC_ISR : Byte := 0x0b

/-- The in-service registers the two controllers report. -/
structure Pics where
  master : Byte
  slave : Byte

/-- The combined in-service register: bit `k` is set while IRQ `k` is in service. -/
def Pics.inService (p : Pics) : Word := (p.slave ++ p.master).setWidth 32

/-- `pic.asm`, `pic_isr`. -/
def pic_isr (p : Pics) (m : Machine) : Machine :=
  let m := (m.setFlags true false).setEax 0
  -- the slave
  let m := m.setAl PIC_ISR
  let m := m.out PIC2_COM (low m.regs.eax)
  let m := m.setAl p.slave
  let m := m.setAh (low m.regs.eax)
  -- the master
  let m := m.setAl PIC_ISR
  let m := m.out PIC1_COM (low m.regs.eax)
  let m := m.setAl p.master
  m.ret

/-- `pic.asm`, label `pic_irq_invalid`. -/
def pic_irq_invalid (m : Machine) : Machine := ((m.setFlags true false).setEax 0).ret

/-- `pic.asm`, `pic_irq`. -/
def pic_irq (pic_offset : Word) (m : Machine) : Machine :=
  let m := m.setEcx (m.peek 4)
  let m := m.setEdx pic_offset
  let m := (m.setFlags (m.regs.ecx = m.regs.edx) (m.regs.ecx < m.regs.edx)).setEcx
    (m.regs.ecx - m.regs.edx)
  if m.cf then pic_irq_invalid m
  else
    let m := m.setFlags (m.regs.ecx = 16) (m.regs.ecx < 16)
    if ¬ m.cf then pic_irq_invalid m
    else
      let m := m.setEax 1
      -- a shift by `cl` takes the count modulo `32`
      let m := m.setEax (m.regs.eax <<< (m.regs.ecx &&& 31))
      m.ret

/-- `pic.asm`, label `pic_accept_master`. -/
def pic_accept_master (m : Machine) : Machine :=
  let m := m.setFlags (low m.regs.edx = 0) false
  if m.zf then m.ret else (m.out PIC1_COM (low m.regs.eax)).ret

/-- `pic.asm`, `pic_accept`. -/
def pic_accept (m : Machine) : Machine :=
  let m := m.setEdx (m.peek 4)
  let m := m.setAl PIC_EOI
  let m := m.setFlags (high m.regs.edx = 0) false
  if m.zf then pic_accept_master m else pic_accept_master (m.out PIC2_COM (low m.regs.eax))

/-! ## `tables.asm` -/

/-- `tables.asm`, `gdtr_switch`. -/
def gdtr_switch (m : Machine) : Machine :=
  let m := m.setEdx (m.peek 8)
  let m := m.setEax (m.peek 4)
  let m := m.setEdx (m.regs.edx <<< 3)
  let m := m.setEax (m.regs.eax <<< 3)
  let ax := m.regs.eax.setWidth 16
  let m := { m with segs := { m.segs with ds := ax, ss := ax, es := ax, fs := ax, gs := ax } }
  let m := m.push m.regs.edx
  let m := m.push (m.peek 4)
  m.retf 4

/-! ## `interrupt.c` -/

/-- The variables of the wait subsystem. -/
structure Wait where
  key : ℤ
  locked : Bool

/-- `interrupt.c`, `int_common_handle`. -/
def int_common_handle (w : Wait) (number : ℤ) : Wait :=
  if w.locked ∧ number = w.key then { w with locked := false } else w

/-! ## `routine.asm` -/

/-- What the linked kernel puts around the stub: the registered handlers, the machine
code behind an address, the compiled `int_common_handle`, the interrupt number of IRQ 0,
and the addresses behind the calls of `isr_tail`, in their order. -/
structure Routines where
  service_table : Word → Word
  code : Word → Machine → Machine
  common : Machine → Machine
  pic_offset : Word
  behind : ℕ → Word

/-- A call of compiled C code.  What it sends to ports of its own is not counted as sent
by the stub. -/
def callC (behind : Word) (f : Machine → Machine) (m : Machine) : Option Machine :=
  (Machine.call behind f m).map fun m' => { m' with sent := m.sent }

/-- The machine at the places where the stub takes the frame down: where it switches the
segments back, before `popa`, before `iret`, and after it. -/
structure Exit where
  switch : Machine
  popa : Machine
  iret : Machine
  resumed : Machine
  wait : Wait

/-- `routine.asm`, from label `isr_tail_no_handle`. -/
def isr_tail_no_handle (r : Routines) (w : Wait) (m : Machine) : Option Exit := do
  let switch := m.release (4 * 8)
  let m ← switch.call (r.behind 5) gdtr_switch
  let m := m.release 8
  let m := m.push m.regs.ebx
  let m ← m.call (r.behind 6) pic_accept
  let popa := m.release 4
  let iret := popa.popa.release 8
  return { switch, popa, iret, resumed := iret.iret, wait := w }

/-- `routine.asm`, from label `isr_tail_not_irq`. -/
def isr_tail_not_irq (r : Routines) (w : Wait) (m : Machine) : Option Exit := do
  let w := int_common_handle w (toInt m.top.toNat)
  let m ← callC (r.behind 3) r.common m
  let m := m.release 4
  let m := m.setFlags (m.regs.esi = 0) false
  if m.zf then isr_tail_no_handle r w m
  else
    let m ← callC (r.behind 4) (r.code m.regs.esi) m
    isr_tail_no_handle r w m

/-- `routine.asm`, from label `isr_tail_no_low_bit`. -/
def isr_tail_no_low_bit (r : Routines) (w : Wait) (m : Machine) : Option Exit :=
  let flags := m.top
  let m := m.release 4
  let m := { m with regs := { m.regs with eflags := flags } }
  -- no bit in common: a spurious interrupt
  if m.zf then isr_tail_no_handle r w m else isr_tail_not_irq r w m

/-- `routine.asm`, the part of `isr_tail` behind the first jump. -/
def isr_tail_irq (r : Routines) (p : Pics) (w : Wait) (m : Machine) : Option Exit := do
  let m := m.push m.regs.eax
  let m ← m.call (r.behind 2) (pic_isr p)
  let mask := m.top
  let m := (m.release 4).setEbx mask
  let m := (m.setFlags (m.regs.ebx &&& m.regs.eax = 0) false).setEbx (m.regs.ebx &&& m.regs.eax)
  let m := m.push m.regs.eflags
  let m := m.setFlags (high m.regs.ebx = 0) false
  if m.zf then isr_tail_no_low_bit r w m
  else isr_tail_no_low_bit r w ((m.setFlags false false).setEbx (m.regs.ebx ||| 0x02))

/-- The index of a segment, left in `ax`. -/
def loadIndex (m : Machine) (selector : BitVec 16) : Machine :=
  let m := m.setAx selector
  m.setAx (m.regs.eax.setWidth 16 >>> 3)

/-- `routine.asm`, `isr_tail` behind `pusha`: the segments are saved and the kernel's are
loaded. -/
def isr_tail_segments (r : Routines) (m : Machine) : Option Machine := do
  let m := m.setEbp m.esp
  let m := m.setEax 0
  let m := loadIndex m m.segs.cs
  let m := m.push m.regs.eax
  let m := loadIndex m m.segs.ds
  let m := m.push m.regs.eax
  let m := m.push 1
  let m := m.push 2
  let m ← m.call (r.behind 0) gdtr_switch
  return m.release 8

/-- `routine.asm`, `isr_tail`: the arguments of the handler are pushed, once and for
both C functions. -/
def isr_tail_arguments (r : Routines) (m : Machine) : Machine :=
  let m := m.setEdx (m.peek 44)
  let m := m.setEax (m.peek 40)
  let m := m.setEsi (r.service_table m.regs.eax)
  let m := m.push (load m.mem (m.regs.ebp + 4 * 0))
  let m := m.push (load m.mem (m.regs.ebp + 4 * 1))
  let m := m.push (load m.mem (m.regs.ebp + 4 * 4))
  let m := m.push (load m.mem (m.regs.ebp + 4 * 5))
  let m := m.push (load m.mem (m.regs.ebp + 4 * 6))
  let m := m.setEbp (m.regs.ebp + 4 * 7)
  let m := m.push m.regs.ebp
  let m := m.push m.regs.edx
  let m := m.push m.regs.eax
  m.push m.regs.eax

/-- `routine.asm`, `isr_tail`.  The interrupt number lies on top of the stack, above it
the error code and what the interrupt pushed. -/
def isr_tail (r : Routines) (p : Pics) (w : Wait) (m : Machine) : Option Exit := do
  let m ← isr_tail_segments r m.pusha
  let m := isr_tail_arguments r m
  let m ← m.call (r.behind 1) (pic_irq r.pic_offset)
  let m := m.setFlags (m.regs.eax = 0) false
  if m.zf then isr_tail_not_irq r w m else isr_tail_irq r p w m

end Neos.Interrupt
