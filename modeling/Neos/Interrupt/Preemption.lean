import Mathlib
import Neos.Interrupt.Switch
import Neos.Library.Simulation
import Neos.Library.TimeSharing
import Neos.Scheduler.Creation

/-!
# Preemption

The processes, the scheduler and the timer.  A process runs on the processor, creates
others with `isr_stub_stack`, and is taken off the processor by the timer interrupt, which
leaves its registers on its own stack and its stack pointer in the process table.  All a
process can tell of this is that the memory below its stack pointer does not keep.
-/

namespace Neos.Interrupt

open Machine32
open Relation TimeSharing

/-! ## What a process can tell -/

/-- The registers, and the memory of a process. -/
structure View where
  regs : Registers
  segs : Segments
  esp : Word
  eip : Word
  mem : Word → Byte

/-- The memory of a process, without the `room` bytes below its stack pointer. -/
noncomputable def visible (region : Set Word) (room : ℕ) (esp : Word) (mem : Word → Byte) :
    Word → Byte :=
  open Classical in fun a => if a ∈ region ∧ room ≤ (esp - 1 - a).toNat then mem a else 0

/-- What the process on the processor can tell of the machine. -/
noncomputable def view (region : Set Word) (room : ℕ) (m : Machine) : View :=
  ⟨m.regs, m.segs, m.esp, m.eip, visible region room m.esp m.mem⟩

/-- The room below a stack pointer is memory of the process. -/
def Fits (region : Set Word) (room : ℕ) (esp : Word) : Prop :=
  ∀ a : Word, (esp - 1 - a).toNat < room → a ∈ region

/-- The data segments are all the same, and the requested privilege is that of the
kernel. -/
structure Plain (s : Segments) : Prop where
  ss : s.ss = s.ds
  es : s.es = s.ds
  fs : s.fs = s.ds
  gs : s.gs = s.ds
  index : s.ds &&& 7 = 0

/-- What a process finds when it first gets the processor: the values `isr_stub_stack`
pushed, and the interrupts enabled. -/
structure Fresh (v : View) : Prop where
  regs : ∃ flags : Word, flags.getLsbD 9 = true ∧
    v.regs = ⟨0x4E454F53, 0xECEC, 0xEDED, 0xEBEB, 0xB1B1, 0x5151, 0xD1D1, flags⟩
  segs : ∃ data code : Word,
    v.segs = { switched data code with cs := code.setWidth 16 <<< 3 }

/-- The stack pointer `stack` leads to the frame of a process that is off the
processor. -/
structure Stored (region : Set Word) (room : ℕ) (stack : Word) (mem : Word → Byte) (v : View) :
    Prop where
  frame : ∃ (as : List Word) (f : SavedFrame) (cs : Word), as.length = 8 ∧
    Holds stack mem v.esp (as ++ (f.words ++ [v.eip, cs, v.regs.eflags])) ∧
    v.regs = ⟨f.eax, f.ecx, f.edx, f.ebx, f.ebp, f.esi, f.edi, v.regs.eflags⟩ ∧
    v.segs = { switched f.data f.code with cs := cs.setWidth 16 }
  memory : v.mem = visible region room v.esp mem
  fits : Fits region room v.esp

section

variable {region : Set Word} {room : ℕ} {esp stack : Word} {mem mem' : Word → Byte} {v : View}

theorem visible_congr (h : ∀ a ∈ region, room ≤ (esp - 1 - a).toNat → mem' a = mem a) :
    visible region room esp mem' = visible region room esp mem := by
  funext a
  unfold visible
  split
  · next ha => exact h a ha.1 ha.2
  · rfl

/-- A frame stays as long as the memory of its process does. -/
theorem Stored.congr (h : Stored region room stack mem v) (hroom : 92 ≤ room)
    (hmem : ∀ a ∈ region, mem' a = mem a) : Stored region room stack mem' v := by
  obtain ⟨as, f, cs, has, hholds, hregs, hsegs⟩ := h.frame
  refine ⟨⟨as, f, cs, has, hholds.congr fun a ha => hmem a (h.fits a ?_), hregs, hsegs⟩, ?_, h.fits⟩
  · have hlength : (as ++ (f.words ++ [v.eip, cs, v.regs.eflags])).length = 23 := by
      rw [List.length_append, has]
      rfl
    rw [hlength] at ha
    omega
  · rw [h.memory]
    exact (visible_congr fun a ha _ => hmem a ha).symm

theorem toNat_and_seven (d : BitVec 16) : (d &&& 7).toNat = d.toNat % 8 := by
  rw [BitVec.toNat_and]
  exact Nat.and_two_pow_sub_one_eq_mod d.toNat 3

theorem plain_switched (data code : Word) (cs : BitVec 16) :
    Plain { switched data code with cs := cs } := by
  refine ⟨rfl, rfl, rfl, rfl, ?_⟩
  show (data <<< 3).setWidth 16 &&& 7 = 0
  refine BitVec.eq_of_toNat_eq ?_
  rw [toNat_and_seven, show (0 : BitVec 16).toNat = 0 from rfl]
  simp only [BitVec.toNat_setWidth, BitVec.toNat_shiftLeft, Nat.shiftLeft_eq]
  omega

/-- The saved index gives the selector back. -/
theorem Plain.restored {s : Segments} (h : Plain s) (code : Word) :
    ({ switched ((s.ds >>> 3).setWidth 32) code with cs := s.cs } : Segments) = s := by
  have hindex := congrArg BitVec.toNat h.index
  rw [toNat_and_seven, show (0 : BitVec 16).toNat = 0 from rfl] at hindex
  have hds : (((s.ds >>> 3).setWidth 32 : Word) <<< 3).setWidth 16 = s.ds := by
    refine BitVec.eq_of_toNat_eq ?_
    simp only [BitVec.toNat_setWidth, BitVec.toNat_shiftLeft, Nat.shiftLeft_eq,
      BitVec.toNat_ushiftRight, Nat.shiftRight_eq_div_pow]
    omega
  obtain ⟨hss, hes, hfs, hgs, -⟩ := h
  cases s
  simp only [switched, hds] at *
  rw [hss, hes, hfs, hgs]

end

/-! ## The system -/

/-- The process table, the machine and, for the process in each slot, the memory it was
given. -/
structure World where
  scheduler : Scheduler.Machine
  cpu : Machine
  region : ℤ → Set Word

/-- The slot of the process on the processor; `-1` is the kernel before the first
switch. -/
def World.current (w : World) : ℤ := w.scheduler.running

/-- The process of the slot is on the processor, or in the table. -/
def World.InPlay (w : World) (i : ℤ) : Prop := i = w.current ∨ i ∈ w.scheduler.liveEntries

/-- A timer interrupt: it is in service, it is handled by `context_switch`, and the
scheduler comes to an answer that is in play. -/
structure Ticks (room : ℕ) (w : World) (r : Routines) (p : Pics) (number : Word)
    (compiled : Machine → Machine) (b : Scheduler.Switched) : Prop where
  genuine : Genuine r p number
  switches : Scheduler.Switches w.scheduler (w.cpu.esp - 92).toNat b
  selects : w.InPlay b.machine.running
  handled : SwitchesStack r number room w.cpu.esp (BitVec.ofNat 32 b.stack) compiled

/-- One step of the system, with the programs of the processes. -/
inductive WorldStep (room : ℕ) (program : ℤ → View → View → Prop) (w : World) : World → Prop
  /-- The process runs, as its program or as the kernel called by it.  It may be given other
  memory, and processes may end. -/
  | run {cpu : Machine} {scheduler : Scheduler.Machine} {region : Set Word}
      (hprogram : program w.current (view (w.region w.current) room w.cpu) (view region room cpu))
      (hothers : ∀ i ∈ w.scheduler.liveEntries, i ≠ w.current →
        Disjoint region (w.region i) ∧ ∀ a ∈ w.region i, cpu.mem a = w.cpu.mem a)
      (hfits : Fits region room cpu.esp) (hplain : Plain cpu.segs)
      (hrunning : scheduler.running = w.scheduler.running)
      (hentries : ∀ i ∈ scheduler.liveEntries, i ∈ w.scheduler.liveEntries ∧
        (scheduler.slot i).stack = (w.scheduler.slot i).stack) :
      WorldStep room program w ⟨scheduler, cpu, Function.update w.region w.current region⟩
  /-- The process creates another: it calls `isr_stub_stack` and enters the result into
  the table. -/
  | create {cpu : Machine} {behind stack eip data code offset : Word} {region : Set Word}
      {entry : Scheduler.NewEntry} {heap : Scheduler.HeapAnswer}
      (hargs : Holds w.cpu.esp w.cpu.mem (w.cpu.esp + 20) [stack, eip, data, code, offset])
      (hown : ∀ a : Word, (w.cpu.esp + 20 - 1 - a).toNat < 20 → a ∈ w.region w.current)
      (hcall : w.cpu.call behind isr_stub_stack = some cpu)
      (hprogram : program w.current (view (w.region w.current) room w.cpu)
        (view (w.region w.current) room cpu))
      (hregion : ∀ i, w.InPlay i → Disjoint region (w.region i)) (hfits : Fits region room stack)
      (hstack : entry.stack = cpu.regs.eax.toNat)
      (hslot : (w.scheduler.table.nextSlot : ℤ) ≠ w.current)
      (hsurplus : (Scheduler.surplus w.scheduler.table heap.behind).live = false) :
      WorldStep room program w
        ⟨{ w.scheduler with table := Scheduler.schedulerNewEntry w.scheduler.table entry heap },
          cpu, Function.update w.region w.scheduler.table.nextSlot region⟩
  | tick {r : Routines} {p : Pics} {wait : Wait} {number handler : Word} {gate : BitVec 16}
      {compiled : Machine → Machine} {b : Scheduler.Switched} {x : Exit}
      (hticks : Ticks room w r p number compiled b)
      (hx : isr_tail r p wait (isr_head number (w.cpu.interrupt gate handler)) = some x) :
      WorldStep room program w ⟨b.machine, x.resumed, w.region⟩

/-- The states of the processes, and the machine that shares its processor between them. -/
structure Represents (room : ℕ) (w : World) (p : Processes ℤ View) : Prop where
  running : p.running = w.current
  current : p.state w.current = view (w.region w.current) room w.cpu
  fits : Fits (w.region w.current) room w.cpu.esp
  plain : Plain w.cpu.segs
  stored : ∀ i ∈ w.scheduler.liveEntries, i ≠ w.current →
    Stored (w.region i) room (BitVec.ofNat 32 (w.scheduler.slot i).stack) w.cpu.mem (p.state i)
  apart : ∀ i j, w.InPlay i → w.InPlay j → i ≠ j → Disjoint (w.region i) (w.region j)

section

variable {room : ℕ} {program : ℤ → View → View → Prop} {w w' : World} {p : Processes ℤ View}
  {r : Routines} {pics : Pics} {wait : Wait} {number handler : Word} {gate : BitVec 16}
  {compiled : Machine → Machine} {b : Scheduler.Switched}

/-! ## The timer -/

/-- What the stub sends to the controllers for an interrupt in service. -/
def acknowledged (r : Routines) (number : Word) : List (BitVec 16 × Byte) :=
  askInService ++ accepted (ackMask (BitVec.twoPow 32 (irqOf r number)))

/-- The interrupted process is left with its frame stored, and the stub goes on with the
stack of the scheduler. -/
theorem Ticks.stores (h : Ticks room w r pics number compiled b) (hroom : 104 ≤ room)
    (wait : Wait) (handler : Word) (gate : BitVec 16) {region : Set Word}
    (hfits : Fits region room w.cpu.esp) (hplain : Plain w.cpu.segs) :
    ∃ (q : Machine) (wait' : Wait),
      isr_tail r pics wait (isr_head number (w.cpu.interrupt gate handler)) =
        isr_tail_no_handle r wait' q ∧
      q.esp = BitVec.ofNat 32 b.stack ∧
      Stored region room (w.cpu.esp - 92) q.mem (view region room w.cpu) ∧
      (∀ a : Word, room ≤ (w.cpu.esp - 1 - a).toNat → q.mem a = w.cpu.mem a) ∧
      q.sent ++ accepted q.regs.ebx = w.cpu.sent ++ acknowledged r number := by
  obtain ⟨m, hm⟩ : ∃ m, m = isr_head number (w.cpu.interrupt gate handler) := ⟨_, rfl⟩
  have hholds := isr_head_holds number gate handler w.cpu
  have hdepth : AtDepth w.cpu.esp room w.cpu.mem 20
      (isr_head number (w.cpu.interrupt gate handler)) :=
    isr_head_atDepth (by omega) number gate handler w.cpu
  obtain ⟨eflags, hregs⟩ : ∃ eflags, m.regs = { w.cpu.regs with eflags := eflags } := by
    rw [hm]
    exact ⟨_, rfl⟩
  have hds : m.segs.ds = w.cpu.segs.ds := by
    rw [hm]
    rfl
  rw [← hm] at hholds hdepth ⊢
  have hnumber : m.peek 0 = number := hholds.peek_of_getElem? (i := 0) rfl
  have heip : m.peek 8 = w.cpu.eip := hholds.peek_of_getElem? (i := 2) rfl
  have hcs : m.peek 12 = w.cpu.segs.cs.setWidth 32 := hholds.peek_of_getElem? (i := 3) rfl
  have hflags : m.peek 16 = w.cpu.regs.eflags := hholds.peek_of_getElem? (i := 4) rfl
  have htop : m.esp + 20 = w.cpu.esp := hdepth.depth
  have hpointer : m.esp + 20 - 92 = m.esp - 72 := by bv_omega
  have hhandled := h.handled
  rw [← hnumber, ← htop] at hhandled
  obtain ⟨q, hrun, hesp, hframe, hmem, hebx, hsent⟩ := isr_tail_switches (w := wait) hhandled hroom
    (hnumber ▸ h.genuine)
  rw [htop] at hframe hmem
  have hmem' : ∀ a : Word, room ≤ (w.cpu.esp - 1 - a).toNat → q.mem a = w.cpu.mem a :=
    fun a ha => (hmem a ha).trans (hdepth.kept a ha)
  have hcs' : (w.cpu.segs.cs.setWidth 32).setWidth 16 = w.cpu.segs.cs := by simp
  refine ⟨q, _, hrun, hesp, ⟨⟨(savedFrame m).arguments (m.esp - 4), savedFrame m,
    w.cpu.segs.cs.setWidth 32, rfl, ?_, ?_, ?_⟩, ?_, hfits⟩, hmem', ?_⟩
  · rw [← htop, hpointer]
    rw [interrupted, heip, hcs, hflags] at hframe
    exact hframe
  · show w.cpu.regs = ⟨m.regs.eax, m.regs.ecx, m.regs.edx, m.regs.ebx, m.regs.ebp, m.regs.esi,
      m.regs.edi, w.cpu.regs.eflags⟩
    rw [hregs]
  · show w.cpu.segs = { switched ((m.segs.ds >>> 3).setWidth 32) ((m.segs.cs >>> 3).setWidth 32) with
      cs := (w.cpu.segs.cs.setWidth 32).setWidth 16 }
    rw [hds, hcs']
    exact (hplain.restored _).symm
  · exact (visible_congr fun a _ ha => hmem' a ha).symm
  · have hsent₀ : m.sent = w.cpu.sent := by
      rw [hm]
      rfl
    rw [hebx, hsent, hsent₀, hnumber, acknowledged, List.append_assoc]

/-- A stored process goes on as it was. -/
theorem Stored.resumes {region : Set Word} {q : Machine} {v : View}
    (h : Stored region room q.esp q.mem v) (hroom : 104 ≤ room) (r : Routines) (wait : Wait) :
    ∃ x, isr_tail_no_handle r wait q = some x ∧ view region room x.resumed = v ∧
      (∀ a : Word, room ≤ (v.esp - 1 - a).toNat → x.resumed.mem a = q.mem a) ∧
      x.resumed.sent = q.sent ++ accepted q.regs.ebx := by
  obtain ⟨as, f, cs, has, hholds, hregs, hsegs⟩ := h.frame
  obtain ⟨x, hx, hdown⟩ := isr_tail_no_handle_eq r wait hholds has (show 3 < 2 ^ 9 by decide)
  obtain ⟨heip, hesp, hregs', hsegs'⟩ := hdown.resumes
  have hentered : AtDepth v.esp room q.mem 92 q := by
    refine ⟨?_, fun _ _ => rfl⟩
    have hbottom := hholds.1
    rw [List.length_append, has] at hbottom
    exact hbottom
  have hout := atDepth_isr_tail_no_handle hentered (by omega) hx
  refine ⟨x, hx, ?_, hout.kept, by rw [hdown.resumed, ← hdown.sent]; rfl⟩
  have hmem : visible region room x.resumed.esp x.resumed.mem = v.mem := by
    rw [hesp, h.memory]
    exact visible_congr fun a _ ha => hout.kept a ha
  rw [view, hregs', hsegs', heip, hmem, hesp, ← hregs, ← hsegs]

/-! ## The scheduler -/

/-- What a switch does to the entries, and what it answers. -/
theorem switches_entries {a : Scheduler.Machine} {oldStack : ℕ}
    (h : Scheduler.Switches a oldStack b) :
    b.machine.liveEntries = a.liveEntries ∧
      (b.stack = if b.machine.running = a.running then oldStack
        else (a.slot b.machine.running).stack) ∧
      ∀ i ∈ a.liveEntries, (b.machine.slot i).stack =
        if i = a.running then oldStack else (a.slot i).stack := by
  by_cases hcount : a.table.processCount = 0
  · obtain ⟨fuel, hrun⟩ := h
    rw [Scheduler.schedulerContextSwitch, if_pos hcount] at hrun
    obtain rfl := Option.some.inj hrun
    refine ⟨rfl, (if_pos rfl).symm, fun i hi => ?_⟩
    have hbounds := (Scheduler.mem_liveEntries.mp hi).1
    omega
  · have hslot : ∀ i, (b.machine.slot i).stack =
        if i = a.running then oldStack else (a.slot i).stack := by
      intro i
      rw [(h.slot hcount i).1]
      split
      · rfl
      · rfl
    exact ⟨h.liveEntries hcount, (h.slot hcount b.machine.running).2.trans (hslot _),
      fun i _ => hslot i⟩

theorem disjoint_of_fits {s t : Set Word} {esp a : Word} (h : Disjoint s t)
    (hfits : Fits s room esp) (ha : a ∈ t) : room ≤ (esp - 1 - a).toNat := by
  by_contra hlt
  exact Set.disjoint_left.mp h (hfits a (by omega)) ha

/-- The timer takes the process off the processor and puts another one on it, and is
acknowledged. -/
theorem Represents.tick (h : Represents room w p) (hroom : 104 ≤ room)
    (hticks : Ticks room w r pics number compiled b) :
    ∃ x, isr_tail r pics wait (isr_head number (w.cpu.interrupt gate handler)) = some x ∧
      Represents room ⟨b.machine, x.resumed, w.region⟩ { p with running := b.machine.running } ∧
      x.resumed.sent = w.cpu.sent ++ acknowledged r number := by
  obtain ⟨q, wait', hrun, hesp, hsaved, hmem, hsent⟩ :=
    hticks.stores hroom wait handler gate h.fits h.plain
  obtain ⟨hentries, hstack, hslots⟩ := switches_entries hticks.switches
  have hpointer : BitVec.ofNat 32 (w.cpu.esp - 92).toNat = w.cpu.esp - 92 :=
    by rw [BitVec.ofNat_toNat, BitVec.setWidth_eq]
  -- all the others have their frames while the stub runs
  have hframes : ∀ i, w.InPlay i → Stored (w.region i) room
      (BitVec.ofNat 32 (if i = w.current then (w.cpu.esp - 92).toNat
        else (w.scheduler.slot i).stack)) q.mem (p.state i) := by
    intro i hi
    split
    · next hcurrent =>
        rw [hcurrent, hpointer, h.current]
        exact hsaved
    · next hne =>
        have hentry := hi.resolve_left hne
        refine (h.stored i hentry hne).congr (by omega) fun a ha => hmem a ?_
        exact disjoint_of_fits (h.apart _ _ (Or.inl rfl) hi (Ne.symm hne)) h.fits ha
  have hselected := hframes _ hticks.selects
  rw [show (if b.machine.running = w.current then (w.cpu.esp - 92).toNat
    else (w.scheduler.slot b.machine.running).stack) = b.stack from hstack.symm, ← hesp] at hselected
  obtain ⟨x, hx, hview, hkept, hsent'⟩ := hselected.resumes hroom r wait'
  have hesp' : x.resumed.esp = (p.state b.machine.running).esp := congrArg View.esp hview
  have hinPlay : ∀ i, World.InPlay ⟨b.machine, x.resumed, w.region⟩ i → w.InPlay i := by
    rintro i (hi | hi)
    · exact hi ▸ hticks.selects
    · rw [hentries] at hi
      exact Or.inr hi
  refine ⟨x, hrun.trans hx, ⟨rfl, hview.symm, ?_, ?_, ?_, ?_⟩, hsent'.trans hsent⟩
  · rw [hesp']
    exact hselected.fits
  · obtain ⟨-, f, cs, -, -, -, hsegs⟩ := hselected.frame
    have hsegs' : x.resumed.segs = (p.state b.machine.running).segs := congrArg View.segs hview
    rw [hsegs', hsegs]
    exact plain_switched _ _ _
  · intro i hi hne
    have hi' : i ∈ w.scheduler.liveEntries := hentries ▸ hi
    have hframe := hframes i (Or.inr hi')
    rw [show (if i = w.current then (w.cpu.esp - 92).toNat else (w.scheduler.slot i).stack) =
      (b.machine.slot i).stack from (hslots i hi').symm] at hframe
    refine hframe.congr (by omega) fun a ha => hkept a ?_
    exact disjoint_of_fits (h.apart _ _ hticks.selects (Or.inr hi') (Ne.symm hne)) hselected.fits ha
  · intro i j hi hj hij
    exact h.apart i j (hinPlay i hi) (hinPlay j hj) hij

/-! ## The process on the processor -/

/-- The process on the processor goes on. -/
theorem Represents.run (h : Represents room w p) {cpu : Machine} {scheduler : Scheduler.Machine}
    {region : Set Word}
    (hothers : ∀ i ∈ w.scheduler.liveEntries, i ≠ w.current →
      Disjoint region (w.region i) ∧ ∀ a ∈ w.region i, cpu.mem a = w.cpu.mem a)
    (hroom : 92 ≤ room) (hfits : Fits region room cpu.esp) (hplain : Plain cpu.segs)
    (hrunning : scheduler.running = w.scheduler.running)
    (hentries : ∀ i ∈ scheduler.liveEntries, i ∈ w.scheduler.liveEntries ∧
      (scheduler.slot i).stack = (w.scheduler.slot i).stack) :
    Represents room ⟨scheduler, cpu, Function.update w.region w.current region⟩
      (p.set p.running (view region room cpu)) := by
  have hcurrent : World.current ⟨scheduler, cpu, Function.update w.region w.current region⟩ =
      w.current := hrunning
  have hother : ∀ i, World.InPlay ⟨scheduler, cpu, Function.update w.region w.current region⟩ i →
      i ≠ w.current → i ∈ w.scheduler.liveEntries := by
    rintro i (hi | hi) hne
    · exact absurd (hi.trans hcurrent) hne
    · exact (hentries i hi).1
  constructor
  · exact h.running.trans hcurrent.symm
  · rw [hcurrent, Processes.set_state, if_pos h.running.symm]
    dsimp only
    rw [Function.update_self]
  · rw [hcurrent]
    dsimp only
    rwa [Function.update_self]
  · exact hplain
  · intro i hi hne
    rw [hcurrent] at hne
    obtain ⟨hentry, hstack⟩ := hentries i hi
    rw [Processes.set_state, if_neg (h.running ▸ hne)]
    dsimp only
    rw [Function.update_of_ne hne, hstack]
    exact (h.stored i hentry hne).congr hroom (hothers i hentry hne).2
  · intro i j hi hj hij
    dsimp only
    by_cases hi' : i = w.current
    · have hj' : j ≠ w.current := fun hj' => hij (hi'.trans hj'.symm)
      rw [hi', Function.update_self, Function.update_of_ne hj']
      exact (hothers j (hother j hj hj') hj').1
    · rw [Function.update_of_ne hi']
      by_cases hj' : j = w.current
      · rw [hj', Function.update_self]
        exact (hothers i (hother i hi hi') hi').1.symm
      · rw [Function.update_of_ne hj']
        exact h.apart i j (Or.inr (hother i hi hi')) (Or.inr (hother j hj hj')) hij

/-! ## New processes -/

theorem mem_liveEntries_iff {a : Scheduler.Machine} {i : ℤ} :
    i ∈ a.liveEntries ↔ 0 ≤ i ∧ i.toNat ∈ Scheduler.liveSlots a.table := by
  rw [Scheduler.mem_liveEntries]
  constructor
  · rintro ⟨⟨hlo, hhi⟩, hlive⟩
    rw [Scheduler.Machine.slot, if_pos hlo] at hlive
    exact ⟨hlo, by omega, hlive⟩
  · rintro ⟨hlo, hhi, hlive⟩
    refine ⟨⟨hlo, by omega⟩, ?_⟩
    rwa [Scheduler.Machine.slot, if_pos hlo]

/-- The entries after a creation that brings no stale slot to life. -/
theorem newEntry_entries {a : Scheduler.Machine} {entry : Scheduler.NewEntry}
    {heap : Scheduler.HeapAnswer} (hsurplus : (Scheduler.surplus a.table heap.behind).live = false)
    {i : ℤ}
    (hi : i ∈ Scheduler.Machine.liveEntries
      { a with table := Scheduler.schedulerNewEntry a.table entry heap }) :
    (i = a.table.nextSlot ∧
      (Scheduler.Machine.slot
        { a with table := Scheduler.schedulerNewEntry a.table entry heap } i).stack = entry.stack) ∨
    (i ≠ a.table.nextSlot ∧ i ∈ a.liveEntries ∧
      (Scheduler.Machine.slot
        { a with table := Scheduler.schedulerNewEntry a.table entry heap } i).stack =
          (a.slot i).stack) := by
  obtain ⟨hlo, hslot⟩ := mem_liveEntries_iff.mp hi
  have hcases := (Scheduler.mem_liveSlots_schedulerNewEntry a.table entry heap.files
    heap.fileExists heap.behind i.toNat).mp hslot
  rw [Scheduler.Machine.slot, if_pos hlo]
  dsimp only
  rcases hcases with hnew | hold | ⟨-, hlive⟩
  · left
    rw [Scheduler.schedulerNewEntry_slot a.table entry heap (Or.inr hnew), if_pos hnew]
    exact ⟨by omega, rfl⟩
  · right
    have hne : i.toNat ≠ a.table.nextSlot := fun heq =>
      Scheduler.nextSlot_not_mem a.table (heq ▸ hold)
    rw [Scheduler.schedulerNewEntry_slot a.table entry heap (Or.inl hold.1), if_neg hne,
      Scheduler.Machine.slot, if_pos hlo]
    exact ⟨by omega, mem_liveEntries_iff.mpr ⟨hlo, hold⟩, rfl⟩
  · rw [hsurplus] at hlive
    exact absurd hlive Bool.false_ne_true

/-- A stored process is entered into the table. -/
theorem Represents.start (h : Represents room w p) {region : Set Word} {v : View}
    {entry : Scheduler.NewEntry} {heap : Scheduler.HeapAnswer}
    (hstored : Stored region room (BitVec.ofNat 32 entry.stack) w.cpu.mem v)
    (hregion : ∀ i, w.InPlay i → Disjoint region (w.region i))
    (hslot : (w.scheduler.table.nextSlot : ℤ) ≠ w.current)
    (hsurplus : (Scheduler.surplus w.scheduler.table heap.behind).live = false) :
    Represents room
      ⟨{ w.scheduler with table := Scheduler.schedulerNewEntry w.scheduler.table entry heap },
        w.cpu, Function.update w.region w.scheduler.table.nextSlot region⟩
      (p.set w.scheduler.table.nextSlot v) := by
  have hcurrent : World.current
      ⟨{ w.scheduler with table := Scheduler.schedulerNewEntry w.scheduler.table entry heap },
        w.cpu, Function.update w.region w.scheduler.table.nextSlot region⟩ = w.current :=
    Scheduler.schedulerNewEntry_running w.scheduler.table entry heap
  have hinPlay : ∀ i, World.InPlay
      ⟨{ w.scheduler with table := Scheduler.schedulerNewEntry w.scheduler.table entry heap },
        w.cpu, Function.update w.region w.scheduler.table.nextSlot region⟩ i →
      i ≠ w.scheduler.table.nextSlot → w.InPlay i := by
    rintro i (hi | hi) hne
    · exact Or.inl (hi.trans hcurrent)
    · rcases newEntry_entries hsurplus hi with ⟨heq, -⟩ | ⟨-, hold, -⟩
      · exact absurd heq hne
      · exact Or.inr hold
  have hself : w.current ≠ w.scheduler.table.nextSlot := Ne.symm hslot
  constructor
  · exact h.running.trans hcurrent.symm
  · rw [hcurrent, Processes.set_state, if_neg hself]
    dsimp only
    rw [Function.update_of_ne hself]
    exact h.current
  · rw [hcurrent]
    dsimp only
    rw [Function.update_of_ne hself]
    exact h.fits
  · exact h.plain
  · intro i hi hne
    rw [hcurrent] at hne
    rw [Processes.set_state]
    dsimp only
    rcases newEntry_entries hsurplus hi with ⟨heq, hstack⟩ | ⟨hother, hold, hstack⟩
    · rw [if_pos heq, hstack, heq, Function.update_self]
      exact hstored
    · rw [if_neg hother, hstack, Function.update_of_ne hother]
      exact h.stored i hold hne
  · intro i j hi hj hij
    dsimp only
    by_cases hi' : i = w.scheduler.table.nextSlot
    · have hj' : j ≠ w.scheduler.table.nextSlot := fun hj' => hij (hi'.trans hj'.symm)
      rw [hi', Function.update_self, Function.update_of_ne hj']
      exact hregion j (hinPlay j hj hj')
    · rw [Function.update_of_ne hi']
      by_cases hj' : j = w.scheduler.table.nextSlot
      · rw [hj', Function.update_self]
        exact (hregion i (hinPlay i hi hi')).symm
      · rw [Function.update_of_ne hj']
        exact h.apart i j (hinPlay i hi hi') (hinPlay j hj hj') hij

theorem pushed_argument (e : Word) : e - 4 + 24 = e + 20 := by bv_omega

theorem below_arguments {e a : Word} (h : (e + 20 - 1 - a).toNat < 28)
    (h' : ¬ (e + 20 - 1 - a).toNat < 20) : (e - 1 - a).toNat < 8 := by
  bv_omega

theorem below_return {e a : Word} (h : 8 ≤ (e - 1 - a).toNat) : 4 ≤ (e - 4 - 1 - a).toNat := by
  bv_omega

/-- What `isr_stub_stack` leaves for a new process, and what it leaves alone. -/
theorem stub_stored {m cpu : Machine} {behind stack eip data code offset : Word}
    {own region : Set Word} (hroom : 104 ≤ room)
    (hargs : Holds m.esp m.mem (m.esp + 20) [stack, eip, data, code, offset])
    (hown : ∀ a : Word, (m.esp + 20 - 1 - a).toNat < 20 → a ∈ own)
    (hcall : m.call behind isr_stub_stack = some cpu) (hfits : Fits own room m.esp)
    (hregion : Disjoint region own) (hnew : Fits region room stack) :
    (∃ v, Fresh v ∧ v.eip = eip ∧ v.esp = stack ∧ Stored region room cpu.regs.eax cpu.mem v) ∧
      cpu.esp = m.esp ∧ cpu.segs = m.segs ∧
        ∀ a : Word, a ∉ region → a ∉ own → cpu.mem a = m.mem a := by
  have hrun : cpu = isr_stub_stack (m.push behind) := by
    unfold Machine.call at hcall
    split at hcall
    · exact (Option.some.inj hcall).symm
    · cases hcall
  have hentered := hargs.push behind (by simp)
  have hesp : (m.push behind).esp + 24 = m.esp + 20 := by
    rw [Machine.push_esp]
    exact pushed_argument m.esp
  rw [← hesp] at hentered
  have hcaller : ∀ a : Word, ((m.push behind).esp + 24 - 1 - a).toNat < 28 → a ∈ own := by
    intro a ha
    rw [hesp] at ha
    by_cases habove : (m.esp + 20 - 1 - a).toNat < 20
    · exact hown a habove
    · exact hfits a (Nat.lt_of_lt_of_le (below_arguments ha habove) (by omega))
  obtain ⟨cs, flags, pointer, hcs, hflags, hframe, -, hback, hsegs, heax, -, hkept⟩ :=
    isr_stub_stack_eq hentered fun a ha => by
      have hapart := disjoint_of_fits hregion hnew (hcaller a ha)
      omega
  rw [← hrun] at hframe hback hsegs heax hkept
  obtain ⟨as, has, hextended⟩ := hframe.extend 8
  refine ⟨⟨⟨⟨0x4E454F53, 0xECEC, 0xEDED, 0xEBEB, 0xB1B1, 0x5151, 0xD1D1, flags⟩,
    { switched data code with cs := code.setWidth 16 <<< 3 }, stack, eip,
    visible region room stack cpu.mem⟩, ⟨⟨flags, ?_, rfl⟩, data, code, rfl⟩, rfl, rfl,
    ⟨⟨as, stubFrame data code pointer, cs, has, ?_, rfl, ?_⟩, rfl, hnew⟩⟩, ?_, ?_, ?_⟩
  · rw [hflags, BitVec.getLsbD_or]
    simp
  · rw [heax, show stack - 92 = stack - 60 - BitVec.ofNat 32 (4 * 8) from (sub_sub stack 60 32).symm]
    exact hextended
  · rw [hcs]
    rfl
  · rw [hback, Machine.push_esp]
    exact BitVec.sub_add_cancel _ _
  · rw [hsegs]
    rfl
  · intro a ha hown'
    have hfar : room ≤ (m.esp - 1 - a).toNat := by
      by_contra hlt
      exact hown' (hfits a (by omega))
    have hfar' : room ≤ (stack - 1 - a).toNat := by
      by_contra hlt
      exact ha (hnew a (by omega))
    rw [hkept a (by omega) (below_return (by omega))]
    exact store_below (by omega)

/-! ## Runs -/

/-- The system shares its processor. -/
theorem worldStep_refines (hroom : 104 ≤ room) :
    Simulation.Refines (WorldStep room program) (TimeSharing.Step program Fresh)
      (Represents room) := by
  intro w p w' h hstep
  cases hstep with
  | run hprogram hothers hfits hplain hrunning hentries =>
      refine ⟨_, .single (.run ?_), h.run hothers (by omega) hfits hplain hrunning hentries⟩
      rw [h.running, h.current]
      exact hprogram
  | @create cpu behind stack eip data code offset region entry heap hargs hown hcall hprogram
      hregion hfits hstack hslot hsurplus =>
      obtain ⟨⟨v, hfresh, -, -, hstored⟩, hesp, hsegs, hkept⟩ :=
        stub_stored hroom hargs hown hcall h.fits (hregion _ (Or.inl rfl)) hfits
      have hcaller : Represents room
          ⟨w.scheduler, cpu, Function.update w.region w.current (w.region w.current)⟩
          (p.set p.running (view (w.region w.current) room cpu)) :=
        h.run (fun i hi hne => by
          have hapart := h.apart _ i (Or.inl rfl) (Or.inr hi) (Ne.symm hne)
          refine ⟨hapart, fun a ha => hkept a (fun hnew => ?_) fun hold => ?_⟩
          · exact Set.disjoint_left.mp (hregion i (Or.inr hi)) hnew ha
          · exact Set.disjoint_left.mp hapart hold ha) (by omega) (hesp ▸ h.fits)
        (hsegs ▸ h.plain) rfl fun i hi => ⟨hi, rfl⟩
      rw [Function.update_eq_self] at hcaller
      have hpointer : BitVec.ofNat 32 entry.stack = cpu.regs.eax := by
        rw [hstack, BitVec.ofNat_toNat, BitVec.setWidth_eq]
      rw [← hpointer] at hstored
      have hstart := hcaller.start hstored hregion hslot hsurplus
      have hcalls : program p.running (p.state p.running)
          (view (w.region w.current) room cpu) := by
        rw [h.running, h.current]
        exact hprogram
      have hslot' : (w.scheduler.table.nextSlot : ℤ) ≠
          (p.set p.running (view (w.region w.current) room cpu)).running :=
        fun heq => hslot (heq.trans h.running)
      have hcall' : TimeSharing.Step program Fresh p
          (p.set p.running (view (w.region w.current) room cpu)) := .run hcalls
      exact ⟨_, (ReflTransGen.single hcall').tail (.start hslot' hfresh), hstart⟩
  | tick hticks hx =>
      obtain ⟨x, hx', htick, -⟩ := h.tick hroom hticks
      obtain rfl := Option.some.inj (hx.symm.trans hx')
      exact ⟨_, .single (.pass _), htick⟩

end

/-! ## The first process -/

/-- A compiled scheduler that answers with a fixed stack. -/
def answering (stack : Word) (m : Machine) : Machine := (m.setEax stack).ret

/-- A kernel in which every interrupt is handled by `context_switch`. -/
def timerRoutines (stack : Word) : Routines where
  service_table _ := 0x1000
  code _ m := (context_switch (answering stack) 0 0 m).getD m
  common := Machine.ret
  pic_offset := 0x20
  behind i := BitVec.ofNat 32 i

theorem answering_cdecl (stack : Word) (entered : Machine → Prop) :
    Cdecl (answering stack) 1 24 none entered :=
  ⟨fun _ _ => rfl, fun _ _ => rfl, fun _ _ => ⟨rfl, rfl, rfl, rfl⟩, fun _ _ _ _ _ _ _ => rfl⟩

theorem timerRoutines_switches (room : ℕ) (number top stack : Word) :
    SwitchesStack (timerRoutines stack) number room top stack (answering stack) where
  common := { ret_cdecl _ _ _ _ with confined := fun _ _ _ _ => rfl }
  scheduled := { answering_cdecl stack _ with confined := fun _ _ _ _ => rfl }
  answer _ _ _ := rfl
  present := show (0x1000 : Word) ≠ 0 by decide
  handler := by
    refine ⟨0, 0, fun m _ => ?_⟩
    have hwords := holds_peeks m 24
    rw [List.range_succ_eq_map, List.map_cons] at hwords
    obtain ⟨q, hrun, -⟩ := context_switch_eq 0 0 (answering_cdecl stack fun _ => True) trivial
      hwords (by simp)
    show _ = some ((context_switch (answering stack) 0 0 m).getD m)
    rw [hrun, Option.getD_some]

/-- The kernel before it has any processes, in front of a call of `isr_stub_stack` for a
stack at `0x10000` and an entry point at `0x5000`. -/
def kernelBooting : World where
  scheduler :=
    { table := Scheduler.schedulerInit (fun _ => Scheduler.leftover false)
        (fun _ _ => Vfs.vfsRoot) fun _ _ => false
      below := fun _ => Scheduler.leftover false }
  cpu :=
    let m : Machine := ⟨⟨0, 0, 0, 0, 0, 0, 0, 2⟩, ⟨8, 16, 16, 16, 16, 16⟩, 0x8014, 0, fun _ => 0, []⟩
    ((((m.push 0).push 1).push 2).push 0x5000).push 0x10000
  region _ := {a | a.toNat < 0x9000}

theorem kernelBooting_args :
    Holds kernelBooting.cpu.esp kernelBooting.cpu.mem (kernelBooting.cpu.esp + 20)
      [0x10000, 0x5000, 2, 1, 0] := by
  have hbottom : kernelBooting.cpu.esp + 20 = 0x8014 := by decide
  rw [hbottom]
  exact (((((holds_nil 0x8014 fun _ => 0).push 0 (by simp)).push 1 (by simp)).push 2
    (by simp)).push 0x5000 (by simp)).push 0x10000 (by simp)

theorem kernelBooting_esp : kernelBooting.cpu.esp = 0x8000 := by decide

theorem kernelBooting_fits : Fits {a | a.toNat < 0x9000} 104 kernelBooting.cpu.esp := by
  intro a ha
  rw [kernelBooting_esp] at ha
  show a.toNat < 0x9000
  bv_omega

/-- The memory of the first process. -/
def firstRegion : Set Word := {a | 0xF000 ≤ a.toNat ∧ a.toNat < 0x10000}

theorem firstRegion_fits : Fits firstRegion 104 0x10000 := by
  intro a ha
  show 0xF000 ≤ a.toNat ∧ a.toNat < 0x10000
  bv_omega

theorem firstRegion_apart : Disjoint firstRegion {a : Word | a.toNat < 0x9000} := by
  rw [Set.disjoint_left]
  rintro a ⟨hlo, -⟩ hhi
  exact absurd (show a.toNat < 0x9000 from hhi) (by omega)

/-- The kernel on its processor, with nothing in the table. -/
theorem kernelBooting_represents :
    Represents 104 kernelBooting ⟨-1, fun _ => view {a | a.toNat < 0x9000} 104 kernelBooting.cpu⟩ := by
  have hnone : ∀ i, i ∉ kernelBooting.scheduler.liveEntries := fun i hi =>
    absurd (mem_liveEntries_iff.mp hi).2.1 (Nat.not_lt_zero _)
  have honly : ∀ i, kernelBooting.InPlay i → i = kernelBooting.current := fun i hi =>
    hi.resolve_right (hnone i)
  exact ⟨rfl, rfl, kernelBooting_fits, ⟨rfl, rfl, rfl, rfl, by decide⟩,
    fun i hi _ => absurd hi (hnone i),
    fun i j hi hj hij => absurd ((honly i hi).trans (honly j hj).symm) hij⟩

/-- The entry of the first process. -/
def firstEntry (stack : ℕ) : Scheduler.NewEntry := ⟨-1, stack, 0, Vfs.vfsRoot, 0, 1⟩

/-- The scheduler with the first process in its table. -/
def firstScheduler (stack : ℕ) : Scheduler.Machine :=
  { kernelBooting.scheduler with
    table := Scheduler.schedulerNewEntry kernelBooting.scheduler.table (firstEntry stack)
      ⟨0, 0, fun _ => Scheduler.leftover false⟩ }

theorem firstScheduler_switches (stack oldStack : ℕ) :
    ∃ b, Scheduler.Switches (firstScheduler stack) oldStack b ∧ b.machine.running = 0 :=
  ⟨_, ⟨1, rfl⟩, rfl⟩

/-- The call of `isr_stub_stack` comes back. -/
theorem kernelBooting_call :
    kernelBooting.cpu.call 0x1234 isr_stub_stack =
      some (isr_stub_stack (kernelBooting.cpu.push 0x1234)) := by
  have hentered := kernelBooting_args.push 0x1234 (by simp)
  have hbottom : kernelBooting.cpu.esp + 20 = (kernelBooting.cpu.push 0x1234).esp + 24 := by decide
  rw [hbottom] at hentered
  have hesp : (kernelBooting.cpu.push 0x1234).esp = 0x7ffc := by decide
  obtain ⟨cs, flags, pointer, -, -, -, heip, -⟩ := isr_stub_stack_eq hentered (by
    intro a ha
    rw [hesp] at ha
    bv_omega)
  exact Machine.call_eq heip

end Neos.Interrupt
