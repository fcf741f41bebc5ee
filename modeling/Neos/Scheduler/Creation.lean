import Neos.Elf.Containment
import Neos.Scheduler.Stacks

/-!
# Creating a process

`scheduler_create_process` turns interrupts off, loads the program and enters it
into the process table.  The places where the load can stop are told apart by
the file and the heap alone; what is given back at each of them decides whether
a failed creation leaves everything as it was.
-/

namespace Neos.Scheduler

open BitMemory Elf Vfs

variable {F H : Type}

/-! ## `scheduler_create_process` -/

/-- `INITIAL_STACK_SIZE`. -/
def initialStackSize : ℕ := 1024 * 32

/-- The words `isr_stub_stack` pushes, the first one at the highest address; the
flags and the upper half of `eax` are those of the moment. -/
def stubFrame (flags eaxHigh stack eip dataIndex codeIndex virtualOffset : ℕ) : List ℕ :=
  [flags ||| 0x0200, eaxHigh * 2 ^ 16 + codeIndex * 8 % 2 ^ 16, eip, 0x0000, 0x00FF,
    0x4E454F53, 0xECEC, 0xEDED, 0xEBEB, wrap (stack + 2 ^ 32 - 20 + virtualOffset),
    0xB1B1, 0x5151, 0xD1D1, codeIndex, dataIndex]

/-- Push words one after the other. -/
def pushAll (m : Memory) (esp : ℕ) : List ℕ → Memory
  | [] => m
  | word :: words =>
      pushAll (storeDword m (wrap (esp + 2 ^ 32 - 4)) word) (wrap (esp + 2 ^ 32 - 4)) words

/-- `isr_stub_stack`: the adjusted stack pointer and the memory. -/
def isrStubStack (m : Memory) (flags eaxHigh stack eip dataIndex codeIndex virtualOffset : ℕ) :
    ℕ × Memory :=
  (wrap (stack + 2 ^ 32 - 4 * 15 - 4 * 8),
    pushAll m stack (stubFrame flags eaxHigh stack eip dataIndex codeIndex virtualOffset))

/-- What the scheduler works with: the process table, the machine the loader
works on, the heap blocks handed out and not freed, and the interrupt flag. -/
structure Kernel (F H : Type) where
  table : ProcessTable
  machine : Elf.Machine F (H × List ℕ)
  interrupts : Bool

/-- A heap that keeps a list of the blocks handed out and not freed. -/
def traced (k : HeapDriver H) : HeapDriver (H × List ℕ) where
  kmalloc h size :=
    let r := k.kmalloc h.1 size
    (r.1, r.2, if r.1 = 0 then h.2 else r.1 :: h.2)
  kfree h pointer := (k.kfree h.1 pointer, if pointer = 0 then h.2 else h.2.erase pointer)
  kmsz h pointer := k.kmsz h.1 pointer

/-- What a creation depends on besides the kernel: the file and the heap, the
reference the file is read through, the indeterminate locals, and what
`krealloc` does when the process table has to grow. -/
structure Surroundings (F H : Type) where
  file : FileDriver F
  heap : HeapDriver H
  exe : F → VRef
  stack : Stack
  flags : ℕ
  eaxHigh : ℕ
  growTable : H × List ℕ → ℕ → H × List ℕ
  behind : ℕ → ProcessDescriptor

/-- The blocks `scheduler_new_entry` asks for, and the heap after it. -/
def entryBlocks (e : Surroundings F H) (s : ProcessTable) (h : H × List ℕ) :
    HeapAnswer × (H × List ℕ) :=
  let h :=
    if s.nextSlot = s.processCount ∧ s.processTableSize = s.processCount then
      e.growTable h (s.processTableSize * 2)
    else h
  let files := (traced e.heap).kmalloc h (16 * maxFilesPerProcess)
  let fileExists := (traced e.heap).kmalloc files.2 maxFilesPerProcess
  (⟨files.1, fileExists.1, e.behind⟩, fileExists.2)

/-- `scheduler_create_process`. -/
def schedulerCreateProcess (e : Surroundings F H) (parentPid : ℤ) (image : ProgramImage)
    (s : Kernel F H) : ℤ × Kernel F H :=
  let s := { s with interrupts := false }
  if parentPid ≠ -1 ∧ schedulerPidInvalid s.table parentPid = true then (1, s)
  else
    let loaded := elfLoad e.file (traced e.heap) e.stack
      { image with prefix_ := 0, sufix := initialStackSize } s.machine
    let errorCode := loaded.1
    let image := loaded.2.1
    let image := { image with entry := wrap (image.entry + 2 ^ 32 - image.mount), mount := 0 }
    let s := { s with machine := loaded.2.2 }
    if errorCode ≠ elfSuccess then (1, s)
    else
      let size := (traced e.heap).kmsz s.machine.heap image.image
      let stack := wrap (image.image + size)
      let entrypoint := wrap (image.image + image.entry + image.prefix_)
      let segment := 1
      let stub := isrStubStack s.machine.memory e.flags e.eaxHigh stack entrypoint (segment + 1)
        segment 0
      let blocks := entryBlocks e s.table s.machine.heap
      let entry : NewEntry :=
        { parentIndex := parentPid
          stack := stub.1
          processMemory := image.image
          exe := e.exe s.machine.file
          mount := image.mount
          processSegmentIndex := segment }
      (0,
        { table := schedulerNewEntry s.table entry blocks.1
          machine := { s.machine with memory := stub.2, heap := blocks.2 }
          interrupts := true })

/-! ## What a creation should leave behind -/

/-- The live entries of a process table. -/
def liveSlots (t : ProcessTable) : Set ℕ :=
  {i | i < t.processCount ∧ (t.generalProcessTable i).live = true}

/-- A failed creation leaves everything as it was, a successful one adds one
live entry and turns interrupts on. -/
def Accounted (s : Kernel F H) (result : ℤ × Kernel F H) : Prop :=
  (result.1 = 1 →
    result.2.table = s.table ∧ result.2.machine.heap.2 = s.machine.heap.2 ∧
      result.2.interrupts = s.interrupts) ∧
  (result.1 = 0 →
    (∃ slot, slot ∉ liveSlots s.table ∧
      liveSlots result.2.table = insert slot (liveSlots s.table)) ∧
    result.2.interrupts = true)

/-- The places where a creation can end. -/
inductive Stop
  | refused
  | inHeaders
  | inSegments
  | entered
deriving DecidableEq

/-- What the program header table of the file holds. -/
def Surroundings.found (e : Surroundings F H) (s : Kernel F H) : Found F :=
  find e.file e.stack (headerOf e.file e.stack s.machine.file)
    (e.file.read s.machine.file ehdrSize).2.2

/-- Where a creation ends: at once, on a program header that cannot be read, on
the contents of a segment that cannot be read, or not before the process is
entered. -/
def Surroundings.stop (e : Surroundings F H) (parentPid : ℤ) (s : Kernel F H) : Stop :=
  if parentPid ≠ -1 ∧ schedulerPidInvalid s.table parentPid = true then .refused
  else if (e.file.read s.machine.file ehdrSize).2.1 = 0 ∨
      checkHeader (headerOf e.file e.stack s.machine.file) ≠ elfSuccess then .refused
  else if (e.found s).complete = false then .inHeaders
  else if (afterContents e.file (e.found s).file (e.found s).segments).isSome = false then
    .inSegments
  else .entered

/-- The block for the segment table. -/
def Surroundings.tableBlock (e : Surroundings F H) (s : Kernel F H) : ℕ × (H × List ℕ) :=
  (traced e.heap).kmalloc s.machine.heap
    (imageSegmentSize * (headerOf e.file e.stack s.machine.file).phnum)

/-- The block for the image. -/
def Surroundings.imageBlock (e : Surroundings F H) (image : ProgramImage) (s : Kernel F H) :
    Region :=
  regionFor (traced e.heap) (e.tableBlock s).2
    { image with prefix_ := 0, sufix := initialStackSize } (e.found s).segments

/-- The slot that the second increment of `process_count` makes part of the
table, with the contents it has by then. -/
def surplus (t : ProcessTable) (behind : ℕ → ProcessDescriptor) : ProcessDescriptor :=
  if t.nextSlot = t.processCount then
    (grow t ⟨0, 0, behind⟩).generalProcessTable (t.processCount + 1)
  else t.generalProcessTable t.processCount

/-- The condition under which a creation keeps its accounts: one that fails found
the interrupts off and was given none of the blocks it does not free, and one
that succeeds does not bring a stale entry to life. -/
def Surroundings.Orderly (e : Surroundings F H) (parentPid : ℤ) (image : ProgramImage)
    (s : Kernel F H) : Prop :=
  match e.stop parentPid s with
  | .refused => s.interrupts = false
  | .inHeaders => s.interrupts = false ∧ (e.tableBlock s).1 = 0
  | .inSegments => s.interrupts = false ∧ (e.imageBlock image s).image = 0
  | .entered => (surplus s.table e.behind).live = false

/-! ## A new entry -/

theorem grow_generalProcessTable (t : ProcessTable) (files fileExists : ℕ)
    (behind : ℕ → ProcessDescriptor) :
    (grow t ⟨files, fileExists, behind⟩).generalProcessTable =
      (grow t ⟨0, 0, behind⟩).generalProcessTable := by
  unfold grow
  split
  · rfl
  · rfl

/-- The index of the surplus slot. -/
def surplusIndex (t : ProcessTable) : ℕ :=
  if t.nextSlot = t.processCount then t.processCount + 1 else t.processCount

theorem nextSlot_not_mem (t : ProcessTable) : t.nextSlot ∉ liveSlots t := by
  rintro ⟨hlt, hlive⟩
  rcases nextSlot_spec t with heq | ⟨-, hdead⟩
  · omega
  · rw [hdead] at hlive
    exact Bool.false_ne_true hlive

theorem surplusIndex_not_mem (t : ProcessTable) : surplusIndex t ∉ liveSlots t := by
  rintro ⟨hlt, -⟩
  unfold surplusIndex at hlt
  split at hlt <;> omega

theorem surplusIndex_ne (t : ProcessTable) : surplusIndex t ≠ t.nextSlot := by
  unfold surplusIndex
  split
  · omega
  · omega

/-- The live entries after a creation. -/
theorem mem_liveSlots_schedulerNewEntry (t : ProcessTable) (entry : NewEntry)
    (files fileExists : ℕ) (behind : ℕ → ProcessDescriptor) (i : ℕ) :
    i ∈ liveSlots (schedulerNewEntry t entry ⟨files, fileExists, behind⟩) ↔
      i = t.nextSlot ∨ i ∈ liveSlots t ∨
        i = surplusIndex t ∧ (surplus t behind).live = true := by
  have hcount := schedulerNewEntry_processCount t entry ⟨files, fileExists, behind⟩
  have hbelow : ∀ i, i < t.processCount ∨ i = t.nextSlot → _ := fun i hi =>
    schedulerNewEntry_slot t entry ⟨files, fileExists, behind⟩ hi
  have hsurplus : (schedulerNewEntry t entry ⟨files, fileExists, behind⟩).generalProcessTable
      (surplusIndex t) = surplus t behind := by
    unfold schedulerNewEntry surplus
    change (if surplusIndex t = t.nextSlot then entry.descriptor ⟨files, fileExists, behind⟩
      else (if t.nextSlot = t.processCount then
        { grow t ⟨files, fileExists, behind⟩ with
          processCount := (grow t ⟨files, fileExists, behind⟩).processCount + 1 }
        else t).generalProcessTable (surplusIndex t)) = _
    rw [if_neg (surplusIndex_ne t)]
    unfold surplusIndex
    by_cases hend : t.nextSlot = t.processCount
    · rw [if_pos hend, if_pos hend, if_pos hend]
      exact congrFun (grow_generalProcessTable t files fileExists behind) _
    · rw [if_neg hend, if_neg hend, if_neg hend]
  constructor
  · rintro ⟨hlt, hlive⟩
    by_cases hnext : i = t.nextSlot
    · exact .inl hnext
    by_cases hold : i < t.processCount
    · rw [hbelow i (.inl hold), if_neg hnext] at hlive
      exact .inr (.inl ⟨hold, hlive⟩)
    · have hi : i = surplusIndex t := by
        unfold surplusIndex
        rw [hcount] at hlt
        split at hlt
        · rename_i hend
          rw [if_pos hend]
          omega
        · rename_i hend
          rw [if_neg hend]
          omega
      rw [hi, hsurplus] at hlive
      exact .inr (.inr ⟨hi, hlive⟩)
  · rintro (rfl | ⟨hlt, hlive⟩ | ⟨rfl, hlive⟩)
    · constructor
      · rw [hcount]
        rcases nextSlot_spec t with heq | ⟨hlt, -⟩
        · split <;> omega
        · split <;> omega
      · rw [hbelow _ (.inr rfl), if_pos rfl]
        rfl
    · constructor
      · rw [hcount]
        split <;> omega
      · rw [hbelow i (.inl hlt)]
        split
        · rfl
        · exact hlive
    · constructor
      · rw [hcount]
        unfold surplusIndex
        split <;> omega
      · rw [hsurplus, hlive]

/-- A new entry is one more live entry exactly when the surplus slot is dead. -/
theorem liveSlots_schedulerNewEntry (t : ProcessTable) (entry : NewEntry) (files fileExists : ℕ)
    (behind : ℕ → ProcessDescriptor) :
    (∃ slot, slot ∉ liveSlots t ∧
        liveSlots (schedulerNewEntry t entry ⟨files, fileExists, behind⟩) =
          insert slot (liveSlots t)) ↔
      (surplus t behind).live = false := by
  have hmem := mem_liveSlots_schedulerNewEntry t entry files fileExists behind
  constructor
  · rintro ⟨slot, -, heq⟩
    by_contra hlive
    rw [Bool.not_eq_false] at hlive
    have hnext : t.nextSlot ∈ insert slot (liveSlots t) := heq ▸ (hmem _).mpr (.inl rfl)
    have hextra : surplusIndex t ∈ insert slot (liveSlots t) :=
      heq ▸ (hmem _).mpr (.inr (.inr ⟨rfl, hlive⟩))
    rcases hnext with hnext | hnext
    · rcases hextra with hextra | hextra
      · exact surplusIndex_ne t (hextra.trans hnext.symm)
      · exact surplusIndex_not_mem t hextra
    · exact nextSlot_not_mem t hnext
  · intro hdead
    refine ⟨t.nextSlot, nextSlot_not_mem t, ?_⟩
    ext i
    rw [hmem, Set.mem_insert_iff, hdead]
    simp

/-! ## The ends of a creation -/

section Ends

variable {e : Surroundings F H} {parentPid : ℤ} {image : ProgramImage} {s : Kernel F H}

/-- The load of the program. -/
def Surroundings.load (e : Surroundings F H) (image : ProgramImage) (s : Kernel F H) :
    ℤ × ProgramImage × Elf.Machine F (H × List ℕ) :=
  elfLoad e.file (traced e.heap) e.stack { image with prefix_ := 0, sufix := initialStackSize }
    s.machine

/-- A creation that fails has turned interrupts off, and what it has done to the
heap is what the load has done. -/
theorem accounted_of_failed
    (hparent : ¬ (parentPid ≠ -1 ∧ schedulerPidInvalid s.table parentPid = true))
    (hload : (e.load image s).1 ≠ elfSuccess) :
    Accounted s (schedulerCreateProcess e parentPid image s) ↔
      s.interrupts = false ∧ (e.load image s).2.2.heap.2 = s.machine.heap.2 := by
  have hresult : schedulerCreateProcess e parentPid image s =
      (1, { s with machine := (e.load image s).2.2, interrupts := false }) := by
    unfold schedulerCreateProcess
    exact (if_neg hparent).trans (if_pos hload)
  rw [hresult]
  constructor
  · rintro ⟨hfailed, -⟩
    obtain ⟨-, hheap, hflag⟩ := hfailed rfl
    exact ⟨hflag.symm, hheap⟩
  · rintro ⟨hflag, hheap⟩
    refine ⟨fun _ => ⟨rfl, hheap, hflag.symm⟩, ?_⟩
    intro h
    exact absurd h one_ne_zero

/-- A creation that succeeds has made a new entry. -/
theorem accounted_of_loaded
    (hparent : ¬ (parentPid ≠ -1 ∧ schedulerPidInvalid s.table parentPid = true))
    (hload : (e.load image s).1 = elfSuccess) :
    Accounted s (schedulerCreateProcess e parentPid image s) ↔
      (surplus s.table e.behind).live = false := by
  obtain ⟨entry, files, fileExists, machine, hresult⟩ : ∃ entry files fileExists machine,
      schedulerCreateProcess e parentPid image s =
        (0, ⟨schedulerNewEntry s.table entry ⟨files, fileExists, e.behind⟩, machine, true⟩) := by
    unfold schedulerCreateProcess
    exact ⟨_, _, _, _, (if_neg hparent).trans (if_neg (not_not.mpr hload))⟩
  rw [hresult, ← liveSlots_schedulerNewEntry s.table entry files fileExists e.behind]
  constructor
  · rintro ⟨-, hcreated⟩
    exact (hcreated rfl).1
  · intro hslot
    refine ⟨?_, fun _ => ⟨hslot, rfl⟩⟩
    intro h
    exact absurd h zero_ne_one

theorem headerAccepted_iff :
    ¬ ((e.file.read s.machine.file ehdrSize).2.1 = 0 ∨
        checkHeader (headerOf e.file e.stack s.machine.file) ≠ elfSuccess) ↔
      HeaderAccepted e.file e.stack s.machine.file := by
  rw [not_or, not_not]
  exact Iff.rfl

/-- A header that cannot be read leaves the table in the heap. -/
theorem load_inHeaders (image : ProgramImage)
    (haccepted : HeaderAccepted e.file e.stack s.machine.file)
    (hincomplete : (e.found s).complete = false) :
    (e.load image s).1 ≠ elfSuccess ∧ (e.load image s).2.2.heap = (e.tableBlock s).2 := by
  obtain ⟨hcode, hmachine⟩ := elfLoad_accepted (traced e.heap)
    { image with prefix_ := 0, sufix := initialStackSize } haccepted
  obtain ⟨ws, hsegments, -⟩ := elfSegments_incomplete e.file (traced e.heap) e.stack
    (headerOf e.file e.stack s.machine.file)
    { image with prefix_ := 0, sufix := initialStackSize } (s.machine.headerRead e.file)
    hincomplete
  unfold Surroundings.load
  rw [hcode, hmachine, hsegments]
  exact ⟨show elfReadError ≠ elfSuccess by decide, rfl⟩

/-- Once all headers are read, the load succeeds if all contents can be read, and
gives back the table in any case. -/
theorem load_complete (image : ProgramImage)
    (haccepted : HeaderAccepted e.file e.stack s.machine.file)
    (hcomplete : (e.found s).complete = true) :
    ((e.load image s).1 = elfSuccess ↔
        (afterContents e.file (e.found s).file (e.found s).segments).isSome = true) ∧
      (e.load image s).2.2.heap =
        (traced e.heap).kfree ((traced e.heap).kmalloc (e.tableBlock s).2
          (e.imageBlock image s).size).2 (e.tableBlock s).1 := by
  obtain ⟨hcode, hmachine⟩ := elfLoad_accepted (traced e.heap)
    { image with prefix_ := 0, sufix := initialStackSize } haccepted
  obtain ⟨ws, hall⟩ := elfSegments_complete e.file (traced e.heap) e.stack
    (headerOf e.file e.stack s.machine.file)
    { image with prefix_ := 0, sufix := initialStackSize } (s.machine.headerRead e.file)
    hcomplete
  obtain ⟨hsegments, -, -⟩ := hall (e.found s) (e.tableBlock s) (e.imageBlock image s) _ rfl rfl
    rfl rfl
  unfold Surroundings.load
  rw [hcode, hmachine, hsegments, ← copyLoop_success_iff e.file (e.imageBlock image s).image
    ((e.imageBlock image s).image + 0) (lowest (e.found s).segments) (e.found s).segments
    { s.machine.headerRead e.file with
      file := (e.found s).file
      heap := ((traced e.heap).kmalloc (e.tableBlock s).2 (e.imageBlock image s).size).2
      written := (s.machine.headerRead e.file).written ++ ws
      region := some (e.imageBlock image s) }]
  split
  · rename_i hcopied
    exact ⟨iff_of_true rfl hcopied, rfl⟩
  · exact ⟨Iff.rfl, rfl⟩

/-- The blocks left when the table was given back and the image was not. -/
theorem traced_live_iff (k : HeapDriver H) (h : H × List ℕ) (tableBytes imageBytes : ℕ) :
    ((traced k).kfree ((traced k).kmalloc ((traced k).kmalloc h tableBytes).2 imageBytes).2
        ((traced k).kmalloc h tableBytes).1).2 = h.2 ↔
      ((traced k).kmalloc ((traced k).kmalloc h tableBytes).2 imageBytes).1 = 0 := by
  unfold traced
  dsimp only
  generalize k.kmalloc h.1 tableBytes = table
  generalize k.kmalloc table.2 imageBytes = image
  by_cases himage : image.1 = 0
  · refine iff_of_true ?_ himage
    rw [if_pos himage]
    by_cases htable : table.1 = 0
    · rw [if_pos htable, if_pos htable]
    · rw [if_neg htable, if_neg htable, List.erase_cons_head]
  · refine iff_of_false ?_ himage
    intro heq
    have hlength := congrArg List.length heq
    rw [if_neg himage] at hlength
    by_cases htable : table.1 = 0
    · rw [if_pos htable, if_pos htable, List.length_cons] at hlength
      omega
    · rw [if_neg htable, if_neg htable, List.length_erase_of_mem
        (List.mem_cons_of_mem _ List.mem_cons_self), List.length_cons, List.length_cons] at hlength
      omega

theorem tableBlock_live_iff :
    (e.tableBlock s).2.2 = s.machine.heap.2 ↔ (e.tableBlock s).1 = 0 := by
  unfold Surroundings.tableBlock traced
  dsimp only
  split
  · rename_i hnull
    exact iff_of_true rfl hnull
  · rename_i hsome
    exact iff_of_false (List.cons_ne_self _ _) hsome

end Ends

/-! ## A file that ends after its header -/

/-- Nothing but the header of a program with one segment. -/
def truncatedFile : Surroundings ℕ ℕ where
  file := contentsDriver (fileHeader 1)
  heap := bumpHeap
  exe _ := vfsRoot
  stack := ⟨[], fun _ => []⟩
  flags := 0
  eaxHigh := 0
  growTable h _ := h
  behind _ := leftover false

/-- A kernel that runs with interrupts, without processes. -/
def idleKernel : Kernel ℕ ℕ where
  table := freshTable
  machine := ⟨0, (0x4000, []), fun _ => 0, [], none⟩
  interrupts := true

end Neos.Scheduler
