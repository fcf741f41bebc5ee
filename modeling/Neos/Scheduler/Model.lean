import Neos.Vfs.Model

/-!
# The process table of `scheduler.c`

The table is seen through its pointer: slot `i` is the memory at
`general_process_table + i`, whether the index is below the allocated size or
not.  Pointers to the descriptor arrays are kept as they are, the arrays
themselves are looked up by pointer; the array at address `0` is what the low
memory happens to contain.
-/

namespace Neos.Scheduler

open Vfs

/-- `INITIAL_PROCESS_TABLE_SIZE`. -/
def initialProcessTableSize : ℕ := 2

/-- `MAX_FILES_PER_PROCESS`. -/
def maxFilesPerProcess : ℕ := 1024

/-- `ProcessState`. -/
inductive ProcessState
  | runnable
  | sleeping
  | stopped
  | zombie
deriving DecidableEq

/-- `ProcessDescriptor`. -/
structure ProcessDescriptor where
  live : Bool
  stack : ℕ
  processMemory : ℕ
  state : ProcessState
  parentIndex : ℤ
  files : ℕ
  fileExists : ℕ
  cwd : VRef
  exe : VRef
  mount : ℕ
  processSegmentsIndex : ℤ

/-- The data of the scheduler, and the pointers passed to `kfree` so far. -/
structure ProcessTable where
  generalProcessTable : ℕ → ProcessDescriptor
  processCount : ℕ
  processTableSize : ℕ
  processRunning : ℤ
  filesAt : ℕ → ℕ → VRef
  fileExistsAt : ℕ → ℕ → Bool
  freed : List ℕ

/-- Change one slot of the table. -/
def ProcessTable.setSlot (s : ProcessTable) (index : ℕ) (process : ProcessDescriptor) : ProcessTable :=
  { s with
    generalProcessTable := fun i => if i = index then process else s.generalProcessTable i }

/-- `scheduler_init` on a heap block with arbitrary contents. -/
def schedulerInit (table : ℕ → ProcessDescriptor) (filesAt : ℕ → ℕ → VRef)
    (fileExistsAt : ℕ → ℕ → Bool) : ProcessTable where
  generalProcessTable := table
  processCount := 0
  processTableSize := initialProcessTableSize
  processRunning := -1
  filesAt := filesAt
  fileExistsAt := fileExistsAt
  freed := []

/-- `scheduler_pid_invalid`. -/
def schedulerPidInvalid (s : ProcessTable) (pid : ℤ) : Bool :=
  if pid ≤ 0 then true
  else if pid - 1 ≥ s.processCount then true
  else !(s.generalProcessTable (pid - 1).toNat).live

/-- `scheduler_get_current_pid`. -/
def schedulerGetCurrentPid (s : ProcessTable) : ℤ := s.processRunning + 1

/-- `scheduler_load_process_info`: the descriptor of a valid process; for an
invalid one the caller's descriptor keeps the contents it had. -/
def schedulerLoadProcessInfo (s : ProcessTable) (processInfo : ProcessDescriptor) (pid : ℤ) :
    ℤ × ProcessDescriptor :=
  if schedulerPidInvalid s pid then (1, processInfo)
  else
    let process := s.generalProcessTable (pid - 1).toNat
    (0, { process with live := processInfo.live, stack := processInfo.stack })

/-! ## Creation and removal -/

/-- The loop of `scheduler_new_entry`: the first slot below `process_count`
that is not live, or else `process_count`. -/
def deadSlot (s : ProcessTable) : ℕ → ℕ → ℕ
  | 0, index => index
  | fuel + 1, index =>
      if index ≠ s.processCount ∧ (s.generalProcessTable index).live = true then
        deadSlot s fuel (index + 1)
      else index

/-- What the heap answers during a creation: the pointers of the descriptor
arrays, and the contents behind the old slots when the table is moved. -/
structure HeapAnswer where
  files : ℕ
  fileExists : ℕ
  behind : ℕ → ProcessDescriptor

/-- The doubling of a full table. -/
def grow (s : ProcessTable) (heap : HeapAnswer) : ProcessTable :=
  if s.processTableSize = s.processCount then
    { s with
      processTableSize := s.processTableSize * 2
      generalProcessTable := fun i =>
        if i < s.processTableSize then s.generalProcessTable i else heap.behind i }
  else s

/-- The arguments of `scheduler_new_entry`. -/
structure NewEntry where
  parentIndex : ℤ
  stack : ℕ
  processMemory : ℕ
  exe : VRef
  mount : ℕ
  processSegmentIndex : ℤ

/-- The descriptor `scheduler_new_entry` writes. -/
def NewEntry.descriptor (entry : NewEntry) (heap : HeapAnswer) : ProcessDescriptor where
  live := true
  stack := entry.stack
  processMemory := entry.processMemory
  state := .runnable
  parentIndex := entry.parentIndex
  files := heap.files
  fileExists := heap.fileExists
  cwd := vfsRoot
  exe := entry.exe
  mount := entry.mount
  processSegmentsIndex := entry.processSegmentIndex

/-- `scheduler_new_entry`.  The count is raised once when the entry is appended
and once more at the end. -/
def schedulerNewEntry (s : ProcessTable) (entry : NewEntry) (heap : HeapAnswer) : ProcessTable :=
  let index := deadSlot s s.processCount 0
  let s :=
    if index = s.processCount then
      let s := grow s heap
      { s with processCount := s.processCount + 1 }
    else s
  let s := s.setSlot index (entry.descriptor heap)
  { s with
    fileExistsAt := fun pointer i =>
      if pointer = heap.fileExists ∧ i < maxFilesPerProcess then false
      else s.fileExistsAt pointer i
    processCount := s.processCount + 1 }

/-- `scheduler_remove_entry`. -/
def schedulerRemoveEntry (s : ProcessTable) (index : ℕ) : ProcessTable :=
  let process := s.generalProcessTable index
  let s := s.setSlot index { process with live := false }
  { s with freed := s.freed ++ [process.files, process.fileExists] }

/-- `scheduler_kill_process`. -/
def schedulerKillProcess {W : Type} (m : Mounts W) (s : ProcessTable) (pid : ℤ) (w : W) :
    ℤ × ProcessTable × W :=
  if schedulerPidInvalid s pid then (1, s, w)
  else
    let index := (pid - 1).toNat
    let process := s.generalProcessTable index
    let s := { s with freed := s.freed ++ [process.processMemory] }
    let closed := vfsClose m process.cwd w
    let s := s.setSlot index { process with cwd := closed.vref }
    (0, schedulerRemoveEntry s index, closed.world)

/-! ## Descriptors of a process -/

/-- `scheduler_chdir`. -/
def schedulerChdir (s : ProcessTable) (pid : ℤ) (cwd : VRef) : ℤ × ProcessTable :=
  if schedulerPidInvalid s pid then (1, s)
  else
    let index := (pid - 1).toNat
    (0, s.setSlot index { s.generalProcessTable index with cwd := cwd })

/-- The loop of `scheduler_fput`: the first free descriptor from `i` on. -/
def freeFile (s : ProcessTable) (fileExists : ℕ) : ℕ → ℕ → Option ℕ
  | 0, _ => none
  | fuel + 1, i =>
      if s.fileExistsAt fileExists i = false then some i else freeFile s fileExists fuel (i + 1)

/-- Change one entry of an array in memory. -/
def setAt {α : Type} (arrays : ℕ → ℕ → α) (pointer index : ℕ) (value : α) : ℕ → ℕ → α :=
  fun p i => if p = pointer ∧ i = index then value else arrays p i

/-- `scheduler_fput`. -/
def schedulerFput (s : ProcessTable) (pid : ℤ) (vref : VRef) : ℤ × ProcessTable :=
  if schedulerPidInvalid s pid then (0, s)
  else
    let process := s.generalProcessTable (pid - 1).toNat
    match freeFile s process.fileExists maxFilesPerProcess 0 with
    | none => (0, s)
    | some i =>
        (i + 1,
          { s with
            filesAt := setAt s.filesAt process.files i vref
            fileExistsAt := setAt s.fileExistsAt process.fileExists i true })

/-- Whether a descriptor number is in range and its entry is marked. -/
def fileOpen (s : ProcessTable) (process : ProcessDescriptor) (fd : ℤ) : Bool :=
  0 ≤ fd - 1 ∧ fd - 1 < maxFilesPerProcess ∧
    s.fileExistsAt process.fileExists (fd - 1).toNat = true

/-- `scheduler_fget`; a null pointer is `none`. -/
def schedulerFget (s : ProcessTable) (pid fd : ℤ) : Option VRef :=
  if schedulerPidInvalid s pid then none
  else
    let process := s.generalProcessTable (pid - 1).toNat
    if fileOpen s process fd then some (s.filesAt process.files (fd - 1).toNat) else none

/-- `scheduler_fremove`.  The assignment stores `false` into the pointer
`fileExists` and not into the array behind it. -/
def schedulerFremove (s : ProcessTable) (pid fd : ℤ) : ℤ × ProcessTable :=
  if schedulerPidInvalid s pid then (1, s)
  else
    let index := (pid - 1).toNat
    let process := s.generalProcessTable index
    if fileOpen s process fd then (0, s.setSlot index { process with fileExists := 0 })
    else (1, s)

end Neos.Scheduler
