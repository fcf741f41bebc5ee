import Neos.Kernel.CLib
import Neos.Scheduler.Model
import Neos.Vfs.Directory

/-!
# The process file system of `procfs.c`

An open file of the process file system has a state block: a node of the fixed
tree, the process the node belongs to, and the position of a listing.  The
driver works on the state blocks, on the process table and on the heap, which is
a parameter.
-/

namespace Neos.Procfs

open Vfs Scheduler

/-- `LINUX_EIO`. -/
def linuxEio : ℤ := 5

/-- `LINUX_ENOENT`. -/
def linuxEnoent : ℤ := 2

/-- `LINUX_EROFS`. -/
def linuxErofs : ℤ := 30

/-! ## Numbers and strings -/

/-- The character of a digit. -/
def digit (value : ℕ) : UInt8 := if value < 10 then 48 + value.toUInt8 else 55 + value.toUInt8

/-- The loop of `uint_to_str`: digits are put in front while there is room. -/
def uintToStrLoop (base : ℕ) : ℕ → ℕ → CString → ℕ × CString
  | 0, num, buffer => (num, buffer)
  | room + 1, num, buffer =>
      if num > 0 then uintToStrLoop base room (num / base) (digit (num % base) :: buffer)
      else (num, buffer)

/-- `uint_to_str`; an empty string says that the buffer was too small. -/
def uintToStr (num bufferSize base : ℕ) : CString :=
  if num = 0 then [48]
  else
    let converted := uintToStrLoop base (bufferSize - 1) num []
    if converted.1 > 0 then [] else converted.2

/-- The value of a digit. -/
def digitValue (c : UInt8) : Option ℕ :=
  if 48 ≤ c ∧ c ≤ 57 then some (c.toNat - 48)
  else if 65 ≤ c ∧ c ≤ 90 then some (c.toNat - 65 + 10)
  else none

/-- The loop of `str_to_uint`. -/
def strToUintLoop (base : ℕ) : CString → ℕ → ℕ
  | [], result => result
  | c :: rest, result =>
      match digitValue c with
      | none => result
      | some value =>
          if value ≥ base then result
          else strToUintLoop base rest ((result * base + value) % 2 ^ 32)

/-- `str_to_uint`. -/
def strToUint (str : CString) (base : ℕ) : ℕ := strToUintLoop base str 0

example : strToUint (uintToStr 4294967295 16 10) 10 = 4294967295 := by decide

/-! ## The processes -/

/-- The loop of `scheduler_process_list`.  It also looks at the slot behind the
last one. -/
def processListLoop (s : ProcessTable) : ℕ → ℕ → Option ℕ
  | 0, _ => none
  | fuel + 1, i =>
      if i ≤ s.processCount then
        if (s.generalProcessTable i).live then some (i + 1) else processListLoop s fuel (i + 1)
      else none

/-- `scheduler_process_list`: the next process id after the given one. -/
def schedulerProcessList (s : ProcessTable) (pid : ℕ) : Option ℕ :=
  processListLoop s (s.processCount + 1) pid

/-- The ids `scheduler_process_list` returns one after the other. -/
def pidsFrom (s : ProcessTable) : ℕ → ℕ → List ℕ
  | 0, _ => []
  | fuel + 1, pid =>
      match schedulerProcessList s pid with
      | some next => next :: pidsFrom s fuel next
      | none => []

/-- The ids of a loop over `scheduler_process_list`. -/
def pids (s : ProcessTable) : List ℕ := pidsFrom s (s.processCount + 1) 0

/-! ## The state blocks -/

/-- `ProcNode`. -/
inductive ProcNode
  | root
  | proc
  | fd
  | exe
  | cwd
  | self
deriving DecidableEq

/-- `ProcState`. -/
structure ProcState where
  pid : ℤ
  node : ProcNode
  offset : ℤ
deriving DecidableEq

/-- What the driver works on: the state blocks by their pointers, the process
table, and everything else. -/
structure ProcWorld (E : Type) where
  states : ℕ → ProcState
  table : ProcessTable
  rest : E

/-- The heap, and what a directory entry reads as at an offset that is not the
start of one. -/
structure Surroundings (E : Type) where
  kmalloc : E → ℕ × E
  kfree : ℕ → E → E
  garbled : List VEntry → ℤ → VEntry

variable {E : Type}

/-- Write a state block. -/
def ProcWorld.put (w : ProcWorld E) (pointer : ℕ) (state : ProcState) : ProcWorld E :=
  { w with states := fun p => if p = pointer then state else w.states p }

@[simp] theorem ProcWorld.put_states_self (w : ProcWorld E) (pointer : ℕ) (state : ProcState) :
    (w.put pointer state).states pointer = state := if_pos rfl

@[simp] theorem ProcWorld.put_table (w : ProcWorld E) (pointer : ℕ) (state : ProcState) :
    (w.put pointer state).table = w.table := rfl

/-! ## Opening and closing -/

/-- The name `"self"`. -/
def selfName : CString := [115, 101, 108, 102]

/-- The name `"fd"`. -/
def fdName : CString := [102, 100]

/-- The name `"exe"`. -/
def exeName : CString := [101, 120, 101]

/-- The name `"cwd"`. -/
def cwdName : CString := [99, 119, 100]

/-- The name `".."`. -/
def upName : CString := [46, 46]

/-- `procfs_root`. -/
def procfsRoot (h : Surroundings E) (_dst : VRef) (w : ProcWorld E) : ℤ × ℕ × ProcWorld E :=
  let block := h.kmalloc w.rest
  (0, block.1, { w with rest := block.2 }.put block.1 ⟨0, .root, 0⟩)

/-- `procfs_clone`. -/
def procfsClone (h : Surroundings E) (_dst src : VRef) (w : ProcWorld E) : ℤ × ℕ × ProcWorld E :=
  let block := h.kmalloc w.rest
  (0, block.1, { w with rest := block.2 }.put block.1 (w.states src.state))

/-- The flag `OPEN_NOFOLLOW`. -/
def nofollow (flags : ℕ) : Bool := flags &&& openNofollow ≠ 0

/-- `procfs_open` on the state of a reference: the result and the new state. -/
def openState (table : ProcessTable) (state : ProcState) (basename : CString) (flags : ℕ) :
    ℤ × ProcState :=
  match state.node with
  | .root =>
      if basename = selfName then
        (0, ⟨schedulerGetCurrentPid table, if nofollow flags then .self else .proc, 0⟩)
      else
        let expected := toInt (strToUint basename 10)
        if expected ∈ (pids table).map Int.ofNat then (0, ⟨expected, .proc, 0⟩)
        else (-linuxEnoent, state)
  | .proc =>
      if basename = upName then (0, { state with node := .root, offset := 0 })
      else if basename = fdName then
        -- without the flag the link is not followed, and the node stays
        (0, { state with node := if nofollow flags then .fd else state.node, offset := 0 })
      else if basename = exeName then
        (0, { state with node := if nofollow flags then .exe else state.node, offset := 0 })
      else if basename = cwdName then (0, { state with node := .cwd, offset := 0 })
      else (-linuxEnoent, state)
  | .fd =>
      if basename = upName then (0, { state with node := .proc, offset := 0 })
      else (-linuxEnoent, state)
  | _ => (-linuxEio, state)

/-- `procfs_open`. -/
def procfsOpen (vref : VRef) (basename : CString) (flags : ℕ) (w : ProcWorld E) :
    ℤ × ℕ × ProcWorld E :=
  let opened := openState w.table (w.states vref.state) basename flags
  (opened.1, vref.state, w.put vref.state opened.2)

/-- `procfs_close`. -/
def procfsClose (h : Surroundings E) (vref : VRef) (w : ProcWorld E) : ℤ × ℕ × ProcWorld E :=
  (0, vref.state, { w with rest := h.kfree vref.state w.rest })

/-- `procfs_remove`. -/
def procfsRemove (vref : VRef) (_rmdir : Bool) (w : ProcWorld E) : ℤ × ℕ × ProcWorld E :=
  (-linuxErofs, vref.state, w)

/-- `procfs_stat`: every node has a type, so no error is left. -/
def procfsStat (vref : VRef) (w : ProcWorld E) : ℤ × ℕ × ProcWorld E := (0, vref.state, w)

/-- The driver made by `procfs_load`. -/
def procfs (h : Surroundings E) : FilesystemDriver (ProcWorld E) where
  root := procfsRoot h
  clone := procfsClone h
  openPart := procfsOpen
  close := procfsClose h
  remove := procfsRemove
  stat := procfsStat

/-- `procfs_lookup`: the result and the name written on success. -/
def procfsLookup (vref : VRef) (w : ProcWorld E) : ℤ × CString :=
  match (w.states vref.state).node with
  | .proc => (0, uintToStr (toWord (w.states vref.state).pid) 16 10)
  | .fd => (0, fdName)
  | .cwd => (0, cwdName)
  | .exe => (0, exeName)
  | .self => (0, selfName)
  | .root => (-1, [])

end Neos.Procfs
