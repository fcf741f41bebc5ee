import Neos.Kernel.CLib
import Neos.Scheduler.Model

/-!
# The file system calls of `syscall.c`

The calls of the running process that open, close and look up files.  A local
descriptor that `scheduler_load_process_info` does not fill keeps what the stack
contained; it is the argument `process` of the functions that declare one.
-/

namespace Neos.Syscall

open Vfs Scheduler

/-- `LINUX_EBADF`. -/
def linuxEbadf : ℤ := 9

/-- `LINUX_EMFILE`. -/
def linuxEmfile : ℤ := 24

/-- What a system call leaves behind: the value returned to the caller, the
process table and the outside state. -/
structure Return (W : Type) where
  res : ℤ
  table : ProcessTable
  world : W

variable {W : Type}

/-- `fd_resolve`. -/
def fdResolve (s : ProcessTable) (fd : ℤ) : Option VRef :=
  if fd ≤ 0 then none else schedulerFget s (schedulerGetCurrentPid s) fd

/-- `fd_cwd`. -/
def fdCwd (s : ProcessTable) (process : ProcessDescriptor) : VRef :=
  (schedulerLoadProcessInfo s process (schedulerGetCurrentPid s)).2.cwd

/-- `fd_open`. -/
def fdOpen (m : Mounts W) (s : ProcessTable) (parent : VRef) (filename : CString) (flags : ℕ)
    (w : W) : Option (Return W) := do
  let opened ← vfsOpen m parent filename flags w
  if opened.res < 0 then some ⟨opened.res, s, opened.world⟩
  else
    let put := schedulerFput s (schedulerGetCurrentPid s) opened.vref
    if put.1 = 0 then some ⟨-linuxEmfile, put.2, opened.world⟩
    else some ⟨put.1, put.2, opened.world⟩

/-- `sys_open`; the mode is ignored. -/
def sysOpen (m : Mounts W) (s : ProcessTable) (process : ProcessDescriptor)
    (filename : CString) (flags : ℕ) (w : W) : Option (Return W) :=
  fdOpen m s (fdCwd s process) filename flags w

/-- `sys_openat`. -/
def sysOpenat (m : Mounts W) (s : ProcessTable) (fd : ℤ) (filename : CString) (flags : ℕ)
    (w : W) : Option (Return W) :=
  match fdResolve s fd with
  | none => some ⟨-linuxEbadf, s, w⟩
  | some vref => fdOpen m s vref filename flags w

/-- `sys_close`.  The descriptor is unsigned here and signed below. -/
def sysClose (m : Mounts W) (s : ProcessTable) (fd : ℕ) (w : W) : Return W :=
  if fd = 0 then ⟨-linuxEbadf, s, w⟩
  else
    let caller := schedulerGetCurrentPid s
    match schedulerFget s caller (toInt fd) with
    | none => ⟨-linuxEbadf, s, w⟩
    | some vref =>
        let closed := vfsClose m vref w
        -- the reference is closed where it stands, in the descriptor array
        let files := (s.generalProcessTable (caller - 1).toNat).files
        let s := { s with
          filesAt := setAt s.filesAt files (toInt fd - 1).toNat closed.vref }
        let removed := schedulerFremove s caller (toInt fd)
        ⟨if removed.1 ≠ 0 then -linuxEbadf else 0, removed.2, closed.world⟩

/-- `sys_chdir`. -/
def sysChdir (m : Mounts W) (s : ProcessTable) (process : ProcessDescriptor) (path : CString)
    (w : W) : Option (Return W) := do
  let cwd := fdCwd s process
  let opened ← vfsOpen m cwd path openDirectory w
  if opened.res ≠ 0 then some ⟨opened.res, s, opened.world⟩
  else
    let changed := schedulerChdir s (schedulerGetCurrentPid s) opened.vref
    let closed := vfsClose m cwd opened.world
    some ⟨0, changed.2, closed.world⟩

/-- What `stat`, `sys_unlink` and their relatives have in common: open a file,
apply an operation to it, and close it again. -/
def openApplyClose (m : Mounts W) (parent : VRef) (path : CString) (flags : ℕ)
    (operation : VRef → W → Outcome W) (w : W) : Option (ℤ × W) := do
  let opened ← vfsOpen m parent path flags w
  if opened.res ≠ 0 then some (opened.res, opened.world)
  else
    let applied := operation opened.vref opened.world
    let closed := vfsClose m applied.vref applied.world
    if applied.res ≠ 0 then some (applied.res, closed.world)
    else some (closed.res, closed.world)

/-- `stat`, which the calls of the `stat` family pass `0` or `OPEN_NOFOLLOW`. -/
def statPath (m : Mounts W) (s : ProcessTable) (process : ProcessDescriptor)
    (filename : CString) (flags : ℕ) (w : W) : Option (ℤ × W) :=
  openApplyClose m (fdCwd s process) filename flags (vfsStat m) w

/-- `sys_unlink`. -/
def sysUnlink (m : Mounts W) (s : ProcessTable) (process : ProcessDescriptor)
    (pathname : CString) (w : W) : Option (ℤ × W) :=
  openApplyClose m (fdCwd s process) pathname openNofollow
    (fun vref => vfsRemove m vref false) w

/-- `sys_rmdir`. -/
def sysRmdir (m : Mounts W) (s : ProcessTable) (process : ProcessDescriptor)
    (pathname : CString) (w : W) : Option (ℤ × W) :=
  openApplyClose m (fdCwd s process) pathname (openDirectory ||| openNofollow)
    (fun vref => vfsRemove m vref true) w

/-- `sys_unlinkat`. -/
def sysUnlinkat (m : Mounts W) (s : ProcessTable) (fd : ℤ) (pathname : CString) (flag : ℤ)
    (w : W) : Option (ℤ × W) :=
  match fdResolve s fd with
  | none => some (-linuxEbadf, w)
  | some parent =>
      openApplyClose m parent pathname
        (openNofollow ||| (if flag ≠ 0 then openDirectory else 0))
        (fun vref => vfsRemove m vref (decide (flag ≠ 0))) w

end Neos.Syscall
