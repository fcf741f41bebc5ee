import Mathlib.Data.Nat.Notation
import Mathlib.Data.Int.Notation

/-!
# The virtual file system of `vfs.c`

A `VRef` is an open file: a node of the mount tree, the depth below that node,
the driver in charge and the driver's private state.  Drivers are parameters:
each operation maps a reference and the state `W` of everything outside to a
result code, the state pointer it leaves in the reference and the new outside
state.

A dereferenced null pointer has no defined effect; functions that can reach one
return `none` there.
-/

namespace Neos.Vfs

/-- A C string: its bytes before the terminating null byte. -/
abbrev CString := List UInt8

/-- The byte at an index of a string, the terminator included. -/
def charAt (s : CString) (i : ℕ) : UInt8 := s.getD i 0

/-- The character `'/'`. -/
def slash : UInt8 := 47

/-- `FILE_MAX_NAME`, the terminator included. -/
def fileMaxName : ℕ := 256

/-- `PATH_MAX_RESOLVES`. -/
def pathMaxResolves : ℕ := 64

/-- `LINUX_ENAMETOOLONG`. -/
def linuxEnametoolong : ℤ := 36

/-- `LINUX_ELOOP`. -/
def linuxEloop : ℤ := 40

/-- `OPEN_DIRECTORY`. -/
def openDirectory : ℕ := 0x10000

/-- `OPEN_NOFOLLOW`. -/
def openNofollow : ℕ := 0x20000

/-! ## Mounted drivers -/

/-- `vRef`; a null driver is `none`, a null state is `0`. -/
structure VRef where
  node : ℕ
  offset : ℤ
  driver : Option ℕ
  state : ℕ
deriving DecidableEq

/-- `vNode`; nodes are numbered and node `0` is the root. -/
structure VNode where
  sibling : Option ℕ
  child : Option ℕ
  parent : ℕ
  driver : Option ℕ
  name : CString
deriving DecidableEq

/-- The operations of `FilesystemDriver` that move references around.  Of the
reference a driver writes only the state pointer. -/
structure FilesystemDriver (W : Type) where
  root : VRef → W → ℤ × ℕ × W
  clone : VRef → VRef → W → ℤ × ℕ × W
  openPart : VRef → CString → ℕ → W → ℤ × ℕ × W
  close : VRef → W → ℤ × ℕ × W
  remove : VRef → Bool → W → ℤ × ℕ × W
  stat : VRef → W → ℤ × ℕ × W

/-- The mount tree and the drivers its nodes refer to. -/
structure Mounts (W : Type) where
  nodes : List VNode
  drivers : ℕ → FilesystemDriver W

/-- What a call leaves behind: its result, the reference it worked on and the
outside state. -/
structure Outcome (W : Type) where
  res : ℤ
  vref : VRef
  world : W

variable {W : Type}

/-- A driver operation applied to a reference. -/
def VRef.store (vref : VRef) (result : ℤ × ℕ × W) : Outcome W where
  res := result.1
  vref := { vref with state := result.2.1 }
  world := result.2.2

/-- `vfs_root_ref`, as returned by `vfs_root`. -/
def vfsRoot : VRef := ⟨0, 0, none, 0⟩

/-! ## Steps of a reference -/

/-- The label `enable` of `vfs_update`. -/
def enable (m : Mounts W) (node : VNode) (vref : VRef) (w : W) : Option (Outcome W) := do
  let vref := { vref with driver := node.driver }
  let driver ← node.driver
  some (vref.store ((m.drivers driver).root vref w))

/-- `vfs_update`. -/
def vfsUpdate (m : Mounts W) (vref : VRef) (w : W) : Option (Outcome W) := do
  let node ← m.nodes[vref.node]?
  match vref.driver with
  | none => enable m node vref w
  | some driver =>
      if node.driver = some driver then some ⟨0, vref, w⟩
      else
        let closed := vref.store ((m.drivers driver).close vref w)
        if closed.res ≠ 0 then some closed else enable m node closed.vref closed.world

/-- `vfs_refcpy`; the result of the driver is ignored. -/
def vfsRefcpy (m : Mounts W) (src : VRef) (w : W) : VRef × W :=
  let vref : VRef := ⟨src.node, src.offset, none, 0⟩
  match src.driver with
  | none => (vref, w)
  | some driver =>
      let vref := { vref with driver := some driver }
      let cloned := vref.store ((m.drivers driver).clone vref src w)
      (cloned.vref, cloned.world)

/-- The loop of `vfs_findchld` along the siblings of `child`. -/
def findchldLoop (m : Mounts W) (name : CString) : ℕ → ℕ → Option (Bool × ℕ)
  | 0, _ => none
  | fuel + 1, child => do
      let node ← m.nodes[child]?
      if node.name = name then some (true, child)
      else
        match node.sibling with
        | some sibling => findchldLoop m name fuel sibling
        | none => some (false, child)

/-- `vfs_findchld`: the child with the given name, or else the last child.  A
node without children sends the search through a null pointer. -/
def vfsFindchld (m : Mounts W) (node : ℕ) (name : CString) : Option (Bool × ℕ) := do
  let node ← m.nodes[node]?
  let child ← node.child
  findchldLoop m name m.nodes.length child

/-- The call of `driver->open` at the end of `vfs_enter`. -/
def openPart (m : Mounts W) (vref : VRef) (part : CString) (flags : ℕ) (w : W) :
    Option (Outcome W) := do
  let driver ← vref.driver
  some (vref.store ((m.drivers driver).openPart vref part flags w))

/-- `vfs_update` followed by the driver's `open` when it succeeded. -/
def updateAndOpen (m : Mounts W) (vref : VRef) (part : CString) (flags : ℕ) (w : W) :
    Option (Outcome W) := do
  let updated ← vfsUpdate m vref w
  if updated.res ≠ 0 then some updated
  else openPart m updated.vref part flags updated.world

/-- `vfs_enter`. -/
def vfsEnter (m : Mounts W) (vref : VRef) (part : CString) (flags : ℕ) (w : W) :
    Option (Outcome W) := do
  if part = [46] then some ⟨0, vref, w⟩
  else if part = [46, 46] then
    if vref.offset > 0 then
      updateAndOpen m { vref with offset := vref.offset - 1 } part flags w
    else
      -- the root is its own parent
      let node ← m.nodes[vref.node]?
      vfsUpdate m { vref with node := node.parent } w
  else if vref.offset = 0 then
    let found ← vfsFindchld m vref.node part
    if found.1 then vfsUpdate m { vref with node := found.2 } w
    else updateAndOpen m { vref with offset := vref.offset + 1 } part flags w
  else updateAndOpen m { vref with offset := vref.offset + 1 } part flags w

/-! ## Paths -/

/-- `vPath`. -/
structure VPath where
  string : CString
  offset : ℕ
  resolves : ℕ
  errno : ℤ

/-- What `vfs_resolve` returns: whether there was a name, the name, and the
path. -/
structure Resolved where
  more : Bool
  name : CString
  path : VPath

/-- The loop of `vfs_resolve`: copy characters until the section ends; the
flag says that the buffer was full first. -/
def resolveLoop (string : CString) : ℕ → ℕ → CString → ℕ × CString × Bool
  | 0, offset, buffer => (offset, buffer, true)
  | room + 1, offset, buffer =>
      let chr := charAt string offset
      if chr = slash ∨ chr = 0 then (offset, buffer, false)
      else resolveLoop string room (offset + 1) (buffer ++ [chr])

/-- `vfs_resolve`. -/
def vfsResolve (path : VPath) : Resolved :=
  let offset := if charAt path.string path.offset = slash then path.offset + 1 else path.offset
  if charAt path.string offset = 0 then ⟨false, [], { path with offset := offset }⟩
  else
    let scanned := resolveLoop path.string (fileMaxName - 1) offset []
    { more := true
      name := scanned.2.1
      path :=
        { path with
          offset := scanned.1
          resolves := path.resolves + 1
          errno := if scanned.2.2 then linuxEnametoolong else path.errno } }

/-! ## Opening and closing -/

/-- The flags `vfs_open` uses for the directories on the way. -/
def directoryFlags (flags : ℕ) : ℕ := openDirectory ||| (flags &&& openNofollow)

/-- Enter the name kept in the buffer `back`, if there is one. -/
def enterBack (m : Mounts W) (back : Option CString) (flags : ℕ) (vref : VRef) (w : W) :
    Option (Outcome W) :=
  match back with
  | some part => vfsEnter m vref part flags w
  | none => some ⟨0, vref, w⟩

/-- The loop of `vfs_open`.  It stops at the latest when one name more than
`PATH_MAX_RESOLVES` was resolved. -/
def openLoop (m : Mounts W) (flags : ℕ) :
    ℕ → VPath → Option CString → VRef → W → Option (Outcome W)
  | 0, _, _, _, _ => none
  | fuel + 1, path, back, vref, w => do
      let front := vfsResolve path
      if front.more = false then enterBack m back flags vref w
      else if front.path.errno ≠ 0 then some ⟨front.path.errno, vref, w⟩
      else
        let entered ← enterBack m back (directoryFlags flags) vref w
        if entered.res ≠ 0 then some entered
        else if front.path.resolves > pathMaxResolves then
          some ⟨linuxEloop, entered.vref, entered.world⟩
        else openLoop m flags fuel front.path (some front.name) entered.vref entered.world

/-- `vfs_open`.  The result of the first `vfs_update` is ignored. -/
def vfsOpen (m : Mounts W) (relation : VRef) (path : CString) (flags : ℕ) (w : W) :
    Option (Outcome W) := do
  let source := if charAt path 0 = slash then vfsRoot else relation
  let copied := vfsRefcpy m source w
  let updated ← vfsUpdate m copied.1 copied.2
  openLoop m flags (pathMaxResolves + 1) ⟨path, 0, 0, 0⟩ none updated.vref updated.world

/-- `vfs_close`. -/
def vfsClose (m : Mounts W) (vref : VRef) (w : W) : Outcome W :=
  match vref.driver with
  | some driver => vref.store ((m.drivers driver).close vref w)
  | none => ⟨0, vref, w⟩

/-- `vfs_remove`. -/
def vfsRemove (m : Mounts W) (vref : VRef) (rmdir : Bool) (w : W) : Outcome W :=
  match vref.driver with
  | some driver => vref.store ((m.drivers driver).remove vref rmdir w)
  | none => ⟨0, vref, w⟩

/-- `vfs_stat`. -/
def vfsStat (m : Mounts W) (vref : VRef) (w : W) : Outcome W :=
  match vref.driver with
  | some driver => vref.store ((m.drivers driver).stat vref w)
  | none => ⟨0, vref, w⟩

end Neos.Vfs
