import Neos.Procfs.Model
import Neos.Syscall.Dirents

/-!
# Listing the process file system

`procfs_list` builds the whole listing of a directory on every call and copies
one entry out of it, from the byte offset in the state block; `procfs_seek` sets
that offset.  Whatever the sizes of the buffers of the directory calls, the
entries they consume go on where the last call stopped.
-/

namespace Neos.Procfs

open Vfs Scheduler Syscall

variable {E : Type}

/-! ## The listings -/

/-- `sizeof (vEntry)`. -/
def vEntrySize : ℕ := 268

/-- The name, the length stored with it, and the type of an entry. -/
abbrev EntryData := CString × ℕ × VEntryType

/-- Number the entries of a listing by their offsets. -/
def numbered (entries : List EntryData) : List VEntry :=
  entries.zipIdx.map fun entry =>
    ⟨entry.2 * vEntrySize, entry.1.2.1, entry.1.1, entry.1.2.2⟩

/-- The listing of the root: the lengths of the first three names include the
terminator. -/
def rootEntries (table : ProcessTable) : List VEntry :=
  numbered ([([46], 2, .dir), (upName, 3, .dir), (selfName, 5, .lnk)] ++
    (pids table).map fun pid =>
      let name := uintToStr pid 16 10
      (name, name.length, .dir))

/-- The listing of a process. -/
def procEntries : List VEntry :=
  numbered [([46], 1, .dir), (upName, 2, .dir), (exeName, 3, .lnk), (cwdName, 3, .lnk),
    (fdName, 2, .dir)]

/-- The listing of the descriptors of a process. -/
def fdEntries : List VEntry := numbered [([46], 1, .dir), (upName, 2, .dir)]

/-- The offset `proc_sread` reads from. -/
def readOffset (state : ProcState) : ℤ := if state.offset < 0 then 0 else state.offset

/-- `proc_sread`: the number of bytes copied, and the state behind them. -/
def procSread (outputSize fileSize : ℤ) (state : ProcState) : ℤ × ProcState :=
  let left := fileSize - readOffset state
  let bytes := cMin left outputSize
  (bytes, { state with offset := readOffset state + bytes })

/-- Copy one entry out of a listing, and move the position behind it. -/
def readEntry (h : Surroundings E) (entries : List VEntry) (vref : VRef) (w : ProcWorld E) :
    ℤ × VEntry × ProcWorld E :=
  let state := w.states vref.state
  let copied := procSread vEntrySize (vEntrySize * entries.length) state
  let entry :=
    if readOffset state % vEntrySize = 0 then
      entries.getD (readOffset state / vEntrySize).toNat (h.garbled entries (readOffset state))
    else h.garbled entries (readOffset state)
  -- the size of an entry is unsigned, and so is the quotient
  (toInt (toWord copied.1 / vEntrySize), entry, w.put vref.state copied.2)

/-- `procfs_list` with room for one entry.  At a node that is no directory the
error is returned with the wrong sign, and nothing is copied. -/
def procfsList (h : Surroundings E) (vref : VRef) (w : ProcWorld E) : ℤ × VEntry × ProcWorld E :=
  match (w.states vref.state).node with
  | .root =>
      let block := h.kmalloc w.rest
      let listed := readEntry h (rootEntries w.table) vref { w with rest := block.2 }
      (listed.1, listed.2.1, { listed.2.2 with rest := h.kfree block.1 listed.2.2.rest })
  | .proc => readEntry h procEntries vref w
  | .fd => readEntry h fdEntries vref w
  | _ => (linuxEio, h.garbled [] 0, w)

/-- `procfs_seek` with `SEEK_SET`. -/
def procfsSeek (vref : VRef) (offset : ℤ) (w : ProcWorld E) : ℤ × ProcWorld E :=
  (offset, w.put vref.state { w.states vref.state with offset := offset })

/-- The directory operations of the driver made by `procfs_load`. -/
def procfsDirectory (h : Surroundings E) : DirectoryOps (ProcWorld E) where
  list := procfsList h
  seek := procfsSeek

/-- The listing of a directory. -/
def listing (table : ProcessTable) : ProcNode → Option (List VEntry)
  | .root => some (rootEntries table)
  | .proc => some procEntries
  | .fd => some fdEntries
  | _ => none

/-- Every listed process but the slot behind the last owns 1024 references and
1024 flags, and all of them lie in memory. -/
def ProcessesFit (table : ProcessTable) : Prop := (pids table).length ≤ 2 ^ 32 / 17408 + 1

/-! ## The position of a listing -/

@[simp] theorem length_numbered (entries : List EntryData) :
    (numbered entries).length = entries.length := by
  simp [numbered]

theorem numbered_seekOffset {entries : List EntryData} {k : ℕ} {entry : VEntry}
    (hk : (numbered entries)[k]? = some entry) : entry.seekOffset = k * vEntrySize := by
  rw [numbered, List.getElem?_map] at hk
  obtain ⟨x, hx, rfl⟩ := Option.map_eq_some_iff.mp hk
  rw [List.getElem?_zipIdx] at hx
  obtain ⟨y, _, rfl⟩ := Option.map_eq_some_iff.mp hx
  dsimp only
  rw [Nat.zero_add]

/-- The state block of a reference belongs to a directory, and its position is
at the start of an entry, or at the end. -/
structure Cursor (table : ProcessTable) (entries : List VEntry) (vref : VRef) (k : ℕ)
    (w : ProcWorld E) : Prop where
  table_eq : w.table = table
  directory : listing table (w.states vref.state).node = some entries
  offset : (w.states vref.state).offset = k * vEntrySize
  le : k ≤ entries.length

theorem listing_length {table : ProcessTable} (hfit : ProcessesFit table) {node : ProcNode}
    {entries : List VEntry} (h : listing table node = some entries) : entries.length ≤ 300000 := by
  rw [ProcessesFit] at hfit
  cases node with
  | root =>
      rw [← Option.some.inj h, rootEntries, length_numbered, List.length_append, List.length_map]
      simp only [List.length_cons, List.length_nil]
      omega
  | proc =>
      rw [← Option.some.inj h]
      decide
  | fd =>
      rw [← Option.some.inj h]
      decide
  | exe => cases h
  | cwd => cases h
  | self => cases h

theorem listing_seekOffset {table : ProcessTable} {node : ProcNode} {entries : List VEntry}
    (h : listing table node = some entries) {k : ℕ} {entry : VEntry}
    (hk : entries[k]? = some entry) : entry.seekOffset = k * vEntrySize := by
  cases node with
  | root =>
      rw [← Option.some.inj h, rootEntries] at hk
      exact numbered_seekOffset hk
  | proc =>
      rw [← Option.some.inj h, procEntries] at hk
      exact numbered_seekOffset hk
  | fd =>
      rw [← Option.some.inj h, fdEntries] at hk
      exact numbered_seekOffset hk
  | exe => cases h
  | cwd => cases h
  | self => cases h

section Cursor

variable {table : ProcessTable} {entries : List VEntry} {vref : VRef} {k : ℕ} {w : ProcWorld E}

/-- The rest of the world plays no part. -/
theorem Cursor.withRest (hc : Cursor table entries vref k w) (rest : E) :
    Cursor table entries vref k { w with rest := rest } :=
  ⟨hc.table_eq, hc.directory, hc.offset, hc.le⟩

/-- A state with another position. -/
theorem Cursor.move (hc : Cursor table entries vref k w) {j : ℕ} (hj : j ≤ entries.length)
    {state : ProcState} (hnode : state.node = (w.states vref.state).node)
    (hoffset : state.offset = j * vEntrySize) :
    Cursor table entries vref j (w.put vref.state state) where
  table_eq := hc.table_eq
  directory := by
    rw [ProcWorld.put_states_self, hnode]
    exact hc.directory
  offset := by rw [ProcWorld.put_states_self, hoffset]
  le := hj

theorem Cursor.readOffset_eq (hc : Cursor table entries vref k w) :
    readOffset (w.states vref.state) = k * vEntrySize := by
  have := hc.offset
  rw [readOffset, this, if_neg (by simp only [vEntrySize]; omega)]

/-- In front of an entry that entry is copied. -/
theorem readEntry_entry (hc : Cursor table entries vref k w) (h : Surroundings E) {entry : VEntry}
    (hk : entries[k]? = some entry) :
    (readEntry h entries vref w).1 = 1 ∧ (readEntry h entries vref w).2.1 = entry ∧
      Cursor table entries vref (k + 1) (readEntry h entries vref w).2.2 := by
  have hlt := (List.getElem?_eq_some_iff.mp hk).1
  have hread := hc.readOffset_eq
  have hbytes : cMin ((vEntrySize : ℤ) * entries.length - k * vEntrySize) vEntrySize =
      vEntrySize := by
    have hsize : (vEntrySize : ℤ) = 268 := rfl
    rw [hsize, cMin, if_neg (by omega)]
  refine ⟨?_, ?_, ?_⟩
  · simp only [readEntry, procSread, hread, hbytes]
    decide
  · have hmod : (k * vEntrySize : ℤ) % vEntrySize = 0 := Int.mul_emod_left _ _
    have hdiv : ((k * vEntrySize : ℤ) / vEntrySize).toNat = k := by
      rw [Int.mul_ediv_cancel _ (by decide), Int.toNat_natCast]
    simp only [readEntry, hread, hmod, if_true, hdiv, List.getD_eq_getElem?_getD, hk,
      Option.getD_some]
  · refine hc.move hlt rfl ?_
    simp only [procSread, hread, hbytes]
    push_cast
    rw [Int.add_mul, Int.one_mul]

/-- At the end nothing is copied. -/
theorem readEntry_end (hc : Cursor table entries vref k w) (h : Surroundings E)
    (hk : k = entries.length) :
    (readEntry h entries vref w).1 = 0 ∧
      Cursor table entries vref k (readEntry h entries vref w).2.2 := by
  have hread := hc.readOffset_eq
  have hbytes : cMin ((vEntrySize : ℤ) * entries.length - k * vEntrySize) vEntrySize = 0 := by
    have hsize : (vEntrySize : ℤ) = 268 := rfl
    rw [hsize, cMin, if_pos (by omega)]
    omega
  refine ⟨?_, ?_⟩
  · simp only [readEntry, procSread, hread, hbytes]
    decide
  · refine hc.move hc.le rfl ?_
    simp only [procSread, hread, hbytes, add_zero]

/-- `procfs_list` reads an entry of the listing of its directory. -/
theorem procfsList_eq (hc : Cursor table entries vref k w) (h : Surroundings E) :
    ∃ w', Cursor table entries vref k w' ∧
      (procfsList h vref w).1 = (readEntry h entries vref w').1 ∧
      (procfsList h vref w).2.1 = (readEntry h entries vref w').2.1 ∧
      ∃ rest, (procfsList h vref w).2.2 = { (readEntry h entries vref w').2.2 with rest := rest } := by
  have hdir := hc.directory
  cases hnode : (w.states vref.state).node with
  | root =>
      rw [hnode] at hdir
      have heq : rootEntries w.table = entries := by
        rw [hc.table_eq]
        exact Option.some.inj hdir
      refine ⟨{ w with rest := (h.kmalloc w.rest).2 }, hc.withRest _, ?_⟩
      rw [procfsList, hnode, ← heq]
      exact ⟨rfl, rfl, _, rfl⟩
  | proc =>
      rw [hnode] at hdir
      rw [procfsList, hnode, ← Option.some.inj hdir]
      rw [← Option.some.inj hdir] at hc
      exact ⟨w, hc, rfl, rfl, _, rfl⟩
  | fd =>
      rw [hnode] at hdir
      rw [procfsList, hnode, ← Option.some.inj hdir]
      rw [← Option.some.inj hdir] at hc
      exact ⟨w, hc, rfl, rfl, _, rfl⟩
  | exe =>
      rw [hnode] at hdir
      cases hdir
  | cwd =>
      rw [hnode] at hdir
      cases hdir
  | self =>
      rw [hnode] at hdir
      cases hdir

end Cursor

/-! ## One call -/

section Calls

variable {ops : ℕ → DirectoryOps (ProcWorld E)} {h : Surroundings E} {proc : ℕ}
  {table : ProcessTable} {entries : List VEntry} {vref : VRef} {k : ℕ} {w : ProcWorld E}
  (garbage : VEntry)

theorem vfsList_entry (hops : ops proc = procfsDirectory h) (hdriver : vref.driver = some proc)
    (hc : Cursor table entries vref k w) {entry : VEntry} (hk : entries[k]? = some entry) :
    (vfsList ops vref garbage w).1 = 1 ∧ (vfsList ops vref garbage w).2.1 = entry ∧
      Cursor table entries vref (k + 1) (vfsList ops vref garbage w).2.2 := by
  obtain ⟨w', hc', hcount, hentry, rest, hworld⟩ := procfsList_eq hc h
  obtain ⟨hone, hread, hnext⟩ := readEntry_entry hc' h hk
  have heq : vfsList ops vref garbage w = procfsList h vref w := by
    simp only [vfsList, hdriver, hops]
    rfl
  rw [heq, hcount, hentry, hworld]
  exact ⟨hone, hread, hnext.withRest rest⟩

theorem vfsList_end (hops : ops proc = procfsDirectory h) (hdriver : vref.driver = some proc)
    (hc : Cursor table entries vref k w) (hk : k = entries.length) :
    (vfsList ops vref garbage w).1 = 0 ∧
      Cursor table entries vref k (vfsList ops vref garbage w).2.2 := by
  obtain ⟨w', hc', hcount, _, rest, hworld⟩ := procfsList_eq hc h
  obtain ⟨hzero, hnext⟩ := readEntry_end hc' h hk
  have heq : vfsList ops vref garbage w = procfsList h vref w := by
    simp only [vfsList, hdriver, hops]
    rfl
  rw [heq, hcount, hworld]
  exact ⟨hzero, hnext.withRest rest⟩

/-- The driver lists what is left. -/
theorem lists_of_cursor (hops : ops proc = procfsDirectory h) (hdriver : vref.driver = some proc) :
    ∀ {n k : ℕ} {w : ProcWorld E}, Cursor table entries vref k w → k + n = entries.length →
      Lists ops vref garbage w (entries.drop k)
  | 0, k, w, hc, hn => by
      rw [List.drop_of_length_le (by omega)]
      exact .done (vfsList_end garbage hops hdriver hc (by omega)).1
  | n + 1, k, w, hc, hn => by
      have hlt : k < entries.length := by omega
      obtain ⟨hone, hentry, hnext⟩ := vfsList_entry garbage hops hdriver hc
        (List.getElem?_eq_getElem hlt)
      have hrest := lists_of_cursor hops hdriver (n := n) hnext (by omega)
      have := Lists.more (by rw [hone]; decide) hrest
      rw [hentry] at this
      rwa [List.drop_eq_getElem_cons hlt]

theorem afterLists_cursor (hops : ops proc = procfsDirectory h)
    (hdriver : vref.driver = some proc) :
    ∀ {n k : ℕ} {w : ProcWorld E}, Cursor table entries vref k w →
      Cursor table entries vref (min (k + n) entries.length) (afterLists ops vref garbage n w)
  | 0, k, w, hc => by
      have := hc.le
      rw [Nat.add_zero, Nat.min_eq_left this]
      exact hc
  | n + 1, k, w, hc => by
      rw [afterLists]
      by_cases hk : k = entries.length
      · obtain ⟨_, hnext⟩ := vfsList_end garbage hops hdriver hc hk
        have := afterLists_cursor hops hdriver (n := n) hnext
        have hmin : min (k + (n + 1)) entries.length = min (k + n) entries.length := by omega
        rwa [hmin]
      · have hlt : k < entries.length := by
          have := hc.le
          omega
        obtain ⟨_, _, hnext⟩ := vfsList_entry garbage hops hdriver hc
          (List.getElem?_eq_getElem hlt)
        have := afterLists_cursor hops hdriver (n := n) hnext
        have hsum : k + 1 + n = k + (n + 1) := by omega
        rwa [hsum] at this

/-- A call leaves the position behind the entries it consumed. -/
theorem worldAfter_cursor (hops : ops proc = procfsDirectory h) (hdriver : vref.driver = some proc)
    (hfit : ProcessesFit table) (hc : Cursor table entries vref k w) {n : ℕ}
    (hn : k + n ≤ entries.length) :
    Cursor table entries vref (k + n) (worldAfter ops vref garbage w (entries.drop k) n) := by
  have hafter := afterLists_cursor garbage hops hdriver hc (n := n + 1)
  rw [worldAfter, List.getElem?_drop]
  cases hentry : entries[k + n]? with
  | none =>
      have := List.getElem?_eq_none_iff.mp hentry
      have hmin : min (k + (n + 1)) entries.length = k + n := by omega
      rwa [hmin] at hafter
  | some entry =>
      -- the entry that was read too much is put back
      have hseek := listing_seekOffset hc.directory hentry
      have hlen := listing_length hfit hc.directory
      have hint : toInt entry.seekOffset = (k + n : ℕ) * vEntrySize := by
        have hsize : vEntrySize = 268 := rfl
        have hsmall : (k + n) * vEntrySize < 2 ^ 31 := by
          rw [hsize]
          omega
        rw [hseek, toInt, Nat.mod_eq_of_lt (by omega), if_pos hsmall,
          Int.emod_eq_of_lt (Int.natCast_nonneg _) (by omega)]
        exact Int.natCast_mul _ _
      have heq : ∀ w', (vfsSeek ops vref (toInt entry.seekOffset) w').2 =
          w'.put vref.state { w'.states vref.state with offset := (k + n : ℕ) * vEntrySize } := by
        intro w'
        simp only [vfsSeek, hdriver, hops, hint]
        rfl
      simp only [heq]
      exact hafter.move hn rfl rfl

end Calls

/-! ## Lengths of the names -/

theorem uintToStrLoop_length (base : ℕ) :
    ∀ (room num : ℕ) (buffer : CString),
      (uintToStrLoop base room num buffer).2.length ≤ room + buffer.length
  | 0, _, _ => by
      rw [uintToStrLoop, Nat.zero_add]
  | room + 1, num, buffer => by
      rw [uintToStrLoop]
      split
      · have := uintToStrLoop_length base room (num / base) (digit (num % base) :: buffer)
        rw [List.length_cons] at this
        omega
      · exact Nat.le_add_left _ _

theorem uintToStr_length (num bufferSize base : ℕ) :
    (uintToStr num bufferSize base).length ≤ bufferSize + 1 := by
  rw [uintToStr]
  split
  · simp
  · have := uintToStrLoop_length base (bufferSize - 1) num []
    dsimp only
    split
    · simp
    · rw [List.length_nil] at this
      omega

theorem numbered_nameLength {entries : List EntryData} {bound : ℕ}
    (h : ∀ entry ∈ entries, entry.2.1 < bound) : ∀ e ∈ numbered entries, e.nameLength < bound := by
  intro e he
  obtain ⟨x, hx, rfl⟩ := List.mem_map.mp he
  apply h x.1
  obtain ⟨_, _, heq⟩ := List.mem_zipIdx hx
  rw [heq]
  exact List.getElem_mem _

theorem listing_nameLength {table : ProcessTable} {node : ProcNode} {entries : List VEntry}
    (h : listing table node = some entries) : ∀ e ∈ entries, e.nameLength < fileMaxName := by
  cases node with
  | root =>
      rw [← Option.some.inj h, rootEntries]
      apply numbered_nameLength
      intro entry hentry
      rcases List.mem_append.mp hentry with hfixed | hpid
      · clear hentry
        revert entry
        decide
      · obtain ⟨pid, _, rfl⟩ := List.mem_map.mp hpid
        have := uintToStr_length pid 16 10
        rw [fileMaxName]
        dsimp only
        omega
  | proc =>
      rw [← Option.some.inj h]
      decide
  | fd =>
      rw [← Option.some.inj h]
      decide
  | exe => cases h
  | cwd => cases h
  | self => cases h

/-! ## Sequences of calls -/

/-- The directory calls. -/
inductive DirectoryCall
  | getdents
  | getdents64
  | oldReaddir

/-- A call with the buffer it is given. -/
structure ListingCall where
  call : DirectoryCall
  buffer : ℕ → UInt8
  size : ℕ

/-- Make a call. -/
def ListingCall.run (ops : ℕ → DirectoryOps (ProcWorld E)) (garbage : VEntry) (fd : ℕ)
    (c : ListingCall) (w : ProcWorld E) : Option (Listed (ProcWorld E)) :=
  match c.call with
  | .getdents => sysGetdents ops w.table garbage fd c.buffer c.size w
  | .getdents64 => sysGetdents64 ops w.table garbage fd c.buffer c.size w
  | .oldReaddir => sysOldReaddir ops w.table garbage fd c.buffer c.size w

/-- Make calls one after the other. -/
def runCalls (ops : ℕ → DirectoryOps (ProcWorld E)) (garbage : VEntry) (fd : ℕ) :
    List ListingCall → ProcWorld E → Option (List (Listed (ProcWorld E)))
  | [], _ => some []
  | c :: calls, w => do
      let ret ← c.run ops garbage fd w
      let rets ← runCalls ops garbage fd calls ret.world
      some (ret :: rets)

/-- The calls resume: when the entries `done` were consumed before, a call
consumes the ones behind them; refused for lack of room it leaves the position
where it was; and at the end of the listing it returns zero. -/
def Resumes (entries : List VEntry) (vref : VRef) :
    List VEntry → ProcWorld E → List (Listed (ProcWorld E)) → Prop
  | _, _, [] => True
  | done, w, ret :: rets =>
      done ++ ret.consumed <+: entries ∧
      (ret.res = -linuxEinval →
        (ret.world.states vref.state).offset = (w.states vref.state).offset) ∧
      (done = entries → ret.res = 0) ∧
      Resumes entries vref (done ++ ret.consumed) ret.world rets

section Sequences

variable {ops : ℕ → DirectoryOps (ProcWorld E)} {h : Surroundings E} {proc : ℕ}
  {table : ProcessTable} {entries : List VEntry} {vref : VRef} (garbage : VEntry) {fd : ℕ}

/-- One call goes on from the position and leaves it behind what it consumed. -/
theorem run_cursor (hops : ops proc = procfsDirectory h) (hdriver : vref.driver = some proc)
    (hfit : ProcessesFit table) (hfd : fdResolve table (toInt fd) = some vref) {k : ℕ}
    {w : ProcWorld E} (hc : Cursor table entries vref k w) (c : ListingCall) :
    ∃ ret, c.run ops garbage fd w = some ret ∧ ret.consumed <+: entries.drop k ∧
      Cursor table entries vref (k + ret.consumed.length) ret.world ∧
      (ret.res = -linuxEinval → ret.consumed = []) ∧ (k = entries.length → ret.res = 0) := by
  have hlists : Lists ops vref garbage w (entries.drop k) :=
    lists_of_cursor garbage hops hdriver (n := entries.length - k) hc (by have := hc.le; omega)
  have hnames : ∀ e ∈ entries.drop k, e.nameLength < fileMaxName :=
    fun e he => listing_nameLength hc.directory e (List.mem_of_mem_drop he)
  have hgeneral : ∀ f : RecordFormat, f.Sized →
      ∃ ret, sysListing f ops w.table garbage fd c.buffer c.size w = some ret ∧
        ret.consumed <+: entries.drop k ∧
        Cursor table entries vref (k + ret.consumed.length) ret.world ∧
        (ret.res = -linuxEinval → ret.consumed = []) ∧ (k = entries.length → ret.res = 0) := by
    intro f hf
    have hsub := fitting_prefix f (toInt c.size) 0 (entries.drop k)
    rw [hc.table_eq]
    refine ⟨_, sysListing_eq hf hfd hlists hnames c.buffer c.size, hsub, ?_, ?_, ?_⟩
    · apply worldAfter_cursor garbage hops hdriver hfit hc
      have hlen := hsub.length_le
      rw [List.length_drop] at hlen
      have hle := hc.le
      change k + (fitting f (toInt c.size) 0 (entries.drop k)).length ≤ entries.length
      omega
    · intro hres
      by_contra hne
      have hnonneg : 0 ≤ recordBytes f (fitting f (toInt c.size) 0 (entries.drop k)) := by
        apply recordBytes_nonneg
        intro e he
        have := hf.header _ (hnames e (hsub.subset he))
        omega
      have hreturned := (returned_of_ne_nil (f := f) (entries.drop k) hne).symm.trans hres
      change recordBytes f (fitting f (toInt c.size) 0 (entries.drop k)) = -linuxEinval at hreturned
      rw [hreturned] at hnonneg
      exact absurd hnonneg (by decide)
    · intro hk
      have hnil : entries.drop k = [] := List.drop_of_length_le (Nat.le_of_eq hk.symm)
      rw [hnil]
      rfl
  unfold ListingCall.run
  cases c.call with
  | getdents => exact hgeneral _ getdentsFormat_sized
  | getdents64 => exact hgeneral _ getdents64Format_sized
  | oldReaddir => exact hgeneral _ oldReaddirFormat_sized

theorem runCalls_cursor (hops : ops proc = procfsDirectory h) (hdriver : vref.driver = some proc)
    (hfit : ProcessesFit table) (hfd : fdResolve table (toInt fd) = some vref) :
    ∀ (calls : List ListingCall) {k : ℕ} {w : ProcWorld E}, Cursor table entries vref k w →
      ∃ rets, runCalls ops garbage fd calls w = some rets ∧
        entries.take k ++ (rets.map Listed.consumed).flatten <+: entries ∧
        Resumes entries vref (entries.take k) w rets
  | [], k, w, _ => by
      refine ⟨[], rfl, ?_, trivial⟩
      rw [List.map_nil, List.flatten_nil, List.append_nil]
      exact List.take_prefix _ _
  | c :: calls, k, w, hc => by
      obtain ⟨ret, hret, hprefix, hnext, hrefused, hend⟩ :=
        run_cursor garbage hops hdriver hfit hfd hc c
      obtain ⟨rets, hrets, hall, hresumes⟩ := runCalls_cursor hops hdriver hfit hfd calls hnext
      -- what was consumed so far is what lies in front of the position
      have htake : entries.take k ++ ret.consumed = entries.take (k + ret.consumed.length) := by
        obtain ⟨rest, hrest⟩ := hprefix
        rw [List.take_add, ← hrest, List.take_left]
      rw [← htake] at hall hresumes
      refine ⟨ret :: rets, ?_, ?_, ?_, ?_, ?_, hresumes⟩
      · simp [runCalls, hret, hrets]
      · rw [List.map_cons, List.flatten_cons, ← List.append_assoc]
        exact hall
      · rw [htake]
        exact List.take_prefix _ _
      · intro hres
        rw [hnext.offset, hc.offset, hrefused hres]
        rfl
      · intro hdone
        apply hend
        have hlen := congrArg List.length hdone
        rw [List.length_take] at hlen
        have := hc.le
        omega

end Sequences

end Neos.Procfs
