import Mathlib.Algebra.Ring.Int.Defs
import Neos.Library.ByteRange
import Neos.Syscall.Model
import Neos.Vfs.Directory

/-!
# The directory calls of `syscall.c`

`sys_getdents`, `sys_getdents64` and `sys_old_readdir` copy the entries of a
listing into the caller's buffer, one record after the other, until the listing
ends or the next record does not fit; the entry that did not fit is put back by
seeking to its offset.  The three calls differ in the layout of a record only.
The buffer is seen from its first byte on.
-/

namespace Neos.Syscall

open Vfs Scheduler ByteRange

/-- `LINUX_EINVAL`. -/
def linuxEinval : ℤ := 22

/-- What a directory call leaves behind.  The entries whose records were written
are kept beside it. -/
structure Listed (W : Type) where
  res : ℤ
  buffer : ℕ → UInt8
  world : W
  consumed : List VEntry

/-- The sizes a call computes from the length of a name, and the record it
writes at a position of the buffer. -/
structure RecordFormat where
  required : ℕ → ℤ
  advance : ℕ → ℤ
  write : (ℕ → UInt8) → ℕ → VEntry → ℕ → UInt8

/-- `entry.name` as `memcpy` copies it. -/
def nameBytes (entry : VEntry) : List UInt8 :=
  (List.range entry.nameLength).map (charAt entry.name)

/-- The fields of the two structures with 32-bit members: the inode number at 0,
the offset at 4, a length at 8 and the name at 10. -/
def writeFields (buffer : ℕ → UInt8) (p : ℕ) (entry : VEntry) (length : ℕ) : ℕ → UInt8 :=
  let buffer := writeBytes buffer p (leBytes 4 0)
  let buffer := writeBytes buffer (p + 4) (leBytes 4 entry.seekOffset)
  let buffer := writeBytes buffer (p + 8) (leBytes 2 length)
  writeBytes buffer (p + 10) (nameBytes entry)

/-- `sys_getdents`; `sizeof (struct linux_dirent)` is 12. -/
def getdentsFormat : RecordFormat where
  required len := toInt (12 + len + 2)
  advance len := ((12 + len + 2) % 2 ^ 16 : ℕ)
  write buffer p entry :=
    let buffer := writeFields buffer p entry (12 + entry.nameLength + 2)
    -- the extension: one and two bytes behind the end of the name
    let buffer := writeBytes buffer (p + 10 + (entry.nameLength + 1)) [0]
    writeBytes buffer (p + 10 + (entry.nameLength + 2)) [entry.type.code]

/-- `sys_getdents64`.  `d_ino`, `d_off`, `d_reclen`, `d_type` and `d_name` lie at
0, 8, 16, 18 and 19, and `sizeof (struct linux_dirent64)` is 20; the length
stored and added is computed with the other structure. -/
def getdents64Format : RecordFormat where
  required len := toInt (20 + len)
  advance len := ((12 + len) % 2 ^ 16 : ℕ)
  write buffer p entry :=
    let buffer := writeBytes buffer p (leBytes 8 0)
    let buffer := writeBytes buffer (p + 8) (leBytes 8 entry.seekOffset)
    let buffer := writeBytes buffer (p + 16) (leBytes 2 (12 + entry.nameLength))
    let buffer := writeBytes buffer (p + 18) [entry.type.code]
    writeBytes buffer (p + 19) (nameBytes entry)

/-- `sys_old_readdir`; `sizeof (struct old_linux_dirent)` is 12. -/
def oldReaddirFormat : RecordFormat where
  required len := toInt (12 + len)
  advance len := 12 + len
  write buffer p entry := writeFields buffer p entry entry.nameLength

variable {W : Type}

/-- The loop of the three calls.  Every record takes up room, so it ends. -/
def dirLoop (f : RecordFormat) (ops : ℕ → DirectoryOps W) (vref : VRef) (garbage : VEntry)
    (size : ℕ) : ℕ → ℤ → (ℕ → UInt8) → W → List VEntry → Option (Listed W)
  | 0, _, _, _, _ => none
  | fuel + 1, bytes, buffer, w, consumed =>
      let listed := vfsList ops vref garbage w
      let count := listed.1
      let entry := listed.2.1
      let w := listed.2.2
      if count = 0 then some ⟨bytes, buffer, w, consumed⟩
      else if count < 0 then some ⟨count, buffer, w, consumed⟩
      else
        let left := wrapInt (size - bytes)
        if left < f.required entry.nameLength then
          -- undo the last call
          let w := (vfsSeek ops vref (toInt entry.seekOffset) w).2
          some ⟨if bytes = 0 then -linuxEinval else bytes, buffer, w, consumed⟩
        else
          dirLoop f ops vref garbage size fuel (wrapInt (bytes + f.advance entry.nameLength))
            (f.write buffer bytes.toNat entry) w (consumed ++ [entry])

/-- A directory call with a given layout. -/
def sysListing (f : RecordFormat) (ops : ℕ → DirectoryOps W) (s : ProcessTable) (garbage : VEntry)
    (fd : ℕ) (buffer : ℕ → UInt8) (size : ℕ) (w : W) : Option (Listed W) :=
  match fdResolve s (toInt fd) with
  | none => some ⟨-linuxEbadf, buffer, w, []⟩
  | some vref => dirLoop f ops vref garbage size (size + 1) 0 buffer w []

/-- `sys_getdents`. -/
def sysGetdents (ops : ℕ → DirectoryOps W) (s : ProcessTable) (garbage : VEntry) (fd : ℕ)
    (buffer : ℕ → UInt8) (size : ℕ) (w : W) : Option (Listed W) :=
  sysListing getdentsFormat ops s garbage fd buffer size w

/-- `sys_getdents64`. -/
def sysGetdents64 (ops : ℕ → DirectoryOps W) (s : ProcessTable) (garbage : VEntry) (fd : ℕ)
    (buffer : ℕ → UInt8) (size : ℕ) (w : W) : Option (Listed W) :=
  sysListing getdents64Format ops s garbage fd buffer size w

/-- `sys_old_readdir`. -/
def sysOldReaddir (ops : ℕ → DirectoryOps W) (s : ProcessTable) (garbage : VEntry) (fd : ℕ)
    (buffer : ℕ → UInt8) (size : ℕ) (w : W) : Option (Listed W) :=
  sysListing oldReaddirFormat ops s garbage fd buffer size w

/-! ## A run of the loop -/

/-- The entries a directory still has to offer, as its driver lists them. -/
inductive Lists (ops : ℕ → DirectoryOps W) (vref : VRef) (garbage : VEntry) :
    W → List VEntry → Prop
  | done {w : W} (h : (vfsList ops vref garbage w).1 = 0) : Lists ops vref garbage w []
  | more {w : W} {entries : List VEntry} (h : 0 < (vfsList ops vref garbage w).1)
      (hrest : Lists ops vref garbage (vfsList ops vref garbage w).2.2 entries) :
      Lists ops vref garbage w ((vfsList ops vref garbage w).2.1 :: entries)

/-- An entry with a name that fits its buffer and a length that is that of the
name. -/
structure Named (entry : VEntry) : Prop where
  pos : 0 < entry.name.length
  short : entry.name.length < fileMaxName
  length : entry.nameLength = entry.name.length
  string : ∀ c ∈ entry.name, c ≠ 0
  seek : entry.seekOffset < 2 ^ 32

/-- The entries that fit, one record behind the other, into a buffer of which
`bytes` bytes are taken. -/
def fitting (f : RecordFormat) (room : ℤ) : ℤ → List VEntry → List VEntry
  | _, [] => []
  | bytes, entry :: entries =>
      if room - bytes < f.required entry.nameLength then []
      else entry :: fitting f room (bytes + f.advance entry.nameLength) entries

/-- The bytes the records of a list of entries take up. -/
def recordBytes (f : RecordFormat) (entries : List VEntry) : ℤ :=
  (entries.map fun entry => f.advance entry.nameLength).sum

/-- Write the records of a list of entries one behind the other. -/
def writeRecords (f : RecordFormat) : (ℕ → UInt8) → ℤ → List VEntry → ℕ → UInt8
  | buffer, _, [] => buffer
  | buffer, bytes, entry :: entries =>
      writeRecords f (f.write buffer bytes.toNat entry) (bytes + f.advance entry.nameLength) entries

/-- The sizes of a format: a record has a header, and the room that is asked for
is enough for what is added. -/
structure RecordFormat.Sized (f : RecordFormat) : Prop where
  header : ∀ len < fileMaxName, 12 ≤ f.advance len
  enough : ∀ len < fileMaxName, f.advance len ≤ f.required len

theorem getdentsFormat_sized : getdentsFormat.Sized where
  header len h := by
    rw [fileMaxName] at h
    simp only [getdentsFormat]
    omega
  enough len h := by
    rw [fileMaxName] at h
    simp only [getdentsFormat, toInt]
    rw [if_pos (by omega)]
    omega

theorem getdents64Format_sized : getdents64Format.Sized where
  header len h := by
    rw [fileMaxName] at h
    simp only [getdents64Format]
    omega
  enough len h := by
    rw [fileMaxName] at h
    simp only [getdents64Format, toInt]
    rw [if_pos (by omega)]
    omega

theorem oldReaddirFormat_sized : oldReaddirFormat.Sized where
  header len h := by
    simp only [oldReaddirFormat]
    omega
  enough len h := by
    rw [fileMaxName] at h
    simp only [oldReaddirFormat, toInt]
    rw [if_pos (by omega)]
    omega

theorem toInt_le (n : ℕ) : toInt n ≤ n := by
  rw [toInt]
  split <;> omega

/-- The room left is computed in unsigned arithmetic and comes out right. -/
theorem wrapInt_size_sub {size : ℕ} {bytes : ℤ}
    (h : -2 ^ 31 ≤ toInt size - bytes ∧ toInt size - bytes < 2 ^ 31) :
    wrapInt (size - bytes) = toInt size - bytes := by
  rw [← wrapInt_of_fits h.1 h.2]
  have : ((size : ℤ) - bytes) % 2 ^ 32 = (toInt size - bytes) % 2 ^ 32 := by
    rw [toInt]
    split <;> omega
  rw [wrapInt, wrapInt, toWord, toWord, this]

/-- The world after a number of calls of `vfs_list`. -/
def afterLists (ops : ℕ → DirectoryOps W) (vref : VRef) (garbage : VEntry) : ℕ → W → W
  | 0, w => w
  | n + 1, w => afterLists ops vref garbage n (vfsList ops vref garbage w).2.2

/-- The world a call leaves behind when some of the entries were consumed: the
listing was found at its end, or the entry behind them was put back. -/
def worldAfter (ops : ℕ → DirectoryOps W) (vref : VRef) (garbage : VEntry) (w : W)
    (entries : List VEntry) (consumed : ℕ) : W :=
  let w := afterLists ops vref garbage (consumed + 1) w
  match entries[consumed]? with
  | none => w
  | some entry => (vfsSeek ops vref (toInt entry.seekOffset) w).2

/-- What a call returns: the bytes written, or an error when there were entries
and the first one did not fit. -/
def returned (bytes : ℤ) (entries consumed : List VEntry) (f : RecordFormat) : ℤ :=
  if bytes = 0 ∧ consumed = [] ∧ entries ≠ [] then -linuxEinval
  else bytes + recordBytes f consumed

theorem recordBytes_cons (f : RecordFormat) (entry : VEntry) (entries : List VEntry) :
    recordBytes f (entry :: entries) = f.advance entry.nameLength + recordBytes f entries := by
  rw [recordBytes, List.map_cons, List.sum_cons]
  rfl

theorem recordBytes_nonneg {f : RecordFormat} :
    ∀ {entries : List VEntry}, (∀ e ∈ entries, 0 ≤ f.advance e.nameLength) →
      0 ≤ recordBytes f entries
  | [], _ => Int.le_refl 0
  | entry :: entries, h => by
      rw [recordBytes_cons]
      exact Int.add_nonneg (h entry List.mem_cons_self)
        (recordBytes_nonneg fun e he => h e (List.mem_cons_of_mem _ he))

/-- The loop consumes the entries that fit. -/
theorem dirLoop_eq {f : RecordFormat} (hf : f.Sized) {ops : ℕ → DirectoryOps W} {vref : VRef}
    {garbage : VEntry} {size : ℕ} :
    ∀ {fuel : ℕ} {bytes : ℤ} {buffer : ℕ → UInt8} {w : W} {consumed entries : List VEntry},
      Lists ops vref garbage w entries → (∀ e ∈ entries, e.nameLength < fileMaxName) →
      0 ≤ bytes → (bytes = 0 ∨ bytes ≤ toInt size) → (size : ℤ) < bytes + fuel →
      dirLoop f ops vref garbage size fuel bytes buffer w consumed =
        some ⟨returned bytes entries (fitting f (toInt size) bytes entries) f,
          writeRecords f buffer bytes (fitting f (toInt size) bytes entries),
          worldAfter ops vref garbage w entries (fitting f (toInt size) bytes entries).length,
          consumed ++ fitting f (toInt size) bytes entries⟩
  | 0, bytes, _, _, _, _, _, _, hpos, hroom, hfuel => by
      have := toInt_le size
      rcases hroom with rfl | hroom <;> omega
  | fuel + 1, bytes, buffer, w, consumed, _, hlists, hnames, hpos, hroom, hfuel => by
      cases hlists with
      | done hcount =>
          rw [dirLoop]
          simp [hcount, fitting, returned, writeRecords, worldAfter, afterLists, recordBytes]
      | @more _ entries hcount hrest =>
          have hlen := hnames _ List.mem_cons_self
          have hheader := hf.header _ hlen
          have henough := hf.enough _ hlen
          have hbounds := toInt_bounds size
          have hleft : wrapInt (size - bytes) = toInt size - bytes := by
            apply wrapInt_size_sub
            rcases hroom with rfl | hroom <;> omega
          rw [dirLoop]
          simp only [hleft, fitting]
          rw [if_neg (by omega), if_neg (by omega)]
          by_cases hfull : toInt size - bytes < f.required (vfsList ops vref garbage w).2.1.nameLength
          · simp [hfull, returned, writeRecords, worldAfter, afterLists, recordBytes]
          · have hnext : wrapInt (bytes + f.advance (vfsList ops vref garbage w).2.1.nameLength) =
                bytes + f.advance (vfsList ops vref garbage w).2.1.nameLength :=
              wrapInt_of_fits (by omega) (by omega)
            rw [if_neg hfull, if_neg hfull, hnext,
              dirLoop_eq hf hrest (fun e he => hnames e (List.mem_cons_of_mem _ he)) (by omega)
                (Or.inr (by omega)) (by push_cast at hfuel; omega)]
            have hne : bytes + f.advance (vfsList ops vref garbage w).2.1.nameLength ≠ 0 := by
              omega
            simp [returned, writeRecords, worldAfter, afterLists, recordBytes_cons, hne, add_assoc]

theorem fitting_prefix (f : RecordFormat) (room : ℤ) :
    ∀ (bytes : ℤ) (entries : List VEntry), fitting f room bytes entries <+: entries
  | _, [] => List.nil_prefix
  | bytes, entry :: entries => by
      rw [fitting]
      split
      · exact List.nil_prefix
      · exact List.cons_prefix_cons.mpr ⟨rfl, fitting_prefix f room _ entries⟩

section Calls

variable {ops : ℕ → DirectoryOps W} {s : ProcessTable} {garbage : VEntry} {fd : ℕ} {vref : VRef}
  {w : W} {entries : List VEntry} {f : RecordFormat}

/-- A directory call writes the records of the entries that fit. -/
theorem sysListing_eq (hf : f.Sized) (hfd : fdResolve s (toInt fd) = some vref)
    (hlists : Lists ops vref garbage w entries)
    (hnames : ∀ e ∈ entries, e.nameLength < fileMaxName) (buffer : ℕ → UInt8) (size : ℕ) :
    sysListing f ops s garbage fd buffer size w =
      some ⟨returned 0 entries (fitting f (toInt size) 0 entries) f,
        writeRecords f buffer 0 (fitting f (toInt size) 0 entries),
        worldAfter ops vref garbage w entries (fitting f (toInt size) 0 entries).length,
        fitting f (toInt size) 0 entries⟩ := by
  rw [sysListing, hfd]
  exact dirLoop_eq hf hlists hnames (Int.le_refl 0) (Or.inl rfl) (by push_cast; omega)

theorem returned_of_ne_nil (entries : List VEntry) {consumed : List VEntry} (h : consumed ≠ []) :
    returned 0 entries consumed f = recordBytes f consumed := by
  rw [returned, if_neg (by simp [h]), Int.zero_add]

theorem returned_nil_nonpos (entries : List VEntry) (f : RecordFormat) : returned 0 entries [] f ≤ 0 := by
  rw [returned]
  split
  · decide
  · simp [recordBytes]

end Calls

/-- A running process with one open file. -/
def oneFile : ProcessTable where
  generalProcessTable _ := ⟨true, 0, 0, .runnable, 0, 0, 0, vfsRoot, vfsRoot, 0, 0⟩
  processCount := 1
  processTableSize := 2
  processRunning := 0
  filesAt _ _ := ⟨0, 0, some 1, 0⟩
  fileExistsAt _ i := i = 0
  freed := []

end Neos.Syscall
