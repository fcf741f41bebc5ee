import Neos.Fat.Frames
import Neos.Fat.LongNames

/-!
# Opening and creating files

`fat_opendir` and `fat_fopen` look a path up; `fat_fopen` also creates a missing
file, or truncates an existing one.  `fat_create` makes an 8.3 name, looks for
free slots in the parent directory, extending it if need be, and allocates the
first cluster.
-/

namespace Neos.Fat

open ByteRange

/-! ## Names -/

/-- The lower case letters as `fat_create` makes them large. -/
def toUppercase (c : UInt8) : UInt8 := if 0x61 ≤ c ∧ c ≤ 0x7A then c - 0x20 else c

/-- The last place of a byte. -/
def lastIndex (c : UInt8) (path : List UInt8) : Option ℕ :=
  (List.range path.length).reverse.find? fun i => path.getD i 0 = c

/-- The digits of `fat_itoa` in front of those found so far. -/
def itoaLoop (base : ℕ) : ℕ → ℕ → List UInt8 → List UInt8
  | 0, _, digits => digits
  | rounds + 1, value, digits =>
      if value = 0 then digits
      else
        let digit := value % base
        let char := if digit < 10 then 0x30 + digit else 0x41 + digit - 10
        itoaLoop base rounds (value / base) (UInt8.ofNat char :: digits)

/-- `fat_itoa`; 32 rounds are enough for every `unsigned int`. -/
def fatItoa (value base : ℕ) : List UInt8 :=
  if value = 0 then [0x30] else itoaLoop base 32 value []

/-- Assign bytes of the entry from an offset on. -/
def DirEntry.setBytes (e : DirEntry) (offset : ℕ) (bytes : List UInt8) : DirEntry :=
  .ofBuffer (writeBytes e.buffer offset bytes)

/-- Characters for a field of an 8.3 name, padded with blanks. -/
def padName (n : ℕ) (chars : List UInt8) : List UInt8 :=
  (chars.map toUppercase).take n ++ List.replicate (n - chars.length) 0x20

/-- The parts of a file name in front of its last dot and behind it. -/
def splitName (name : List UInt8) : List UInt8 × List UInt8 :=
  let dotPosition := (lastIndex 0x2E name).getD name.length
  (name.take dotPosition, name.drop (dotPosition + 1))

/-- In `fat_create`, the handle on the new file before it has a place: its
attributes, its 8.3 name and its long name. -/
def freshFile (name : List UInt8) (attributes : UInt8) : Option FatFile := do
  let (base, extension) := splitName name
  let fatDir := (DirEntry.zero.setField 11 1 attributes.toNat).setBytes 0
    (padName 8 base ++ padName 3 extension)
  let longFilename ← fatStringToLongname name fatFileDefault.longFilename
  return { fatFileDefault with
    fatDir := fatDir
    lfnPresent := 8 < base.length ∨ 3 < extension.length
    longFilename := longFilename }

/-- `helper_path`: the 8.3 name of an entry with a dot, blanks included. -/
def helperPath (e : DirEntry) : List UInt8 :=
  e.bytes.take 8 ++ 0x2E :: ((e.bytes.drop 8).take 3).takeWhile (· ≠ 0x20)

/-- The loop of `fat_create` that numbers the 8.3 name until no file has it. -/
def repeatLoop (g : Bpb) :
    ℕ → ℕ → DirEntry → FatFile → State → Option (DirEntry × FatFile × State)
  | 0, _, e, parentDir, s => some (e, parentDir, s)
  | rounds + 1, repeated, e, parentDir, s => do
      let digits := fatItoa repeated 10
      let e := e.setBytes (8 - digits.length - 1) (0x7E :: digits)
      let (r, s) ← fatFindFull g ⟨helperPath e, true, false, true⟩ parentDir s
      if r.found = .notFound then return (e, r.rootDir, s)
      else repeatLoop g rounds (repeated + 1) e r.rootDir s

/-! ## Directories -/

/-- `fat_opendir`. -/
def fatOpendir (g : Bpb) (rootDir : FatFile) (path : List UInt8) (s : State) :
    Option (Bool × FatFile × State) :=
  if path = [] then some (true, rootDir, s)
  else do
    let (r, s) ← fatFind g rootDir path false false s
    return (r.found ≠ .notFound, startDir { r.subdirOut with cursor := 0 }, s)

/-- The loop of `fat_create` that looks for consecutive free slots.  `helper` is what
the local variable holds; the result is the position of the last of the slots, or
`none` when the directory cannot be extended. -/
def slotLoop (g : Bpb) (requiredEntries : ℕ) :
    ℕ → ℕ → ℕ → DirEntry → FatFile → State → Option (Option ℕ × FatFile × State)
  | 0, _, _, _, _, _ => none
  | rounds + 1, dirOffset, foundEntries, helper, parentDir, s => do
      let full := u32 (dirOffset + sizeofDirEntry) > parentDir.fatDir.dirFileSize
      let (extended, helper, parentDir, s) ←
        if full then do
          let (done, parentDir, s) ← fatFwrite g DirEntry.zero.buffer sizeofDirEntry
            (fatFseekSet parentDir (dirOffset + sizeofDirEntry)) s
          some (done, DirEntry.zero, parentDir, s)
        else some (true, helper, parentDir, s)
      if extended = false then return (none, parentDir, s)
      else
        let (out, parentDir, s) ← fatFread g helper.buffer sizeofDirEntry
          (fatFseekSet parentDir dirOffset) s
        let helper := DirEntry.ofBuffer out
        if helper.dirName 0 = 0 ∨ helper.dirName 0 = 0xE5 then
          if foundEntries + 1 ≥ requiredEntries then return (some dirOffset, parentDir, s)
          else
            slotLoop g requiredEntries rounds (u32 (dirOffset + sizeofDirEntry)) (foundEntries + 1)
              helper parentDir s
        else
          slotLoop g requiredEntries rounds (u32 (dirOffset + sizeofDirEntry)) 0 helper parentDir s

/-! ## Files -/

/-- The part of `fat_create` behind the name: the slots in the parent directory, the
first cluster, and the new entry. -/
def placeFile (g : Bpb) (uninitialized : DirEntry) (nameLength : ℕ) (newFile parentDir : FatFile)
    (s : State) : Option (Bool × FatFile × State) := do
  let lfnEntries := if newFile.lfnPresent then nameLength / 13 + 1 else 0
  let (count, s) ← fatFileClusterCount g parentDir s
  let parentDir := { parentDir with
    fatDir := parentDir.fatDir.setFileSize (u32 (count * g.bytsPerSec * g.secPerClus)) }
  let (position, parentDir, s) ←
    slotLoop g (1 + lfnEntries) loopBound 0 0 uninitialized parentDir s
  match position with
  | none => return (false, newFile, s)
  | some dirOffset =>
      let newFile := { newFile with
        entryPosition := dirOffset
        firstParentCluster :=
          u32 (parentDir.fatDir.dirFstClusLO + parentDir.fatDir.dirFstClusHI * 2 ^ 16) }
      let (free, s) ← findFreeCluster g loopBound 2 (fatInvalidateCache s)
      match free with
      | none => return (false, newFile, s)
      | some freeCluster =>
          let newFile := { newFile with
            fatDir := (newFile.fatDir.setFstClusLO freeCluster).setFstClusHI
              (freeCluster >>> 16) }
          let s := fatWriteFatEntry g s freeCluster 0x0FFFFFFF
          let s := fatClearCluster g s freeCluster
          let s ← fatUpdateEntry g newFile s
          let s ← fatUpdateLfn g newFile false uninitialized s
          return (true, newFile, s)

/-- In `fat_create`, the directory that the new file goes into: whether it exists, and
the handle on it. -/
def createParent (g : Bpb) (rootDir : FatFile) (path : List UInt8) (s : State) :
    Option (Bool × FatFile × State) :=
  match lastIndex 0x2F path with
  | some (lastSlash + 1) => fatOpendir g rootDir (path.take (lastSlash + 1)) s
  | _ => some (true, rootDir, s)

/-- `fat_create`.  `newFile` is what `new_file_out` points to before, `uninitialized`
what the local `helper_dir_entry` holds. -/
def fatCreate (g : Bpb) (uninitialized : DirEntry) (newFile rootDir : FatFile)
    (path : List UInt8) (attributes : UInt8) (s : State) : Option (Bool × FatFile × State) := do
  let (opened, parentDir, s) ← createParent g rootDir path s
  if opened = false then return (false, newFile, s)
  else
    let name := path.drop ((lastIndex 0x2F path).elim 0 (· + 1))
    if name.length > 255 then
      return (false, { fatFileDefault with
        fatDir := DirEntry.zero.setField 11 1 attributes.toNat }, s)
    else
      let newFile ← freshFile name attributes
      if newFile.lfnPresent then
        let (fatDir, parentDir, s) ← repeatLoop g 999 1 newFile.fatDir parentDir s
        placeFile g uninitialized name.length { newFile with fatDir := fatDir } parentDir s
      else placeFile g uninitialized name.length newFile parentDir s

/-- `fat_create_file`. -/
def fatCreateFile (g : Bpb) (uninitialized : DirEntry) (rootDir : FatFile) (path : List UInt8)
    (attributes : UInt8) (s : State) : Option (Bool × FatFile × State) := do
  let (r, s) ← fatFind g rootDir path true false s
  if r.found ≠ .notFound then return (false, r.fileOut, s)
  else fatCreate g uninitialized r.fileOut r.rootDir path (0x20 ||| attributes) s

/-- The modes of `fat_fopen`. -/
inductive OpenMode
  | read
  | write
  | append
deriving DecidableEq

/-- The part of `fat_fopen` that truncates a file. -/
def truncateFile (g : Bpb) (file : FatFile) (s : State) : Option (FatFile × State) := do
  let file := { file with fatDir := file.fatDir.setFileSize 0 }
  let s ← fatUpdateEntry g file s
  let s ← fatRemoveFatChain g file s
  return (file, fatWriteFatEntry g s file.fatDir.dirFstClusLO 0x0FFFFFFF)

/-- `fat_fopen`: the return value and `file_out`. -/
def fatFopen (g : Bpb) (uninitialized : DirEntry) (rootDir : FatFile) (path : List UInt8)
    (mode : OpenMode) (s : State) : Option (Bool × FatFile × State) := do
  let (r, s) ← fatFind g rootDir path true false s
  match mode with
  | .read => return (r.found = .foundFile, r.fileOut, s)
  | _ =>
      match r.found with
      | .foundFile =>
          if mode = .write then do
            let (file, s) ← truncateFile g r.fileOut s
            return (true, file, s)
          else return (true, fatFseekEnd r.fileOut 0, s)
      | .notFound => fatCreateFile g uninitialized r.rootDir path 0 s
      | .foundDir => return (false, r.fileOut, s)

/-! ## Files that are not created -/

section

variable {g : Bpb} {s s' : State} {file newFile dir : FatFile} {uninitialized : DirEntry}
  {path : List UInt8}

theorem DirEntry.dirFstClusLO_setBytes (e : DirEntry) {offset : ℕ} {bytes : List UInt8}
    (h : offset + bytes.length ≤ 26) : (e.setBytes offset bytes).dirFstClusLO = e.dirFstClusLO := by
  unfold DirEntry.dirFstClusLO DirEntry.setBytes
  rw [DirEntry.field_ofBuffer _ (by decide), readBytes_writeBytes_of_disjoint (.inr h)]
  rfl

theorem length_padName (n : ℕ) (chars : List UInt8) : (padName n chars).length = n := by
  rw [padName, List.length_append, List.length_take, List.length_map, List.length_replicate]
  omega

theorem freshFile_cluster {name : List UInt8} {attributes : UInt8}
    (h : freshFile name attributes = some file) : file.fatDir.dirFstClusLO = 0 := by
  obtain ⟨longFilename, -, hfile⟩ := Option.bind_eq_some_iff.mp h
  rw [← Option.some_inj.mp hfile]
  dsimp only
  rw [DirEntry.dirFstClusLO_setBytes _ (by
    rw [List.length_append, length_padName, length_padName]
    decide)]
  exact (DirEntry.field_setField_of_disjoint _ _ (by decide) (by decide)).trans (by decide)

theorem length_fatItoa : ∀ value < 1000, (fatItoa value 10).length ≤ 3 := by decide +kernel

/-- Numbering a name changes the name only. -/
theorem repeatLoop_cluster :
    ∀ {rounds repeated : ℕ} {e : DirEntry} {dir : FatFile} {s : State}
      {r : DirEntry × FatFile × State}, repeated + rounds ≤ 1000 →
      repeatLoop g rounds repeated e dir s = some r → r.1.dirFstClusLO = e.dirFstClusLO
  | 0, _, _, _, _, _, _, h => by
      rw [← Option.some_inj.mp h]
  | rounds + 1, repeated, e, dir, s, r, hrepeated, h => by
      have hlength := length_fatItoa repeated (by omega)
      have hnamed : (e.setBytes (8 - (fatItoa repeated 10).length - 1)
          (0x7E :: fatItoa repeated 10)).dirFstClusLO = e.dirFstClusLO :=
        e.dirFstClusLO_setBytes (by rw [List.length_cons]; omega)
      obtain ⟨⟨found, s₁⟩, -, h⟩ := Option.bind_eq_some_iff.mp h
      dsimp only at h
      split at h
      · rw [← Option.some_inj.mp h]
        exact hnamed
      · rw [repeatLoop_cluster (by omega) h, hnamed]

theorem placeFile_failed {nameLength : ℕ}
    (h : placeFile g uninitialized nameLength newFile dir s = some (false, file, s')) :
    file.fatDir = newFile.fatDir := by
  obtain ⟨⟨count, s₁⟩, -, h⟩ := Option.bind_eq_some_iff.mp h
  obtain ⟨⟨position, dir', s₂⟩, -, h⟩ := Option.bind_eq_some_iff.mp h
  cases position with
  | none =>
      cases h
      rfl
  | some dirOffset =>
      obtain ⟨⟨free, s₃⟩, -, h⟩ := Option.bind_eq_some_iff.mp h
      cases free with
      | none =>
          cases h
          rfl
      | some freeCluster =>
          obtain ⟨s₄, -, h⟩ := Option.bind_eq_some_iff.mp h
          obtain ⟨s₅, -, h⟩ := Option.bind_eq_some_iff.mp h
          cases h

/-- A file that cannot be created has no cluster. -/
theorem fatCreate_failed {attributes : UInt8} (hnew : newFile.fatDir.dirFstClusLO = 0)
    (h : fatCreate g uninitialized newFile dir path attributes s = some (false, file, s')) :
    file.fatDir.dirFstClusLO = 0 := by
  obtain ⟨⟨opened, parentDir, s₁⟩, -, h⟩ := Option.bind_eq_some_iff.mp h
  dsimp only at h
  split at h
  · cases h
    exact hnew
  split at h
  · cases h
    exact (DirEntry.field_setField_of_disjoint _ _ (by decide) (by decide)).trans (by decide)
  obtain ⟨fresh, hfresh, h⟩ := Option.bind_eq_some_iff.mp h
  split at h
  · obtain ⟨⟨fatDir, parentDir', s₂⟩, hrepeat, h⟩ := Option.bind_eq_some_iff.mp h
    rw [placeFile_failed h]
    exact (repeatLoop_cluster (by decide) hrepeat).trans (freshFile_cluster hfresh)
  · rw [placeFile_failed h]
    exact freshFile_cluster hfresh

end

end Neos.Fat
