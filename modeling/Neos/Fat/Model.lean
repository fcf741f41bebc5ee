import Neos.Library.ByteRange

/-!
# The disk access of `fat.c`

The FAT entries, the cluster chains, and reading and writing the bytes of a
file.  The disk is the array of bytes behind `read_func` and `write_func`.  An
`unsigned int` is a natural number below `2 ^ 32`; every computation on such
numbers is reduced modulo `2 ^ 32`.  A loop is given `loopBound` rounds, more
than there are cluster numbers; `none` stands for a loop that does not end.
-/

namespace Neos.Fat

open ByteRange

/-- An `unsigned int`. -/
@[irreducible] def u32 (n : ℕ) : ℕ := n % 2 ^ 32

/-- The difference of two `unsigned int`s. -/
@[irreducible] def sub32 (a b : ℕ) : ℕ := (a + 2 ^ 32 - b) % 2 ^ 32

/-- The rounds given to a loop. -/
def loopBound : ℕ := 2 ^ 32

/-- The fields of `fat_bpb` that the file system uses after `fat_init`. -/
structure Bpb where
  bytsPerSec : ℕ
  secPerClus : ℕ
  rsvdSecCnt : ℕ
  numFats : ℕ
  totSec16 : ℕ
  totSec32 : ℕ
  fatSz32 : ℕ
deriving DecidableEq

/-- A `fat_dir_entry`, or the `fat_lfn_entry` in the same bytes. -/
structure DirEntry where
  bytes : List UInt8
  size : bytes.length = 32
deriving DecidableEq

/-- `sizeof(fat_dir_entry)`. -/
def sizeofDirEntry : ℕ := 32

namespace DirEntry

/-- The entry as a buffer of bytes. -/
def buffer (e : DirEntry) : ℕ → UInt8 := fun i => e.bytes.getD i 0

/-- The entry in the first bytes of a buffer. -/
def ofBuffer (m : ℕ → UInt8) : DirEntry := ⟨readBytes m 0 sizeofDirEntry, length_readBytes _ _ _⟩

/-- An entry of zeros. -/
def zero : DirEntry := ofBuffer fun _ => 0

/-- The field of `n` bytes at an offset. -/
def field (e : DirEntry) (offset n : ℕ) : ℕ := leValue (readBytes e.buffer offset n)

/-- Change the field of `n` bytes at an offset. -/
def setField (e : DirEntry) (offset n v : ℕ) : DirEntry :=
  ofBuffer (writeBytes e.buffer offset (leBytes n v))

/-- `DIR_Name[i]`. -/
def dirName (e : DirEntry) (i : ℕ) : UInt8 := e.buffer i

/-- `DIR_Attr`. -/
def dirAttr (e : DirEntry) : UInt8 := e.buffer 11

/-- `DIR_FstClusHI`. -/
def dirFstClusHI (e : DirEntry) : ℕ := e.field 20 2

/-- `DIR_FstClusLO`. -/
def dirFstClusLO (e : DirEntry) : ℕ := e.field 26 2

/-- `DIR_FileSize`. -/
def dirFileSize (e : DirEntry) : ℕ := e.field 28 4

/-- Assign `DIR_FstClusLO`. -/
def setFstClusLO (e : DirEntry) (v : ℕ) : DirEntry := e.setField 26 2 v

/-- Assign `DIR_FstClusHI`. -/
def setFstClusHI (e : DirEntry) (v : ℕ) : DirEntry := e.setField 20 2 v

/-- Assign `DIR_FileSize`. -/
def setFileSize (e : DirEntry) (v : ℕ) : DirEntry := e.setField 28 4 v

end DirEntry

/-- A `fat_FILE`, or the only field of a `fat_DIR`; the disk it points to is the
disk of the state. -/
structure FatFile where
  fatDir : DirEntry
  entryPosition : ℕ
  firstParentCluster : ℕ
  lfnPresent : Bool
  cursor : ℕ
  longFilename : List ℕ
deriving DecidableEq

/-- `fat_file_default`. -/
def fatFileDefault : FatFile :=
  { fatDir := .zero
    entryPosition := 0
    firstParentCluster := 0
    lfnPresent := false
    cursor := 0
    longFilename := 0 :: List.replicate 259 0xFFFF }

/-- The disk, the FAT cache, the clusters that the searches for a free cluster
have returned, and the cached reads of the FAT, each with the value that it
returned and the entry that the disk held at that moment. -/
structure State where
  disk : ℕ → UInt8
  fatCache : ℕ → UInt8
  fatCacheSector : ℕ
  taken : List ℕ
  cachedReads : List (ℕ × ℕ) := []

/-- `fat_invalidate_cache`. -/
def fatInvalidateCache (s : State) : State := { s with fatCacheSector := 0xFFFFFFFF }

/-- `write_func`. -/
def State.write (s : State) (offset : ℕ) (bytes : List UInt8) : State :=
  { s with disk := writeBytes s.disk offset bytes }

namespace Bpb

/-- The bytes of a cluster. -/
def clusterSize (g : Bpb) : ℕ := u32 (g.secPerClus * g.bytsPerSec)

/-- `first_data_sector`. -/
def firstDataSector (g : Bpb) : ℕ := u32 (g.rsvdSecCnt + g.numFats * g.fatSz32)

/-- `disk_size`, in sectors. -/
def diskSize (g : Bpb) : ℕ := if g.totSec32 = 0 then g.totSec16 else g.totSec32

/-- Where the FAT entry of a cluster is. -/
def fatEntryOffset (g : Bpb) (cluster : ℕ) : ℕ :=
  u32 (g.rsvdSecCnt * g.bytsPerSec + cluster * 4)

/-- Where the data of a cluster begins. -/
def clusterOffset (g : Bpb) (cluster : ℕ) : ℕ :=
  u32 (u32 (g.firstDataSector + sub32 cluster 2 * g.secPerClus) * g.bytsPerSec)

end Bpb

/-- `fat_read_fat_entry`. -/
def fatReadFatEntry (g : Bpb) (s : State) (cluster : ℕ) (cache : Bool) : ℕ × State :=
  let fatEntry := g.fatEntryOffset cluster
  if cache then
    let sector := fatEntry / g.bytsPerSec
    let s :=
      if sector ≠ s.fatCacheSector then
        { s with
          fatCache := writeBytes s.fatCache 0
            (readBytes s.disk (u32 (sector * g.bytsPerSec)) g.bytsPerSec)
          fatCacheSector := sector }
      else s
    let value := leValue (readBytes s.fatCache (fatEntry % g.bytsPerSec) 4)
    (value, { s with
      cachedReads := (value, leValue (readBytes s.disk fatEntry 4)) :: s.cachedReads })
  else (leValue (readBytes s.disk fatEntry 4), s)

/-- `fat_write_fat_entry`. -/
def fatWriteFatEntry (g : Bpb) (s : State) (cluster value : ℕ) : State :=
  let fatEntry := g.fatEntryOffset cluster
  let fatSize := u32 (g.fatSz32 * g.bytsPerSec)
  (s.write fatEntry (leBytes 4 value)).write (u32 (fatEntry + fatSize)) (leBytes 4 value)

/-- `0x0FFFFFF7`: the cluster is bad. -/
def badCluster : ℕ := 0x0FFFFFF7

/-- The FAT entry ends a chain for the loops of `fat.c`. -/
def isLast (nextCluster : ℕ) : Bool :=
  (0x0FFFFFF8 ≤ nextCluster ∧ nextCluster ≤ 0x0FFFFFFF) ∨ nextCluster = 0xFFFFFFFF

/-- `fat_fseek` with `fat_SEEK_SET`. -/
def fatFseekSet (file : FatFile) (offset : ℕ) : FatFile := { file with cursor := u32 offset }

/-- `fat_fseek` with `fat_SEEK_CUR`; the offset is the bit pattern of an
`int`. -/
def fatFseekCur (file : FatFile) (offset : ℕ) : FatFile :=
  { file with cursor := u32 (file.cursor + offset) }

/-- `fat_fseek` with `fat_SEEK_END`. -/
def fatFseekEnd (file : FatFile) (offset : ℕ) : FatFile :=
  { file with cursor := u32 (file.fatDir.dirFileSize + offset) }

/-! ## Reading -/

/-- In the round of `fat_fread` for one cluster, with `offset` already advanced
past it: the bytes of the cluster that belong to the file. -/
def readPartSize (g : Bpb) (file : FatFile) (offset : ℕ) : ℕ :=
  if offset > file.fatDir.dirFileSize then
    sub32 g.clusterSize (sub32 offset file.fatDir.dirFileSize)
  else g.clusterSize

/-- The part of a cluster that a round transfers: the bytes skipped at its start,
and the bytes transferred. -/
def transferPart (g : Bpb) (cursor dataSize offset partSize total : ℕ) : ℕ × ℕ :=
  let bytes := if dataSize > u32 (partSize + total) then partSize else sub32 dataSize total
  if sub32 offset cursor ≤ g.clusterSize then
    let skip := sub32 g.clusterSize (sub32 offset cursor)
    (skip, if u32 (bytes + skip) > partSize then sub32 bytes (sub32 (u32 (bytes + skip)) partSize)
      else bytes)
  else (0, bytes)

/-- The loop of `fat_fread`; the result is the output buffer and the number of
bytes read. -/
def freadLoop (g : Bpb) (file : FatFile) (dataSize : ℕ) :
    ℕ → ℕ → ℕ → ℕ → (ℕ → UInt8) → State → Option ((ℕ → UInt8) × ℕ × State)
  | 0, _, _, _, _, _ => none
  | rounds + 1, cluster, offset, total, out, s =>
      if cluster < 2 then some (out, total, s)
      else
        let (nextCluster, s) := fatReadFatEntry g s cluster true
        if nextCluster = 0 then some (out, total, s)
        else if nextCluster = badCluster then some (out, total, s)
        else
          let offset := u32 (offset + g.clusterSize)
          let part := transferPart g file.cursor dataSize offset (readPartSize g file offset) total
          let out :=
            if offset > file.cursor then
              writeBytes out total
                (readBytes s.disk (u32 (g.clusterOffset cluster + part.1)) part.2)
            else out
          let total := if offset > file.cursor then u32 (total + part.2) else total
          if isLast nextCluster then some (out, total, s)
          else freadLoop g file dataSize rounds (nextCluster % 2 ^ 28) offset total out s

/-- `fat_fread` of `data_size` bytes into a buffer; the return value is always
`1`. -/
def fatFread (g : Bpb) (dataOut : ℕ → UInt8) (dataSize : ℕ) (file : FatFile) (s : State) :
    Option ((ℕ → UInt8) × FatFile × State) := do
  let (out, total, s) ← freadLoop g file dataSize loopBound file.fatDir.dirFstClusLO 0 0 dataOut
    (fatInvalidateCache s)
  return (out, { file with cursor := u32 (file.cursor + total) }, s)

/-- The loop of `fat_file_cluster_count`. -/
def clusterCountLoop (g : Bpb) : ℕ → ℕ → ℕ → State → Option (ℕ × State)
  | 0, _, _, _ => none
  | rounds + 1, cluster, count, s =>
      if cluster < 2 then some (count, s)
      else
        let (nextCluster, s) := fatReadFatEntry g s cluster true
        if nextCluster = badCluster then some (count, s)
        else if nextCluster = 0 then some (count, s)
        else if isLast nextCluster then some (count + 1, s)
        else clusterCountLoop g rounds (nextCluster % 2 ^ 28) (count + 1) s

/-- `fat_file_cluster_count`. -/
def fatFileClusterCount (g : Bpb) (file : FatFile) (s : State) : Option (ℕ × State) :=
  clusterCountLoop g loopBound file.fatDir.dirFstClusLO 0 (fatInvalidateCache s)

/-! ## Writing -/

/-- `fat_clear_cluster`. -/
def fatClearCluster (g : Bpb) (s : State) (cluster : ℕ) : State :=
  s.write (g.clusterOffset cluster) (List.replicate g.clusterSize 0)

/-- The search for a free cluster, in `fat_fwrite` and in `fat_create`. -/
def findFreeCluster (g : Bpb) : ℕ → ℕ → State → Option (Option ℕ × State)
  | 0, _, _ => none
  | rounds + 1, freeCluster, s =>
      let (value, s) := fatReadFatEntry g s freeCluster true
      if value = 0 then some (some freeCluster, { s with taken := freeCluster :: s.taken })
      else
        let freeCluster := u32 (freeCluster + 1)
        if u32 (freeCluster * g.secPerClus) ≥ g.diskSize then some (none, s)
        else findFreeCluster g rounds freeCluster s

/-- In a round of `fat_fwrite`, the handling of the FAT entry of the current
cluster; the result is the next cluster, or `none` when the disk is full. -/
def advanceChain (g : Bpb) (cursor dataSize offset cluster nextCluster : ℕ) (s : State) :
    Option (Option ℕ × State) :=
  if nextCluster = 0 ∨ (0x0FFFFFF8 ≤ nextCluster ∧ nextCluster ≤ 0x0FFFFFFF) then
    if u32 (cursor + dataSize) ≤ u32 (offset + g.clusterSize) then
      -- The data fits: the current cluster is the last one.
      if nextCluster = 0x0FFFFFFF then some (some 0x0FFFFFFF, s)
      else
        let s := fatWriteFatEntry g s cluster 0x0FFFFFFF
        some (some 0x0FFFFFFF, fatClearCluster g s 0x0FFFFFFF)
    else do
      let (free, s) ← findFreeCluster g loopBound (u32 (cluster + 1)) (fatInvalidateCache s)
      match free with
      | none => some (none, s)
      | some freeCluster =>
          let s := fatWriteFatEntry g s cluster freeCluster
          some (some freeCluster, fatClearCluster g s freeCluster)
  else some (some nextCluster, s)

/-- The loop of `fat_fwrite`; the result is the number of bytes written, or
`none` when the disk is full. -/
def fwriteLoop (g : Bpb) (dataIn : ℕ → UInt8) (dataSize : ℕ) (file : FatFile) :
    ℕ → ℕ → ℕ → ℕ → State → Option (Option ℕ × State)
  | 0, _, _, _, _ => none
  | rounds + 1, cluster, offset, total, s =>
      if cluster < 2 then some (some total, s)
      else
        let (nextCluster, s) := fatReadFatEntry g s cluster false
        if nextCluster = badCluster then some (some total, s)
        else do
          let (next, s) ← advanceChain g file.cursor dataSize offset cluster nextCluster s
          match next with
          | none => some (none, s)
          | some nextCluster =>
              let offset := u32 (offset + g.clusterSize)
              let part := transferPart g file.cursor dataSize offset g.clusterSize total
              let s :=
                if offset > file.cursor then
                  s.write (u32 (g.clusterOffset cluster + part.1)) (readBytes dataIn total part.2)
                else s
              let total := if offset > file.cursor then u32 (total + part.2) else total
              if isLast nextCluster then some (some total, s)
              else fwriteLoop g dataIn dataSize file rounds (nextCluster % 2 ^ 28) offset total s

/-- The handle on a directory that `fat_update_entry` and its siblings build
from a first cluster. -/
def parentHandle (g : Bpb) (firstCluster : ℕ) (s : State) : Option (FatFile × State) := do
  let parent := { fatFileDefault with fatDir := DirEntry.zero.setFstClusLO firstCluster }
  let (count, s) ← fatFileClusterCount g parent s
  return ({ parent with
    fatDir := parent.fatDir.setFileSize (u32 (count * g.secPerClus * g.bytsPerSec)) }, s)

/-- The type of `fat_fwrite`: the return value, the file and the state. -/
abbrev Write := (ℕ → UInt8) → ℕ → FatFile → State → Option (Bool × FatFile × State)

/-- `fat_update_entry`, with the `fat_fwrite` that it calls. -/
def updateEntryWith (g : Bpb) (write : Write) (dir : FatFile) (s : State) : Option State :=
  if dir.firstParentCluster < 2 then some s
  else do
    let (parent, s) ← parentHandle g dir.firstParentCluster s
    let (_, _, s) ← write dir.fatDir.buffer sizeofDirEntry (fatFseekSet parent dir.entryPosition) s
    return s

/-- The body of `fat_fwrite`, with the `fat_update_entry` that it calls. -/
def fwriteWith (g : Bpb) (update : FatFile → State → Option State) : Write :=
  fun dataIn dataSize file s => do
    let (written, s) ← fwriteLoop g dataIn dataSize file loopBound file.fatDir.dirFstClusLO 0 0 s
    match written with
    | none => return (false, file, s)
    | some total =>
        let file := { file with cursor := u32 (file.cursor + total) }
        if file.cursor > file.fatDir.dirFileSize then
          let file := { file with fatDir := file.fatDir.setFileSize file.cursor }
          let s ← update file s
          return (true, file, s)
        else return (true, file, s)

/-- `fat_fwrite` nested to some depth. -/
def fwriteNested (g : Bpb) : ℕ → Write
  | 0 => fun _ _ _ _ => none
  | depth + 1 => fwriteWith g (updateEntryWith g (fwriteNested g depth))

/-- `fat_fwrite`.  The handle on the parent directory has no parent of its own,
so the calls nest twice at most. -/
def fatFwrite (g : Bpb) : Write := fwriteNested g 2

/-- `fat_update_entry`. -/
def fatUpdateEntry (g : Bpb) : FatFile → State → Option State := updateEntryWith g (fatFwrite g)

end Neos.Fat
