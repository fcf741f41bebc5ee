import Neos.Fat.Model

/-!
# Names and lookups in `fat.c`

`fat_find_full` and what is built on it: it scans the entries of a directory,
puts long names together slot by slot, and follows a path from directory to
directory.  A path is the list of its bytes before the `'\0'`.
-/

namespace Neos.Fat

open ByteRange

/-- `to_lowercase`. -/
def toLowercase (c : UInt8) : UInt8 := if 0x41 ≤ c ∧ c ≤ 0x5A then c + 0x20 else c

/-- A `char` as an `unsigned short`; a `char` is signed. -/
def shortOfChar (c : UInt8) : ℕ := if c < 0x80 then c.toNat else 0xFF00 + c.toNat

/-- The `char` at an `unsigned short`: its low byte. -/
def charOfShort (v : ℕ) : UInt8 := UInt8.ofNat (v % 2 ^ 8)

/-- Store values from an index on; `none` when the array is too short. -/
def storeAt (array : List ℕ) (index : ℕ) (values : List ℕ) : Option (List ℕ) :=
  if index + values.length ≤ array.length then
    some (array.take index ++ values ++ array.drop (index + values.length))
  else none

/-- The characters that `shortname_to_longname` stores, the `'\0'`s included. -/
def shortnameChars (e : DirEntry) : List ℕ :=
  let base := (e.bytes.take 8).takeWhile (· ≠ 0x20)
  let extension := ((e.bytes.drop 8).take 3).takeWhile (· ≠ 0x20)
  if extension = [] then base.map shortOfChar ++ [0, 0]
  else base.map shortOfChar ++ [0x2E] ++ extension.map shortOfChar ++ [0]

/-- `shortname_to_longname`. -/
def shortnameToLongname (e : DirEntry) (longname : List ℕ) : Option (List ℕ) :=
  storeAt longname 0 (shortnameChars e)

/-- The loop of `path_compare`; `i` characters were equal so far.  Behind its last
character a name is taken to end. -/
def pathCompareLoop (caseSensitive : Bool) : List UInt8 → List UInt8 → ℕ → ℕ
  | [], [], i => i
  | [], c :: _, i => if c = 0 then i else 0
  | p :: _, [], i => if p = 0x2F then i else 0
  | p :: path, c :: name, i =>
      if c = 0 then if p = 0x2F then i else 0
      else if p = 0x2F then 0
      else if caseSensitive then
        if p ≠ c then 0 else pathCompareLoop caseSensitive path name (i + 1)
      else if toLowercase p ≠ toLowercase c then 0
      else pathCompareLoop caseSensitive path name (i + 1)

/-- `path_compare` with a name of `unsigned short`s. -/
def pathCompare (path : List UInt8) (dirName : List ℕ) (caseSensitive : Bool) : ℕ :=
  pathCompareLoop caseSensitive path (dirName.map charOfShort) 0

namespace DirEntry

/-- `DIR_Attr & fat_ATTR_DIRECTORY`. -/
def isDirectory (e : DirEntry) : Bool := e.dirAttr &&& 0x10 ≠ 0

/-- The characters of a long-name slot: `LDIR_Name1`, `LDIR_Name2`, `LDIR_Name3`. -/
def lfnChars (e : DirEntry) : List ℕ :=
  (List.range 5).map (fun i => e.field (1 + 2 * i) 2) ++
    (List.range 6).map (fun i => e.field (14 + 2 * i) 2) ++
    (List.range 2).map (fun i => e.field (28 + 2 * i) 2)

end DirEntry

/-- The part of `fat_find_full` that stores a long-name slot; `none` stands for an
index outside `long_filename`. -/
def storeLfnSlot (e : DirEntry) (longFilename : List ℕ) : Option (List ℕ) := do
  let index := (e.dirName 0 &&& 0x0F).toNat
  let offset := u32 (sub32 index 1 * 13)
  let longFilename ← storeAt longFilename offset e.lfnChars
  if e.dirName 0 &&& 0x40 ≠ 0 then storeAt longFilename (u32 (offset + 13)) [0]
  else return longFilename

/-- `fat_NOT_FOUND`, `fat_FOUND_DIR` and `fat_FOUND_FILE`. -/
inductive Found
  | notFound
  | foundDir
  | foundFile
deriving DecidableEq

/-- The return value of `fat_find_full` and the objects it writes to: `subdir_out`,
`file_out` and `root_dir`. -/
structure FindResult where
  found : Found
  subdirOut : FatFile
  fileOut : FatFile
  rootDir : FatFile
deriving DecidableEq

/-- The arguments `path`, `is_file`, `read_at_cursor` and `use_shortname`. -/
structure Query where
  path : List UInt8
  isFile : Bool
  readAtCursor : Bool
  useShortname : Bool

/-- The type of `fat_find_full`, for a query, a starting directory and a state. -/
abbrev Find := Query → FatFile → State → Option (FindResult × State)

/-- What the loop does with an entry: it stops with a result, or it goes on. -/
inductive Visit
  | stop (r : FindResult)
  | next (subdirOut : FatFile)

/-- The name of the entry in `subdir_out`: the one put together before, or the 8.3
name. -/
def nameEntry (longname : Bool) (subdir : FatFile) : Option FatFile :=
  if longname then some subdir
  else do
    let longFilename ← shortnameToLongname subdir.fatDir subdir.longFilename
    return { subdir with longFilename := longFilename }

/-- What `fat_find_full` records of an entry that it has found. -/
def place (file : FatFile) (dirOffset parentCluster : ℕ) (lfnPresent : Bool) : FatFile :=
  { file with
    entryPosition := dirOffset
    firstParentCluster := parentCluster
    lfnPresent := lfnPresent }

/-- The part of `fat_find_full` after the slots of long names, for the entry in
`subdir_out`, the `entries`-th one of the directory. -/
def visitNamed (find : Find) (q : Query) (rootDir : FatFile) (dirOffset entries : ℕ)
    (lfnPresent : Bool) (subdir : FatFile) (s : State) : Option (Visit × State) :=
  let dirNameLength :=
    pathCompare q.path subdir.longFilename (lfnPresent && !q.useShortname)
  let parentCluster := rootDir.fatDir.dirFstClusLO
  let fileOut :=
    { fatFileDefault with
      fatDir := subdir.fatDir
      longFilename := subdir.longFilename }
  if q.readAtCursor then
    if entries = rootDir.cursor then
      let rootDir := { rootDir with cursor := u32 (rootDir.cursor + 1) }
      if subdir.fatDir.isDirectory then
        some (.stop ⟨.foundDir, place subdir dirOffset parentCluster lfnPresent, fatFileDefault,
          rootDir⟩, s)
      else
        some (.stop ⟨.foundFile, subdir, place fileOut dirOffset parentCluster lfnPresent,
          rootDir⟩, s)
    else some (.next subdir, s)
  else if 0 < dirNameLength then
    if subdir.fatDir.isDirectory then
      if q.path.length = dirNameLength then
        if q.isFile then some (.next subdir, s)
        else
          some (.stop ⟨.foundDir, place subdir dirOffset parentCluster lfnPresent, fatFileDefault,
            rootDir⟩, s)
      else do
        let (r, s) ← find { q with path := q.path.drop (dirNameLength + 1) } subdir s
        some (.stop { r with rootDir := rootDir }, s)
    else if q.isFile ∧ q.path.length = dirNameLength then
      some (.stop ⟨.foundFile, subdir, place fileOut dirOffset parentCluster lfnPresent,
        rootDir⟩, s)
    else some (.next subdir, s)
  else some (.next subdir, s)

/-- The part of `fat_find_full` for an entry. -/
def visitEntry (find : Find) (q : Query) (rootDir : FatFile) (dirOffset entries : ℕ)
    (lfnPresent : Bool) (subdir : FatFile) (s : State) : Option (Visit × State) := do
  let subdir ← nameEntry (lfnPresent && !q.useShortname) subdir
  visitNamed find q rootDir dirOffset entries lfnPresent subdir s

/-- The loop of `fat_find_full`. -/
def findLoop (g : Bpb) (find : Find) (q : Query) (rootDir directory : FatFile) :
    ℕ → ℕ → ℕ → Bool → FatFile → State → Option (FindResult × State)
  | 0, _, _, _, _, _ => none
  | rounds + 1, dirOffset, entries, lfnPresent, subdir, s =>
      if dirOffset ≥ directory.fatDir.dirFileSize then
        some (⟨.notFound, subdir, fatFileDefault, rootDir⟩, s)
      else do
        let (out, _, s) ← fatFread g subdir.fatDir.buffer sizeofDirEntry
          (fatFseekSet directory dirOffset) s
        let subdir := { subdir with fatDir := .ofBuffer out }
        let dirOffset' := u32 (dirOffset + sizeofDirEntry)
        if subdir.fatDir.dirName 0 = 0 then
          some (⟨.notFound, subdir, fatFileDefault, rootDir⟩, s)
        else if subdir.fatDir.dirName 0 = 0xE5 then
          findLoop g find q rootDir directory rounds dirOffset' entries lfnPresent subdir s
        else if subdir.fatDir.dirAttr = 0x0F then do
          let longFilename ← storeLfnSlot subdir.fatDir subdir.longFilename
          findLoop g find q rootDir directory rounds dirOffset' entries
            (lfnPresent || subdir.fatDir.dirName 0 &&& 0x40 ≠ 0)
            { subdir with longFilename := longFilename } s
        else do
          let (visit, s) ← visitEntry find q rootDir dirOffset entries lfnPresent subdir s
          match visit with
          | .stop r => some (r, s)
          | .next subdir =>
              findLoop g find q rootDir directory rounds dirOffset' (u32 (entries + 1)) false
                subdir s

/-- Cluster 0 stands for the root directory. -/
def startDir (rootDir : FatFile) : FatFile :=
  if rootDir.fatDir.dirFstClusLO < 2 then
    { rootDir with fatDir := rootDir.fatDir.setFstClusLO 2 }
  else rootDir

/-- The body of `fat_find_full`, with the call that searches a subdirectory. -/
def findWith (g : Bpb) (find : Find) : Find := fun q rootDir s => do
  let rootDir := startDir rootDir
  let (count, s) ← fatFileClusterCount g { fatFileDefault with fatDir := rootDir.fatDir } s
  let directory :=
    { fatFileDefault with
      fatDir := rootDir.fatDir.setFileSize (u32 (count * g.secPerClus * g.bytsPerSec)) }
  findLoop g find q rootDir directory loopBound 0 0 false fatFileDefault s

/-- `fat_find_full` nested to some depth. -/
def findNested (g : Bpb) : ℕ → Find
  | 0 => fun _ _ _ => none
  | depth + 1 => findWith g (findNested g depth)

/-- `fat_find_full`.  Every nested call is for a shorter path. -/
def fatFindFull (g : Bpb) : Find := fun q => findNested g (q.path.length + 1) q

/-- `fat_find`. -/
def fatFind (g : Bpb) (rootDir : FatFile) (path : List UInt8) (isFile readAtCursor : Bool)
    (s : State) : Option (FindResult × State) :=
  fatFindFull g ⟨path, isFile, readAtCursor, false⟩ rootDir s

/-- `fat_rewinddir`. -/
def fatRewinddir (dir : FatFile) : FatFile := { dir with cursor := 0 }

/-- `fat_readdir`. -/
def fatReaddir (g : Bpb) (parent : FatFile) (s : State) : Option (FindResult × State) :=
  fatFind g parent [] false true s

end Neos.Fat
