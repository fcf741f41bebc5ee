import Neos.Library.Simulation
import Neos.Library.ByteFiles
import Neos.Fat.Isolation
import Neos.Fat.Success
import Neos.Fat.Driver

/-!
# A volume as a store of files

Calls on the open files of a volume, each through its own handle, are answered as by
files that know nothing of clusters, of a table, or of each other.
-/

namespace Neos.Fat

open ByteRange Simulation

variable {g : Bpb} {s s' : State} {file : FatFile} {f : ByteFile} {l dir : List ℕ} {n : ℕ}

/-! ## Calls -/

/-- A call on an open file. -/
inductive FileOp
  | fread (dataOut : ℕ → UInt8) (dataSize : ℕ)
  | fwrite (dataIn : ℕ → UInt8) (dataSize : ℕ)
  | fseek (offset origin : ℤ)
  | ftell
  | fopen (uninitialized : DirEntry) (rootDir : FatFile) (path : List UInt8) (mode : OpenMode)
  | fremove (uninitialized : DirEntry)

/-- What a call returns: the buffer of a read that returns 1, or the value of any other
call. -/
inductive FileAnswer
  | read (dataOut : ℕ → UInt8)
  | code (result : ℤ)

/-- `fat_ftell`. -/
def fatFtell (file : FatFile) : ℤ := intOfUnsigned file.cursor

/-- Where a seek leads. -/
def target (position size : ℕ) (offset origin : ℤ) : ℤ :=
  if origin = 0 then offset
  else if origin = 1 then position + offset
  else if origin = 2 then size + offset
  else position

/-- A file that is opened again. -/
def OpenMode.reopen (mode : OpenMode) (f : ByteFile) : ByteFile :=
  match mode with
  | .read => f.seek 0
  | .write => .empty
  | .append => f.seek f.size

/-- A lookup of the path finds the file of a handle. -/
def NamesFile (g : Bpb) (s : State) (file rootDir : FatFile) (path : List UInt8) : Prop :=
  ∃ r s', fatFind g rootDir path true false s = some (r, s') ∧ r.found = .foundFile ∧
    r.fileOut.firstParentCluster = file.firstParentCluster ∧
    r.fileOut.entryPosition = file.entryPosition ∧ r.fileOut.fatDir = file.fatDir

namespace FileOp

/-- The call of `fat.c` through a handle, which is not used again when the file was
removed. -/
def perform (g : Bpb) (file : FatFile) (s : State) :
    FileOp → Option (FileAnswer × Option FatFile × State)
  | fread dataOut dataSize => do
      let (out, file, s) ← fatFread g dataOut dataSize file s
      return (.read out, some file, s)
  | fwrite dataIn dataSize => do
      let (done, file, s) ← fatFwrite g dataIn dataSize file s
      return (.code done.toNat, some file, s)
  | fseek offset origin => some (.code 1, some (fatFseek file offset origin), s)
  | ftell => some (.code (fatFtell file), some file, s)
  | fopen uninitialized rootDir path mode => do
      let (opened, file, s) ← fatFopen g uninitialized rootDir path mode s
      return (.code opened.toNat, some file, s)
  | fremove uninitialized => do
      let (_, s) ← fatFremove g uninitialized file s
      return (.code 1, none, s)

/-- The call on a file of bytes. -/
def onBytes (f : ByteFile) : FileOp → FileAnswer × Option ByteFile
  | fread dataOut dataSize =>
      (.read (writeBytes dataOut 0 (f.ahead dataSize)), some (f.read dataSize))
  | fwrite dataIn dataSize => (.code 1, some (f.write (readBytes dataIn 0 dataSize)))
  | fseek offset origin => (.code 1, some (f.seek (target f.position f.size offset origin).toNat))
  | ftell => (.code (intOfUnsigned f.position), some f)
  | fopen _ _ _ mode => (.code 1, some (mode.reopen f))
  | fremove _ => (.code 1, none)

/-- What a call relies on: a write has room, a seek stays in the file, a path names the
file that is opened again, and a file that is removed has no long name. -/
def Needs (g : Bpb) (file : FatFile) (s : State) : FileOp → Prop
  | fread _ dataSize => dataSize < 2 ^ 32
  | fwrite _ dataSize => Room g s.disk file dataSize
  | fseek offset origin =>
      0 ≤ target file.cursor file.fatDir.dirFileSize offset origin ∧
        target file.cursor file.fatDir.dirFileSize offset origin ≤ file.fatDir.dirFileSize
  | ftell => True
  | fopen _ rootDir path _ => NamesFile g s file rootDir path
  | fremove _ => file.lfnPresent = false

end FileOp

/-- The volume and the handles on its open files. -/
structure Store (ι : Type) where
  state : State
  handle : ι → Option FatFile

namespace Store

variable {ι : Type}

/-- A call through one of the handles. -/
def call [DecidableEq ι] (g : Bpb) (c : Store ι) (a : ι × FileOp) :
    Option (FileAnswer × Store ι) := do
  let file ← c.handle a.1
  let (answer, file, s) ← a.2.perform g file c.state
  return (answer, ⟨s, Function.update c.handle a.1 file⟩)

/-- The other handles stay as they are. -/
theorem call_other [DecidableEq ι] {c c' : Store ι} {a : ι × FileOp} {b : FileAnswer}
    (h : c.call g a = some (b, c')) {j : ι} (hne : j ≠ a.1) : c'.handle j = c.handle j := by
  obtain ⟨file, -, hrest⟩ := Option.bind_eq_some_iff.mp h
  obtain ⟨⟨answer, result, s'⟩, -, hrest⟩ := Option.bind_eq_some_iff.mp hrest
  cases hrest
  exact Function.update_of_ne hne _ _

/-- `fat_ftell` leaves everything as it is. -/
theorem call_ftell [DecidableEq ι] {c : Store ι} {i : ι} (h : c.handle i = some file) :
    c.call g (i, .ftell) = some (.code (fatFtell file), c) := by
  unfold call
  dsimp only
  rw [h, Option.bind_eq_bind, Option.bind_some, FileOp.perform, Option.bind_eq_bind,
    Option.bind_some, ← h, Function.update_eq_self]
  rfl

/-- A handle is given up in a removal only. -/
theorem call_kept [DecidableEq ι] {c c' : Store ι} {a : ι × FileOp} {b : FileAnswer}
    (h : c.call g a = some (b, c')) (hkept : ∀ uninitialized, a.2 ≠ .fremove uninitialized) :
    ∃ file, c'.handle a.1 = some file := by
  obtain ⟨i, op⟩ := a
  obtain ⟨file, -, hrest⟩ := Option.bind_eq_some_iff.mp h
  obtain ⟨⟨answer, result, s'⟩, hperform, hrest⟩ := Option.bind_eq_some_iff.mp hrest
  have hresult : ∃ file', result = some file' := by
    cases op with
    | fread dataOut dataSize =>
        obtain ⟨done, -, heq⟩ := Option.bind_eq_some_iff.mp hperform
        cases heq
        exact ⟨_, rfl⟩
    | fwrite dataIn dataSize =>
        obtain ⟨done, -, heq⟩ := Option.bind_eq_some_iff.mp hperform
        cases heq
        exact ⟨_, rfl⟩
    | fseek offset origin =>
        cases hperform
        exact ⟨_, rfl⟩
    | ftell =>
        cases hperform
        exact ⟨_, rfl⟩
    | fopen uninitialized rootDir path mode =>
        obtain ⟨done, -, heq⟩ := Option.bind_eq_some_iff.mp hperform
        cases heq
        exact ⟨_, rfl⟩
    | fremove uninitialized => exact absurd rfl (hkept uninitialized)
  obtain ⟨file', rfl⟩ := hresult
  cases hrest
  exact ⟨file', Function.update_self ..⟩

/-- The call is made through an open handle, and what it relies on holds. -/
def Served (g : Bpb) (c : Store ι) (a : ι × FileOp) : Prop :=
  ∃ file, c.handle a.1 = some file ∧ a.2.Needs g file c.state

end Store

/-- A call on one of several files of bytes. -/
def onFiles {ι : Type} [DecidableEq ι] (t : ByteFiles ι) (a : ι × FileOp) :
    Option (FileAnswer × ByteFiles ι) :=
  t.on a.1 fun f => a.2.onBytes f

/-! ## One file -/

/-- Two handles on one file. -/
structure Same (file file' : FatFile) : Prop where
  position : file'.entryPosition = file.entryPosition
  parent : file'.firstParentCluster = file.firstParentCluster

/-- On the disk the file of the handle has the bytes of `f`, and the handle is where the
position of `f` is. -/
structure Holds (g : Bpb) (s : State) (file : FatFile) (f : ByteFile) (l dir : List ℕ) : Prop where
  opened : OpenFile g s file l dir
  bytes : f = ⟨readBytes (chainByte g s.disk l) 0 file.fatDir.dirFileSize, file.cursor⟩
  within : file.cursor ≤ file.fatDir.dirFileSize

/-- A seek to a place in the file. -/
theorem fatFseek_target {offset origin : ℤ}
    (hlo : 0 ≤ target file.cursor file.fatDir.dirFileSize offset origin)
    (hhi : target file.cursor file.fatDir.dirFileSize offset origin < 2 ^ 32) :
    fatFseek file offset origin =
      { file with cursor := (target file.cursor file.fatDir.dirFileSize offset origin).toNat } := by
  unfold target at hlo hhi ⊢
  unfold fatFseek
  by_cases hset : origin = 0
  · rw [if_pos hset] at hlo hhi ⊢
    rw [if_pos hset, fatFseekSet, u32]
    congr 1
    omega
  by_cases hcur : origin = 1
  · rw [if_neg hset, if_pos hcur] at hlo hhi ⊢
    rw [if_neg hset, if_pos hcur, fatFseekCur, u32]
    congr 1
    omega
  by_cases hend : origin = 2
  · rw [if_neg hset, if_neg hcur, if_pos hend] at hlo hhi ⊢
    rw [if_neg hset, if_neg hcur, if_pos hend, fatFseekEnd, u32]
    congr 1
    omega
  · rw [if_neg hset, if_neg hcur, if_neg hend] at hlo hhi ⊢
    rw [if_neg hset, if_neg hcur, if_neg hend, Int.toNat_natCast]

namespace Holds

theorem size (h : Holds g s file f l dir) : f.size = file.fatDir.dirFileSize := by
  rw [h.bytes, ByteFile.size, length_readBytes]

theorem position (h : Holds g s file f l dir) : f.position = file.cursor := by
  rw [h.bytes]

/-- It stays so when the file is left alone. -/
theorem congr (hg : Geometry g) (h : Holds g s file f l dir) (hopened : OpenFile g s' file l dir)
    (hbytes : ∀ j, j < l.length * g.clusterSize →
      chainByte g s'.disk l j = chainByte g s.disk l j) : Holds g s' file f l dir := by
  have hroom := (h.opened.sizeFits hg).enough
  refine ⟨hopened, ?_, h.within⟩
  rw [h.bytes, ByteFile.mk.injEq]
  refine ⟨?_, rfl⟩
  apply readBytes_congr
  intro i hi
  exact (hbytes _ (by omega)).symm

theorem looked (h : Holds g s file f l dir) (hdisk : s'.disk = s.disk) :
    Holds g s' file f l dir := by
  obtain ⟨⟨hchain, hclusters, hparent, hparent_lt, hinside, hapart, hentry⟩, hbytes, hwithin⟩ := h
  rw [← hdisk] at hchain hparent hentry hbytes
  exact ⟨⟨hchain, hclusters, hparent, hparent_lt, hinside, hapart, hentry⟩, hbytes, hwithin⟩

/-- It is a matter of the entry, its place, and the cursor. -/
theorem of_fields {file' : FatFile} (h : Holds g s file f l dir)
    (hentry : file'.fatDir = file.fatDir)
    (hparent : file'.firstParentCluster = file.firstParentCluster)
    (hposition : file'.entryPosition = file.entryPosition) (hcursor : file'.cursor = file.cursor) :
    Holds g s file' f l dir := by
  obtain ⟨⟨hchain, hclusters, hdir, hparent_lt, hinside, hapart, hslot⟩, hbytes, hwithin⟩ := h
  rw [← hentry] at hchain hclusters hslot hbytes hwithin
  rw [← hparent] at hdir hparent_lt
  rw [← hposition] at hinside hslot
  rw [← hcursor] at hbytes hwithin
  exact ⟨⟨hchain, hclusters, hdir, hparent_lt, hinside, hapart, hslot⟩, hbytes, hwithin⟩

theorem moved (h : Holds g s file f l dir) {p : ℕ} (hp : p ≤ file.fatDir.dirFileSize) :
    Holds g s { file with cursor := p } (f.seek p) l dir := by
  refine ⟨h.opened.moved p, ?_, hp⟩
  rw [h.bytes]
  rfl

/-- A read gets the bytes ahead. -/
theorem fread (hg : Geometry g) (h : Holds g s file f l dir) (hn : n < 2 ^ 32)
    (dataOut : ℕ → UInt8) :
    ∃ p s', fatFread g dataOut n file s =
        some (writeBytes dataOut 0 (f.ahead n), { file with cursor := p }, s') ∧
      Looked s s' ∧ Holds g s' { file with cursor := p } (f.read n) l dir := by
  obtain ⟨s', hread, hlooked⟩ := fatFread_spec hg file hn h.opened.chain (h.opened.sizeFits hg)
    h.within dataOut
  have hlen := f.length_ahead n
  rw [h.size, h.position] at hlen
  have hahead : f.ahead n = readBytes (chainByte g s.disk l) file.cursor
      (min n (file.fatDir.dirFileSize - file.cursor)) := by
    rw [h.bytes, ByteFile.ahead_readBytes]
  have hout : writeBytes dataOut 0 (f.ahead n) = fun x =>
      if x < min n (file.fatDir.dirFileSize - file.cursor) then
        chainByte g s.disk l (file.cursor + x) else dataOut x := by
    funext x
    rw [hahead]
    by_cases hx : x < min n (file.fatDir.dirFileSize - file.cursor)
    · have hlt : x < (readBytes (chainByte g s.disk l) file.cursor
          (min n (file.fatDir.dirFileSize - file.cursor))).length := by
        rwa [length_readBytes]
      have hin := writeBytes_inside (m := dataOut) (a := 0) hlt
      rw [Nat.zero_add, getD_readBytes _ _ hx] at hin
      rw [if_pos hx, hin]
    · rw [if_neg hx, writeBytes_outside (.inr (by rw [length_readBytes]; omega))]
  have hend : file.cursor + min n (file.fatDir.dirFileSize - file.cursor) ≤
      file.fatDir.dirFileSize := by
    have hwithin := h.within
    omega
  have hmoved := (h.looked hlooked.disk).moved hend
  have hsame : f.read n = f.seek (file.cursor +
      min n (file.fatDir.dirFileSize - file.cursor)) := by
    rw [ByteFile.read, ByteFile.seek, hlen, h.position]
  rw [← hsame] at hmoved
  refine ⟨_, s', ?_, hlooked, hmoved⟩
  rw [hout]
  exact hread

/-- A write for which there is room overwrites and extends the file. -/
theorem fwrite (hg : Geometry g) (hfat : 3 * g.secPerClus ≤ g.fatSz32) (h : Holds g s file f l dir)
    (hroom : Room g s.disk file n) (htaken : ∀ t ∈ s.taken, ValidCluster g t)
    (dataIn : ℕ → UInt8) :
    ∃ file' s' l', fatFwrite g dataIn n file s = some (true, file', s') ∧
      Touches g s s' file l l' dir ∧ (∀ t ∈ s'.taken, ValidCluster g t) ∧
      file'.entryPosition = file.entryPosition ∧
      file'.firstParentCluster = file.firstParentCluster ∧
      Holds g s' file' (f.write (readBytes dataIn 0 n)) l' dir := by
  have hpn := hroom.margin hg h.opened.chain
  obtain ⟨file', s', hw⟩ := hroom.fatFwrite hg hfat h.opened htaken dataIn
  obtain ⟨new, hopened, hhandle, hsize, hstored, htaken'⟩ := fatFwrite_spec hg hfat h.opened hpn hw
    fun written s₁ hloop => hroom.valid hg hfat h.opened.chain htaken hloop
  have hvalid : ∀ t ∈ s'.taken, ValidCluster g t := by
    intro t ht
    rw [htaken'] at ht
    rcases List.mem_append.mp ht with hnew | hold
    · exact hopened.chain.valid t (List.mem_append_right l (List.mem_reverse.mp hnew))
    · exact htaken t hold
  obtain ⟨new', hnew', htouch⟩ := fatFwrite_touches hg hfat h.opened hpn hw hvalid
  have hsame : new' = new :=
    List.reverse_injective (List.append_cancel_right (hnew'.symm.trans htaken'))
  rw [hsame] at htouch
  have hcursor : file'.cursor = file.cursor + n := by rw [hhandle]
  have hroom₀ := (h.opened.sizeFits hg).enough
  refine ⟨file', s', l ++ new, hw, htouch, hvalid, by rw [hhandle], by rw [hhandle],
    hopened, ?_, ?_⟩
  · have hlen : (readBytes dataIn 0 n).length = n := length_readBytes dataIn 0 n
    have henough := hstored.enough
    have hgrow : l.length * g.clusterSize ≤ (l ++ new).length * g.clusterSize := by
      apply Nat.mul_le_mul_right
      rw [List.length_append]
      omega
    have hin : ∀ j, file.cursor ≤ j → j < file.cursor + (readBytes dataIn 0 n).length →
        chainByte g s'.disk (l ++ new) j = (readBytes dataIn 0 n).getD (j - file.cursor) 0 := by
      intro j hlo hhi
      rw [hlen] at hhi
      rw [hstored.bytes j (by omega), if_pos ⟨hlo, hhi⟩, getD_readBytes _ _ (by omega),
        Nat.zero_add]
    have hout : ∀ j, j < file.fatDir.dirFileSize →
        ¬ (file.cursor ≤ j ∧ j < file.cursor + (readBytes dataIn 0 n).length) →
        chainByte g s'.disk (l ++ new) j = chainByte g s.disk l j := by
      intro j hj hout
      rw [hlen] at hout
      rw [hstored.bytes j (by omega), if_neg hout, if_pos (by omega)]
    rw [h.bytes, ByteFile.write_readBytes h.within hin hout, hlen, hsize, hcursor]
  · rw [hsize, hcursor]
    exact le_max_right _ _

/-- A file that is opened again is at its start or at its end, or empty. -/
theorem fopen (hg : Geometry g) (hfat : 3 * g.secPerClus ≤ g.fatSz32) (h : Holds g s file f l dir)
    (htaken : ∀ t ∈ s.taken, ValidCluster g t) {rootDir : FatFile} {path : List UInt8}
    (hnames : NamesFile g s file rootDir path) (uninitialized : DirEntry) (mode : OpenMode) :
    ∃ file' s' l', fatFopen g uninitialized rootDir path mode s = some (true, file', s') ∧
      Touches g s s' file l l' dir ∧ (∀ t ∈ s'.taken, ValidCluster g t) ∧ Same file file' ∧
      Holds g s' file' (mode.reopen f) l' dir := by
  obtain ⟨r, s₁, hfind, hfound, hparent, hposition, hentry⟩ := hnames
  have hlooked := fatFind_looks hfind
  have hcursor := fatFind_cursor hfind
  have hstart : Holds g s₁ r.fileOut (f.seek 0) l dir :=
    ((h.moved (Nat.zero_le _)).looked hlooked.disk).of_fields hentry hparent hposition hcursor
  have htaken₁ : ∀ t ∈ s₁.taken, ValidCluster g t := by
    rw [hlooked.taken]
    exact htaken
  have hlooks := touches_same h.opened hlooked.disk hlooked.taken
  unfold fatFopen
  rw [hfind, Option.bind_eq_bind, Option.bind_some]
  dsimp only
  rw [hfound]
  cases mode with
  | read => exact ⟨r.fileOut, s₁, l, rfl, hlooks, htaken₁, ⟨hposition, hparent⟩, hstart⟩
  | append =>
      have hsize : fatFseekEnd r.fileOut 0 =
          { r.fileOut with cursor := r.fileOut.fatDir.dirFileSize } := by
        rw [fatFseekEnd, Nat.add_zero, u32_of_lt (DirEntry.dirFileSize_lt _)]
      have hmoved : Holds g s₁ (fatFseekEnd r.fileOut 0) (OpenMode.append.reopen f) l dir := by
        rw [hsize, OpenMode.reopen, h.size, ← hentry]
        exact hstart.moved (le_refl _)
      exact ⟨_, s₁, l, rfl, hlooks, htaken₁, ⟨hposition, hparent⟩, hmoved⟩
  | write =>
      obtain ⟨s', hcut, hopened, htouch⟩ := truncateFile_touches hg hfat hstart.opened
      have hsize : (r.fileOut.fatDir.setFileSize 0).dirFileSize = 0 :=
        (DirEntry.dirFileSize_setFileSize _ _).trans (Nat.zero_mod _)
      dsimp only
      rw [if_pos rfl, hcut]
      refine ⟨_, s', _, rfl, htouch.of_same hlooked.disk hlooked.taken hposition hparent, ?_,
        ⟨hposition, hparent⟩, hopened, ?_, ?_⟩
      · intro t ht
        rcases htouch.taken t ht with hold | hown
        · exact htaken₁ t hold
        · exact hopened.chain.valid t hown
      · dsimp only
        rw [hsize, hcursor]
        rfl
      · dsimp only
        rw [hsize, hcursor]

/-- One call on one file. -/
theorem perform (hg : Geometry g) (hfat : 3 * g.secPerClus ≤ g.fatSz32) (h : Holds g s file f l dir)
    (htaken : ∀ t ∈ s.taken, ValidCluster g t) {op : FileOp} (hneeds : op.Needs g file s) :
    ∃ result s' l', op.perform g file s = some ((op.onBytes f).1, result, s') ∧
      Touches g s s' file l l' dir ∧ (∀ t ∈ s'.taken, ValidCluster g t) ∧
      Option.Rel (fun file' f' => Same file file' ∧ Holds g s' file' f' l' dir) result
        (op.onBytes f).2 := by
  cases op with
  | fread dataOut dataSize =>
      obtain ⟨p, s', hread, hlooked, hholds⟩ := h.fread hg hneeds dataOut
      refine ⟨some { file with cursor := p }, s', l, ?_,
        touches_same h.opened hlooked.disk hlooked.taken, ?_, .some ⟨⟨rfl, rfl⟩, hholds⟩⟩
      · rw [FileOp.perform, hread]
        rfl
      · rw [hlooked.taken]
        exact htaken
  | fwrite dataIn dataSize =>
      obtain ⟨file', s', l', hwrite, htouch, htaken', hposition, hparent, hholds⟩ :=
        h.fwrite hg hfat hneeds htaken dataIn
      refine ⟨_, s', l', ?_, htouch, htaken', .some ⟨⟨hposition, hparent⟩, hholds⟩⟩
      rw [FileOp.perform, hwrite]
      rfl
  | fseek offset origin =>
      obtain ⟨hlo, hhi⟩ := hneeds
      refine ⟨_, s, l, rfl, touches_same h.opened rfl rfl, htaken, .some ?_⟩
      have hsize := DirEntry.dirFileSize_lt file.fatDir
      rw [fatFseek_target hlo (by omega), h.position, h.size]
      exact ⟨⟨rfl, rfl⟩, h.moved (by omega)⟩
  | ftell =>
      refine ⟨_, s, l, ?_, touches_same h.opened rfl rfl, htaken, .some ⟨⟨rfl, rfl⟩, h⟩⟩
      rw [FileOp.perform, FileOp.onBytes, fatFtell, h.position]
  | fopen uninitialized rootDir path mode =>
      obtain ⟨file', s', l', hopen, htouch, htaken', hsame, hholds⟩ :=
        h.fopen hg hfat htaken hneeds uninitialized mode
      refine ⟨_, s', l', ?_, htouch, htaken', .some ⟨hsame, hholds⟩⟩
      rw [FileOp.perform, hopen]
      rfl
  | fremove uninitialized =>
      obtain ⟨file', s', hremove, -, -, htouch⟩ :=
        fatFremove_touches hg hfat h.opened hneeds uninitialized
      refine ⟨none, s', [], ?_, htouch, ?_, .none⟩
      · rw [FileOp.perform, hremove]
        rfl
      · intro t ht
        exact (htouch.taken t ht).elim (htaken t) fun hnot => absurd hnot List.not_mem_nil

end Holds

/-! ## All files -/

/-- The open files of the volume are those of `t`, and each has clusters and a slot of its
own. -/
structure Represents {ι : Type} (g : Bpb) (c : Store ι) (t : ByteFiles ι) (chain dir : ι → List ℕ) :
    Prop where
  holds : ∀ i, Option.Rel (fun file f => Holds g c.state file f (chain i) (dir i)) (c.handle i) (t i)
  apart : ∀ i j file other, i ≠ j → c.handle i = some file → c.handle j = some other →
    Apart file (chain i) (dir i) other (chain j) (dir j)
  taken : ∀ t ∈ c.state.taken, ValidCluster g t

section

variable {ι : Type} {c : Store ι} {t : ByteFiles ι} {chain dirs : ι → List ℕ} {i : ι}

theorem Represents.opened (h : Represents g c t chain dirs) (hi : c.handle i = some file) :
    OpenFile g c.state file (chain i) (dirs i) := by
  have hholds := h.holds i
  rw [hi] at hholds
  generalize t i = own at hholds
  cases hholds with
  | some hholds => exact hholds.opened

variable [DecidableEq ι]

/-- A call on one file leaves the others what they are. -/
theorem Represents.update (hg : Geometry g) (h : Represents g c t chain dirs)
    (hi : c.handle i = some file) {result : Option FatFile} {f' : Option ByteFile}
    (htouch : Touches g c.state s' file (chain i) l (dirs i))
    (htaken : ∀ t ∈ s'.taken, ValidCluster g t)
    (hown : Option.Rel (fun file' f => Same file file' ∧ Holds g s' file' f l (dirs i)) result f') :
    Represents g ⟨s', Function.update c.handle i result⟩ (Function.update t i f')
      (Function.update chain i l) dirs := by
  have hopened := h.opened hi
  -- the file and another one
  have hpair : ∀ j file' other, j ≠ i → result = some file' → c.handle j = some other →
      Apart file' l (dirs i) other (chain j) (dirs j) := by
    intro j file' other hji hresult hj
    have hapart := htouch.apart hg (h.opened hj) (h.apart i j file other (Ne.symm hji) hi hj)
    rw [hresult] at hown
    cases hown with
    | some hown => exact hapart.of_position hown.1.position
  refine ⟨?_, ?_, htaken⟩
  · intro j
    dsimp only
    by_cases hji : j = i
    · subst hji
      rw [Function.update_self, Function.update_self, Function.update_self]
      cases hown with
      | some hown => exact .some hown.2
      | none => exact .none
    · rw [Function.update_of_ne hji, Function.update_of_ne hji, Function.update_of_ne hji]
      have hj := h.holds j
      generalize hother : c.handle j = other at hj
      generalize t j = own at hj
      cases hj with
      | none => exact .none
      | some hj =>
          obtain ⟨hopened', hbytes⟩ :=
            htouch.others hg hopened hj.opened (h.apart i j _ _ (Ne.symm hji) hi hother)
          exact .some (hj.congr hg hopened' hbytes)
  · intro j k file₁ file₂ hjk hj hk
    dsimp only at hj hk
    by_cases hji : j = i
    · subst hji
      have hkj : k ≠ j := Ne.symm hjk
      rw [Function.update_self] at hj
      rw [Function.update_of_ne hkj] at hk
      rw [Function.update_self, Function.update_of_ne hkj]
      exact hpair k file₁ file₂ hkj hj hk
    · rw [Function.update_of_ne hji] at hj
      rw [Function.update_of_ne hji]
      by_cases hki : k = i
      · subst hki
        rw [Function.update_self] at hk ⊢
        exact (hpair j file₂ file₁ hji hk hj).symm
      · rw [Function.update_of_ne hki] at hk ⊢
        exact h.apart j k file₁ file₂ hjk hj hk

/-- A volume with open files serves calls like files of bytes. -/
theorem store_simulates (hg : Geometry g) (hfat : 3 * g.secPerClus ≤ g.fatSz32)
    (dirs : ι → List ℕ) :
    Simulates (Store.call g) onFiles (Store.Served g) fun (c : Store ι) t =>
      ∃ chain, Represents g c t chain dirs := by
  rintro c t ⟨i, op⟩ ⟨chain, h⟩ ⟨file, hfile, hneeds⟩
  have hholds := h.holds i
  dsimp only at hfile hneeds
  rw [hfile] at hholds
  generalize hti : t i = own at hholds
  cases hholds with
  | some hholds =>
      obtain ⟨result, s', l', hperform, htouch, htaken, hown⟩ := hholds.perform hg hfat h.taken hneeds
      refine ⟨_, _, _, ?_, ByteFiles.on_some hti _, _, h.update hg hfile htouch htaken hown⟩
      unfold Store.call
      dsimp only
      rw [hfile, Option.bind_eq_bind, Option.bind_some, hperform]
      rfl

/-- Any calls on the open files of a volume, in any order, are answered as by independent
files of bytes: a file sees its own writes, truncations and seeks, and nothing of the
others. -/
theorem serve_store_eq_files (hg : Geometry g) (hfat : 3 * g.secPerClus ≤ g.fatSz32)
    (h : Represents g c t chain dirs) {calls : List (ι × FileOp)}
    (hserved : Admitted (Store.call g) (Store.Served g) c calls) :
    ∃ answers c' t', serve (Store.call g) c calls = some (answers, c') ∧
      serve onFiles t calls = some (answers, t') ∧ ∃ chain', Represents g c' t' chain' dirs :=
  (store_simulates hg hfat dirs).run ⟨chain, h⟩ hserved

end

/-! ## Two files -/

/-- Two files in the root directory, one in cluster 3 and one in cluster 4. -/
def twoFiles : Store ℕ where
  state := { smallState with
    disk := writeBytes (storeFat (storeFat (storeFat (fun _ => 0) 2 0x0FFFFFFF) 3 0x0FFFFFFF) 4
        0x0FFFFFFF) (smallVolume.clusterOffset 2)
      (smallEntry.bytes ++ ((DirEntry.zero.setFstClusLO 4).setFileSize 20).bytes) }
  handle
    | 0 => some { fatFileDefault with fatDir := smallEntry, firstParentCluster := 2 }
    | 1 => some { fatFileDefault with
        fatDir := (DirEntry.zero.setFstClusLO 4).setFileSize 20
        firstParentCluster := 2
        entryPosition := 32 }
    | _ => none

theorem twoFiles_cluster {c : ℕ} (hlo : 2 ≤ c) (hhi : c < 11)
    (hmark : fatEntry smallVolume twoFiles.state.disk c = 0x0FFFFFFF) :
    FileChain smallVolume twoFiles.state.disk c [c] where
  chain := by
    apply LinkedChain.last
    rw [hmark]
    exact ⟨by decide, by decide⟩
  valid := by
    intro x hx
    rw [List.mem_singleton.mp hx]
    exact ⟨hlo, hhi⟩

theorem twoFiles_open {i : ℕ} {file : FatFile} (hfile : twoFiles.handle i = some file) :
    OpenFile smallVolume twoFiles.state file [i + 3] [2] := by
  match i with
  | 0 =>
      cases hfile
      refine ⟨twoFiles_cluster (by decide) (by decide) (by decide +kernel), by decide +kernel,
        twoFiles_cluster (by decide) (by decide) (by decide +kernel), by decide, by decide +kernel,
        by decide, DirEntry.ext_buffer (by decide +kernel)⟩
  | 1 =>
      cases hfile
      refine ⟨twoFiles_cluster (by decide) (by decide) (by decide +kernel), by decide +kernel,
        twoFiles_cluster (by decide) (by decide) (by decide +kernel), by decide, by decide +kernel,
        by decide, DirEntry.ext_buffer (by decide +kernel)⟩

/-- The bytes of the two files. -/
def twoFilesBytes : ByteFiles ℕ := fun i => (twoFiles.handle i).map fun file =>
  ⟨readBytes (chainByte smallVolume twoFiles.state.disk [i + 3]) 0 file.fatDir.dirFileSize,
    file.cursor⟩

theorem twoFiles_represents : Represents smallVolume twoFiles twoFilesBytes
    (fun i => [i + 3]) (fun _ => [2]) where
  holds
    | 0 => .some ⟨twoFiles_open rfl, rfl, Nat.zero_le _⟩
    | 1 => .some ⟨twoFiles_open rfl, rfl, Nat.zero_le _⟩
    | _ + 2 => .none
  apart
    | 0, 0, _, _, hij, _, _ => absurd rfl hij
    | 1, 1, _, _, hij, _, _ => absurd rfl hij
    | 0, 1, file, other, _, hi, hj => by
        cases hi
        cases hj
        exact ⟨by decide, by decide, by decide, .inr ⟨rfl, by decide⟩⟩
    | 1, 0, file, other, _, hi, hj => by
        cases hi
        cases hj
        exact ⟨by decide, by decide, by decide, .inr ⟨rfl, by decide⟩⟩
  taken t ht := absurd ht List.not_mem_nil

/-- One file is written and the other one read, before the first one is removed. -/
theorem serve_store_eq_files_two : ∃ answers c' t',
    serve (Store.call smallVolume) twoFiles [(0, .fwrite (fun _ => 0x41) 10),
      (1, .fread (fun _ => 0) 4), (0, .fremove .zero)] = some (answers, c') ∧
    serve onFiles twoFilesBytes [(0, .fwrite (fun _ => 0x41) 10),
      (1, .fread (fun _ => 0) 4), (0, .fremove .zero)] = some (answers, t') ∧
    ∃ chain', Represents smallVolume c' t' chain' fun _ => [2] := by
  apply serve_store_eq_files smallVolume_geometry (by decide) twoFiles_represents
  refine ⟨⟨_, rfl, room_smallVolume _ (by decide)⟩, ?_⟩
  intro b₁ c₁ h₁
  have hplain : (twoFiles.call smallVolume (0, .fwrite (fun _ => 0x41) 10)).map
      (fun r => (r.2.handle 0).map FatFile.lfnPresent) = some (some false) := by
    decide +kernel
  rw [h₁, Option.map_some, Option.some_inj] at hplain
  obtain ⟨file, hfile, hfile'⟩ := Option.map_eq_some_iff.mp hplain
  refine ⟨⟨_, Store.call_other h₁ (by decide), show 4 < 2 ^ 32 by decide⟩, ?_⟩
  intro b₂ c₂ h₂
  refine ⟨⟨file, (Store.call_other h₂ (by decide)).trans hfile, hfile'⟩, fun _ _ _ => trivial⟩

end Neos.Fat
