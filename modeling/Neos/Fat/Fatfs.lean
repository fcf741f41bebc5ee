import Neos.Fat.Store
import Neos.Kernel.CLib
import Neos.Vfs.FileDriver

/-!
# Reading and writing through `fatfs.c`

The driver keeps a state block for every open file, with the handle of `fat.c` in it, and
works on this handle.  On files of bytes its results are the numbers of bytes
transferred and the position.
-/

namespace Neos.Fat

open ByteRange Simulation Vfs

variable {g : Bpb} {c : Store ℕ} {file : FatFile} {f : ByteFile} {t : ByteFiles ℕ}
  {dirs : ℕ → Option FatFile} {vref : VRef} {size : ℕ}

/-- `LINUX_EISDIR`. -/
def linuxEisdir : ℤ := 21

/-! ## The functions of `fatfs.c` -/

/-- The value that a call of `fat.c` returns. -/
def FileAnswer.value : FileAnswer → ℤ
  | .read _ => 1
  | .code result => result

/-- What a driver operation does: it makes calls on the handles in state blocks.  The
handles of directories are kept apart, by the addresses of their state blocks. -/
abbrev FatfsPlan := Plan (ℕ × FileOp) FileAnswer (Transfer × (ℕ → Option FatFile))

/-- `fatfs_read`. -/
def fatfsRead (vref : VRef) (buffer : ℕ → UInt8) (size : ℕ) (dirs : ℕ → Option FatFile) :
    FatfsPlan :=
  match dirs vref.state with
  | some _ => .answer (⟨-linuxEisdir, some buffer⟩, dirs)
  | none =>
      .call (vref.state, .ftell) fun cursor =>
        .call (vref.state, .fread buffer size) fun answer =>
          match answer with
          | .read out => .call (vref.state, .ftell) fun told =>
              .answer (⟨wrapInt (told.value - cursor.value), some out⟩, dirs)
          | .code _ => .answer (⟨-linuxEio, some buffer⟩, dirs)

/-- `fatfs_write`. -/
def fatfsWrite (vref : VRef) (buffer : ℕ → UInt8) (size : ℕ) (dirs : ℕ → Option FatFile) :
    FatfsPlan :=
  match dirs vref.state with
  | some _ => .answer (⟨-linuxEisdir, none⟩, dirs)
  | none =>
      .call (vref.state, .ftell) fun cursor =>
        .call (vref.state, .fwrite buffer size) fun answer =>
          if answer.value ≠ 0 then
            .call (vref.state, .ftell) fun told =>
              .answer (⟨wrapInt (told.value - cursor.value), none⟩, dirs)
          else .answer (⟨-linuxEio, none⟩, dirs)

/-- `fatfs_seek`; on a directory it does not call `fat_fseek`. -/
def fatfsSeekPlan (vref : VRef) (offset whence : ℤ) (dirs : ℕ → Option FatFile) : FatfsPlan :=
  match dirs vref.state with
  | some dir =>
      let sought := fatfsSeek ⟨true, dir⟩ offset whence
      .answer (⟨sought.1, none⟩, Function.update dirs vref.state (some sought.2.file))
  | none =>
      .call (vref.state, .fseek offset whence) fun answer =>
        if answer.value ≠ 0 then
          .call (vref.state, .ftell) fun told => .answer (⟨told.value, none⟩, dirs)
        else .answer (⟨-linuxEio, none⟩, dirs)

/-- The driver. -/
def fatfs : FileDriver (ℕ → Option FatFile) (ℕ × FileOp) FileAnswer where
  read := fatfsRead
  write := fatfsWrite
  seek := fatfsSeekPlan

/-! ## On a volume -/

/-- A call behind a look at the position. -/
theorem admits_told {op : FileOp} {next : FileAnswer → FileAnswer → FatfsPlan}
    (h : c.handle vref.state = some file) (hneeds : op.Needs g file c.state)
    (hkept : ∀ uninitialized, op ≠ .fremove uninitialized)
    (hnext : ∀ cursor answer c' file', c'.handle vref.state = some file' →
      (next cursor answer).Admits (Store.call g) (Store.Served g) c') :
    Plan.Admits (Store.call g) (Store.Served g)
      (.call (vref.state, .ftell) fun cursor =>
        .call (vref.state, op) fun answer => next cursor answer) c := by
  refine ⟨⟨file, h, trivial⟩, ?_⟩
  intro b c₁ htold
  rw [Store.call_ftell h] at htold
  cases htold
  refine ⟨⟨file, h, hneeds⟩, ?_⟩
  intro answer c' hcall
  obtain ⟨file', hfile'⟩ := Store.call_kept hcall hkept
  exact hnext _ _ c' file' hfile'

theorem admits_fatfsRead (h : dirs vref.state = none → ∃ file, c.handle vref.state = some file)
    (buffer : ℕ → UInt8) (hsize : size < 2 ^ 32) :
    (fatfsRead vref buffer size dirs).Admits (Store.call g) (Store.Served g) c := by
  unfold fatfsRead
  split
  · trivial
  · next hfile =>
      obtain ⟨file, hopen⟩ := h hfile
      have hneeds : (FileOp.fread buffer size).Needs g file c.state := hsize
      refine admits_told hopen hneeds nofun ?_
      intro cursor answer c' file' hfile'
      cases answer with
      | read out => exact ⟨⟨file', hfile', trivial⟩, fun _ _ _ => trivial⟩
      | code result => trivial

theorem admits_fatfsWrite (h : dirs vref.state = none → ∃ file, c.handle vref.state = some file ∧
    Room g c.state.disk file size) (buffer : ℕ → UInt8) :
    (fatfsWrite vref buffer size dirs).Admits (Store.call g) (Store.Served g) c := by
  unfold fatfsWrite
  split
  · trivial
  · next hfile =>
      obtain ⟨file, hopen, hroom⟩ := h hfile
      have hneeds : (FileOp.fwrite buffer size).Needs g file c.state := hroom
      refine admits_told hopen hneeds nofun ?_
      intro cursor answer c' file' hfile'
      split
      · exact ⟨⟨file', hfile', trivial⟩, fun _ _ _ => trivial⟩
      · trivial

theorem admits_fatfsSeekPlan {offset whence : ℤ}
    (h : dirs vref.state = none → ∃ file, c.handle vref.state = some file ∧
      0 ≤ target file.cursor file.fatDir.dirFileSize offset whence ∧
      target file.cursor file.fatDir.dirFileSize offset whence ≤ file.fatDir.dirFileSize) :
    (fatfsSeekPlan vref offset whence dirs).Admits (Store.call g) (Store.Served g) c := by
  unfold fatfsSeekPlan
  split
  · trivial
  · next hfile =>
      obtain ⟨file, hopen, hneeds⟩ := h hfile
      refine ⟨⟨file, hopen, hneeds⟩, ?_⟩
      intro answer c' hcall
      obtain ⟨file', hfile'⟩ := Store.call_kept hcall nofun
      dsimp only
      split
      · exact ⟨⟨file', hfile', trivial⟩, fun _ _ _ => trivial⟩
      · trivial

/-! ## On files of bytes -/

theorem onFiles_ftell (h : t vref.state = some f) :
    onFiles t (vref.state, .ftell) = some (.code (intOfUnsigned f.position), t) := by
  rw [onFiles, ByteFiles.on_some h, FileOp.onBytes]
  dsimp only
  rw [← h, Function.update_eq_self]

/-- The difference of two positions. -/
theorem wrapInt_told {p n : ℕ} (hn : n < 2 ^ 31) :
    wrapInt (intOfUnsigned (p + n) - intOfUnsigned p) = n := by
  unfold wrapInt toWord toInt intOfUnsigned
  split <;>
    split <;>
    split <;>
    omega

/-- A read returns the number of bytes it got. -/
theorem perform_fatfsRead (hfile : dirs vref.state = none) (h : t vref.state = some f)
    (buffer : ℕ → UInt8) (hsize : size < 2 ^ 31) :
    (fatfsRead vref buffer size dirs).perform onFiles t =
      some ((⟨(f.ahead size).length, some (writeBytes buffer 0 (f.ahead size))⟩, dirs),
        Function.update t vref.state (some (f.read size))) := by
  have hlen := f.length_ahead size
  have hread : onFiles t (vref.state, .fread buffer size) =
      some (.read (writeBytes buffer 0 (f.ahead size)),
        Function.update t vref.state (some (f.read size))) := ByteFiles.on_some h _
  rw [fatfsRead, hfile]
  dsimp only
  rw [Plan.perform_call (onFiles_ftell h), Plan.perform_call hread]
  dsimp only
  rw [Plan.perform_call (onFiles_ftell (Function.update_self ..)), Plan.perform]
  unfold FileAnswer.value ByteFile.read
  dsimp only
  rw [wrapInt_told (by omega)]

/-- A write returns the number of bytes it was given. -/
theorem perform_fatfsWrite (hfile : dirs vref.state = none) (h : t vref.state = some f)
    (buffer : ℕ → UInt8) (hsize : size < 2 ^ 31) :
    (fatfsWrite vref buffer size dirs).perform onFiles t =
      some ((⟨size, none⟩, dirs),
        Function.update t vref.state (some (f.write (readBytes buffer 0 size)))) := by
  have hwrite : onFiles t (vref.state, .fwrite buffer size) =
      some (.code 1, Function.update t vref.state (some (f.write (readBytes buffer 0 size)))) :=
    ByteFiles.on_some h _
  rw [fatfsWrite, hfile]
  dsimp only
  rw [Plan.perform_call (onFiles_ftell h), Plan.perform_call hwrite, if_pos (by decide)]
  rw [Plan.perform_call (onFiles_ftell (Function.update_self ..)), Plan.perform]
  unfold FileAnswer.value ByteFile.write
  dsimp only
  rw [length_readBytes, wrapInt_told hsize]

/-- A seek returns the new position. -/
theorem perform_fatfsSeekPlan (hfile : dirs vref.state = none) (h : t vref.state = some f)
    {offset whence : ℤ} (hlo : 0 ≤ target f.position f.size offset whence)
    (hhi : target f.position f.size offset whence < 2 ^ 31) :
    (fatfsSeekPlan vref offset whence dirs).perform onFiles t =
      some ((⟨target f.position f.size offset whence, none⟩, dirs),
        Function.update t vref.state
          (some (f.seek (target f.position f.size offset whence).toNat))) := by
  have hseek : onFiles t (vref.state, .fseek offset whence) =
      some (.code 1, Function.update t vref.state
        (some (f.seek (target f.position f.size offset whence).toNat))) := ByteFiles.on_some h _
  rw [fatfsSeekPlan, hfile]
  dsimp only
  rw [Plan.perform_call hseek, if_pos (by decide)]
  rw [Plan.perform_call (onFiles_ftell (Function.update_self ..)), Plan.perform]
  unfold FileAnswer.value ByteFile.seek intOfUnsigned
  dsimp only
  rw [if_pos (by omega), Int.toNat_of_nonneg hlo]

end Neos.Fat
