import Mathlib.Algebra.Group.Nat.Defs
import Mathlib.Data.Nat.Notation

/-!
# The floppy driver of `floppy.c`

The driver cuts a range of bytes into sectors and transfers these one by one.
The controller is an ideal one: it transfers each of the 2880 sectors of the
disk faithfully and fails for any other cylinder, head and sector.  The triples
it was asked for are recorded.
-/

namespace Neos.Floppy

/-- Some bytes in memory, by their index. -/
abbrev Buffer := ℕ → UInt8

/-- `FLOPPY_144_SECTORS_PER_TRACK`. -/
def sectorsPerTrack : ℕ := 18

/-- The number of bytes on the disk. -/
def diskSize : ℕ := 1474560

/-- A cylinder, a head and a sector of it, each a `uint8_t`. -/
structure Chs where
  cylinder : ℕ
  head : ℕ
  sector : ℕ
deriving DecidableEq

/-- `lba_to_chs`. -/
def lbaToChs (lba : ℕ) : Chs where
  cylinder := lba / (2 * sectorsPerTrack) % 2 ^ 8
  head := lba % (2 * sectorsPerTrack) / sectorsPerTrack % 2 ^ 8
  sector := (lba % (2 * sectorsPerTrack) % sectorsPerTrack + 1) % 2 ^ 8

/-- A triple that names a sector of the disk. -/
def Chs.OnDisk (chs : Chs) : Prop :=
  chs.cylinder < 80 ∧ chs.head < 2 ∧ 1 ≤ chs.sector ∧ chs.sector ≤ 18

instance (chs : Chs) : Decidable chs.OnDisk := inferInstanceAs (Decidable (_ ∧ _))

/-- The disk in its drive: the contents of the sectors, and the triples the
controller was asked for. -/
structure Drive where
  sectors : Chs → Buffer
  touched : List Chs

/-- The byte of the disk at an address. -/
def Drive.byteAt (d : Drive) (address : ℕ) : UInt8 :=
  d.sectors (lbaToChs (address / 512)) (address % 512)

/-- Note that a sector was asked for. -/
def Drive.touch (d : Drive) (chs : Chs) : Drive := { d with touched := d.touched ++ [chs] }

/-- `floppy_read_sector` with an ideal controller. -/
def floppyReadSector (chs : Chs) (buffer : Buffer) (d : Drive) : Bool × Buffer × Drive :=
  if chs.OnDisk then
    (true, fun i => if i < 512 then d.sectors chs i else buffer i, d.touch chs)
  else (false, buffer, d.touch chs)

/-- `floppy_write_sector` with an ideal controller. -/
def floppyWriteSector (chs : Chs) (buffer : Buffer) (d : Drive) : Bool × Drive :=
  if chs.OnDisk then
    (true,
      { d.touch chs with
        sectors := fun other i => if other = chs ∧ i < 512 then buffer i else d.sectors other i })
  else (false, d.touch chs)

/-- `floppy_read_lba`. -/
def floppyReadLba (lba : ℕ) (buffer : Buffer) (d : Drive) : Bool × Buffer × Drive :=
  floppyReadSector (lbaToChs lba) buffer d

/-- `floppy_write_lba`. -/
def floppyWriteLba (lba : ℕ) (buffer : Buffer) (d : Drive) : Bool × Drive :=
  floppyWriteSector (lbaToChs lba) buffer d

/-- A loop that copies bytes from one index on to another. -/
def copyBytes (src : Buffer) : ℕ → ℕ → ℕ → Buffer → Buffer
  | 0, _, _, dst => dst
  | left + 1, source, target, dst =>
      copyBytes src left (source + 1) (target + 1) fun i => if i = target then src source else dst i

/-- The end of a range; addresses are `uint32_t`. -/
def rangeEnd (address size : ℕ) : ℕ := (address + size) % 2 ^ 32

/-- Where the range starts in a sector. -/
def startIn (address lba : ℕ) : ℕ := if lba = address / 512 then address % 512 else 0

/-- Where the range ends in a sector. -/
def endIn (address size lba : ℕ) : ℕ :=
  if lba = rangeEnd address size / 512 then rangeEnd address size % 512 else 512

/-- The loop of `floppy_read`; the number of sectors left includes the last one. -/
def readLoop (address size : ℕ) :
    ℕ → ℕ → ℕ → Buffer → Buffer → Drive → Bool × Buffer × Drive
  | 0, _, _, _, buffer, d => (true, buffer, d)
  | left + 1, lba, outputBufferIndex, tmpBuffer, buffer, d =>
      let read := floppyReadLba lba tmpBuffer d
      if read.1 = false then (false, buffer, read.2.2)
      else
        let start := startIn address lba
        let stop := endIn address size lba
        readLoop address size left (lba + 1) (outputBufferIndex + (stop - start)) read.2.1
          (copyBytes read.2.1 (stop - start) start outputBufferIndex buffer) read.2.2

/-- `floppy_read`; the buffer on the stack starts with arbitrary contents. -/
def floppyRead (buffer : Buffer) (address size : ℕ) (tmpBuffer : Buffer) (d : Drive) :
    Bool × Buffer × Drive :=
  readLoop address size (rangeEnd address size / 512 + 1 - address / 512) (address / 512) 0 tmpBuffer
    buffer d

/-- The loop of `floppy_write`. -/
def writeLoop (buffer : Buffer) (address size : ℕ) (preserve : Bool) :
    ℕ → ℕ → ℕ → Buffer → Drive → Bool × Drive
  | 0, _, _, _, d => (true, d)
  | left + 1, lba, inputBufferIndex, tmpBuffer, d =>
      let read := if preserve then floppyReadLba lba tmpBuffer d else (true, tmpBuffer, d)
      if read.1 = false then (false, read.2.2)
      else
        let start := startIn address lba
        let stop := endIn address size lba
        let filled := copyBytes buffer (stop - start) inputBufferIndex start read.2.1
        let written := floppyWriteLba lba filled read.2.2
        if written.1 = false then (false, written.2)
        else
          writeLoop buffer address size preserve left (lba + 1)
            (inputBufferIndex + (stop - start)) filled written.2

/-- `floppy_write`; the buffer on the stack starts with arbitrary contents. -/
def floppyWrite (buffer : Buffer) (address size : ℕ) (preserve : Bool) (tmpBuffer : Buffer)
    (d : Drive) : Bool × Drive :=
  writeLoop buffer address size preserve (rangeEnd address size / 512 + 1 - address / 512)
    (address / 512) 0 tmpBuffer d

end Neos.Floppy
