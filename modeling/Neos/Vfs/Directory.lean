import Neos.Vfs.Model

/-!
# Listing a directory

The entries `vfs_list` returns one at a time, and `vfs_seek`, which moves the
position of a listing.  Neither changes the reference.
-/

namespace Neos.Vfs

variable {W : Type}

/-- `vEntryType`. -/
inductive VEntryType
  | unknown
  | fifo
  | chr
  | dir
  | blk
  | reg
  | lnk
  | sock
  | wht
deriving DecidableEq

/-- The value of the constant. -/
def VEntryType.code : VEntryType → UInt8
  | .unknown => 0
  | .fifo => 1
  | .chr => 2
  | .dir => 4
  | .blk => 6
  | .reg => 8
  | .lnk => 10
  | .sock => 12
  | .wht => 14

/-- `vEntry`. -/
structure VEntry where
  seekOffset : ℕ
  nameLength : ℕ
  name : CString
  type : VEntryType
deriving DecidableEq

/-- The operations of `FilesystemDriver` that list a directory: `list` with room
for one entry, and `seek` from the start.  `list` returns the number of entries
or an error, and what the buffer for the entry holds. -/
structure DirectoryOps (W : Type) where
  list : VRef → W → ℤ × VEntry × W
  seek : VRef → ℤ → W → ℤ × W

/-- `vfs_list` with room for one entry; without a driver the buffer keeps what
it held. -/
def vfsList (ops : ℕ → DirectoryOps W) (vref : VRef) (buffer : VEntry) (w : W) : ℤ × VEntry × W :=
  match vref.driver with
  | some driver => (ops driver).list vref w
  | none => (0, buffer, w)

/-- `vfs_seek` with `SEEK_SET`. -/
def vfsSeek (ops : ℕ → DirectoryOps W) (vref : VRef) (offset : ℤ) (w : W) : ℤ × W :=
  match vref.driver with
  | some driver => (ops driver).seek vref offset w
  | none => (0, w)

end Neos.Vfs
