import Neos.Library.Simulation
import Neos.Vfs.Model

/-!
# Reading and writing through a driver

The operations of a driver on the contents of a file are plans: they make calls of the
file system behind the driver and return a result.  `K` is what the driver keeps in
memory.
-/

namespace Neos.Vfs

open Simulation

/-- `LINUX_EINVAL`, for a `whence` that is none of the three. -/
def badWhence : ℤ := 22

/-- The value that an operation returns, and what a read leaves in the buffer. -/
structure Transfer where
  result : ℤ
  buffer : Option (ℕ → UInt8)

/-- The operations `read`, `write` and `seek` of `FilesystemDriver`. -/
structure FileDriver (K α β : Type) where
  read : VRef → (ℕ → UInt8) → ℕ → K → Plan α β (Transfer × K)
  write : VRef → (ℕ → UInt8) → ℕ → K → Plan α β (Transfer × K)
  seek : VRef → ℤ → ℤ → K → Plan α β (Transfer × K)

variable {K α β : Type}

/-- `vfs_read`. -/
def vfsRead (drivers : ℕ → FileDriver K α β) (vref : VRef) (buffer : ℕ → UInt8) (size : ℕ) (k : K) :
    Plan α β (Transfer × K) :=
  match vref.driver with
  | some driver => (drivers driver).read vref buffer size k
  | none => .answer (⟨0, some buffer⟩, k)

/-- `vfs_write`. -/
def vfsWrite (drivers : ℕ → FileDriver K α β) (vref : VRef) (buffer : ℕ → UInt8) (size : ℕ)
    (k : K) : Plan α β (Transfer × K) :=
  match vref.driver with
  | some driver => (drivers driver).write vref buffer size k
  | none => .answer (⟨0, none⟩, k)

/-- `vfs_seek`, from any of the three places. -/
def vfsSeekFrom (drivers : ℕ → FileDriver K α β) (vref : VRef) (offset whence : ℤ) (k : K) :
    Plan α β (Transfer × K) :=
  if whence ≠ 1 ∧ whence ≠ 2 ∧ whence ≠ 0 then .answer (⟨-badWhence, none⟩, k)
  else
    match vref.driver with
    | some driver => (drivers driver).seek vref offset whence k
    | none => .answer (⟨0, none⟩, k)

end Neos.Vfs
