import Neos.Kernel.CLib
import Neos.Library.ByteRange

/-!
# The program loader of `rivendell.c`

`elf_load` reads the headers of a file, collects the loadable segments in a
table, allocates one block for all of them and copies each to its place.  The
file and the heap are parameters.  Everything stored through a pointer that
`kmalloc` returned is recorded; the contents of the segment table are kept as a
list.

A local variable that is read from the file keeps its indeterminate contents
where the file delivers less than asked for.
-/

namespace Neos

open BitMemory ByteRange

namespace Elf

/-! ## `rivendell.h` and constants -/

/-- `ELF_SUCCESS`. -/
def elfSuccess : ℤ := 0

/-- `ELF_READ_ERROR`. -/
def elfReadError : ℤ := -1

/-- `ELF_IDENT_ERROR`. -/
def elfIdentError : ℤ := -2

/-- `ELF_WRONG_MACHINE_ERROR`. -/
def elfWrongMachineError : ℤ := -3

/-- `ELF_HEADER_ERROR`. -/
def elfHeaderError : ℤ := -4

/-- `ELFCLASS32`. -/
def elfClass32 : ℕ := 1

/-- `ELFDATA2LSB`. -/
def elfData2Lsb : ℕ := 1

/-- `EM_NONE`. -/
def emNone : ℕ := 0

/-- `EM_386`. -/
def em386 : ℕ := 3

/-- `PT_LOAD`. -/
def ptLoad : ℕ := 1

/-- `sizeof(Elf32_Ehdr)`. -/
def ehdrSize : ℕ := 52

/-- `sizeof(Elf32_Phdr)`. -/
def phdrSize : ℕ := 32

/-- `sizeof(ImageSegment)`. -/
def imageSegmentSize : ℕ := 16

/-- `ProgramImage`. -/
structure ProgramImage where
  prefix_ : ℕ
  sufix : ℕ
  entry : ℕ
  mount : ℕ
  image : ℕ
deriving DecidableEq

/-- `ImageSegment`. -/
structure ImageSegment where
  fileOffset : ℕ
  memOffset : ℕ
  fileSize : ℕ
  memSize : ℕ
deriving DecidableEq

/-- `Elf32_Ident`. -/
structure Elf32Ident where
  magic : List ℕ
  class_ : ℕ
  encoding : ℕ
  version : ℕ
deriving DecidableEq

/-- `Elf32_Ehdr`. -/
structure Elf32Ehdr where
  ident : Elf32Ident
  machine : ℕ
  version : ℕ
  entry : ℕ
  phoff : ℕ
  ehsize : ℕ
  phentsize : ℕ
  phnum : ℕ
deriving DecidableEq

/-- `Elf32_Phdr`. -/
structure Elf32Phdr where
  type : ℕ
  offset : ℕ
  vaddr : ℕ
  filesz : ℕ
  memsz : ℕ
deriving DecidableEq

/-- The little-endian number in some bytes of a record. -/
def field (record : List UInt8) (offset width : ℕ) : ℕ := leValue ((record.drop offset).take width)

/-- The file header in a buffer of `sizeof(Elf32_Ehdr)` bytes. -/
def Elf32Ehdr.ofBytes (record : List UInt8) : Elf32Ehdr where
  ident :=
    { magic := [field record 0 1, field record 1 1, field record 2 1, field record 3 1]
      class_ := field record 4 1
      encoding := field record 5 1
      version := field record 6 1 }
  machine := field record 18 2
  version := field record 20 4
  entry := field record 24 4
  phoff := field record 28 4
  ehsize := field record 40 2
  phentsize := field record 42 2
  phnum := field record 44 2

/-- The program header in a buffer of `sizeof(Elf32_Phdr)` bytes. -/
def Elf32Phdr.ofBytes (record : List UInt8) : Elf32Phdr where
  type := field record 0 4
  offset := field record 4 4
  vaddr := field record 8 4
  filesz := field record 16 4
  memsz := field record 20 4

/-- A buffer after its first bytes were overwritten. -/
def overwrite (buffer bytes : List UInt8) : List UInt8 := bytes ++ buffer.drop bytes.length

/-! ## What the loader works with -/

/-- `vfs_seek` with `SEEK_SET` and `vfs_read` on the file that is loaded.  A read
stores some bytes from the beginning of the buffer on, never more than it was
asked for, and returns a result. -/
structure FileDriver (F : Type) where
  seek : F → ℕ → F
  read : F → ℕ → List UInt8 × ℤ × F
  length_read : ∀ f size, (read f size).1.length ≤ size

/-- `kmalloc`, `kfree` and `kmsz`. -/
structure HeapDriver (H : Type) where
  kmalloc : H → ℕ → ℕ × H
  kfree : H → ℕ → H
  kmsz : H → ℕ → ℕ

/-- The indeterminate contents of the locals `header` and, in each round of the
loop, `entry`. -/
structure Stack where
  header : List UInt8
  entry : ℕ → List UInt8

/-- What a pointer that is written through points into. -/
inductive Target
  | table
  | image
deriving DecidableEq

/-- A byte stored at an address through the pointer to a block. -/
structure Write where
  target : Target
  block : ℕ
  address : ℕ
deriving DecidableEq

/-- The block allocated for an image: its address and size, where the segments
start in it and how many bytes they take. -/
structure Region where
  image : ℕ
  size : ℕ
  start : ℕ
  bytes : ℕ
deriving DecidableEq

/-- The state of the file, of the heap and of the memory, everything stored
through pointers to blocks, and the block allocated for the image. -/
structure Machine (F H : Type) where
  file : F
  heap : H
  memory : Memory
  written : List Write
  region : Option Region

variable {F H : Type}

/-- Store bytes one after the other. -/
def storeBytes (m : Memory) (address : ℕ) : List UInt8 → Memory
  | [] => m
  | b :: bs => storeBytes (store m address b.toNat) (address + 1) bs

/-- Note that some bytes were stored. -/
def Machine.touch (s : Machine F H) (target : Target) (block address bytes : ℕ) : Machine F H :=
  { s with
    written := s.written ++
      (List.range bytes).map fun i => ⟨target, block, wrap (address + i)⟩ }

/-! ## Reading headers -/

/-- `elf_checkident`. -/
def elfCheckident (ident : Elf32Ident) : ℤ :=
  if ident.magic ≠ [0x7F, 'E'.toNat, 'L'.toNat, 'F'.toNat] then 1
  else if ident.class_ ≠ elfClass32 then 1
  else if ident.encoding ≠ elfData2Lsb then 1
  else if ident.version ≠ 1 then 1
  else 0

/-- The checks of `elf_load` on the header. -/
def checkHeader (header : Elf32Ehdr) : ℤ :=
  if elfCheckident header.ident = 1 then elfIdentError
  else if header.machine ≠ em386 ∧ header.machine ≠ emNone then elfWrongMachineError
  else if header.version ≠ 1 then elfHeaderError
  else if header.ehsize < ehdrSize then elfHeaderError
  else if header.phentsize < phdrSize then elfHeaderError
  else elfSuccess

/-- The segments found so far and their bounds in memory. -/
structure Scan where
  segments : List ImageSegment
  low : ℕ
  high : ℕ

/-- The entry of a loadable segment. -/
def Elf32Phdr.segment (entry : Elf32Phdr) : ImageSegment where
  fileOffset := entry.offset
  memOffset := entry.vaddr
  fileSize := entry.filesz
  memSize := entry.memsz

/-- Copy a loadable segment for later use and widen the bounds. -/
def Scan.add (scan : Scan) (entry : Elf32Phdr) : Scan :=
  let begin_ := entry.vaddr
  let stop := wrap (begin_ + entry.memsz)
  { segments := scan.segments ++ [entry.segment]
    low := if begin_ < scan.low then begin_ else scan.low
    high := if stop > scan.high then stop else scan.high }

/-- The loop of `elf_segments` over the program header table. -/
def scanLoop (d : FileDriver F) (stack : Stack) (header : Elf32Ehdr) (phlptr : ℕ) :
    ℕ → ℕ → Scan → Machine F H → ℤ × Scan × Machine F H
  | 0, _, scan, s => (elfSuccess, scan, s)
  | left + 1, i, scan, s =>
      let file := d.seek s.file (wrap (header.phoff + i * header.phentsize))
      let read := d.read file phdrSize
      let s := { s with file := read.2.2 }
      if read.2.1 = 0 then (elfReadError, scan, s)
      else
        let entry := Elf32Phdr.ofBytes (overwrite (stack.entry i) read.1)
        if entry.type = ptLoad then
          scanLoop d stack header phlptr left (i + 1) (scan.add entry)
            (s.touch .table phlptr (phlptr + imageSegmentSize * scan.segments.length)
              imageSegmentSize)
        else scanLoop d stack header phlptr left (i + 1) scan s

/-! ## Copying segments -/

/-- The number of bytes `elf_segcpy` reads; `min` compares `int`s. -/
def ImageSegment.content (segment : ImageSegment) : ℕ :=
  toWord (cMin (toInt segment.fileSize) (toInt segment.memSize))

/-- The number of bytes `elf_segcpy` clears; the sizes are subtracted as
`long`s. -/
def ImageSegment.padding (segment : ImageSegment) : ℕ :=
  toWord (cMax 0 (wrapInt (toInt segment.memSize - toInt segment.fileSize)))

/-- The place of a segment in the image. -/
def ImageSegment.address (segment : ImageSegment) (mount : ℕ) : ℕ :=
  wrap (segment.memOffset + 2 ^ 32 - mount)

/-- `elf_segcpy`, with the block that `image` points into. -/
def elfSegcpy (d : FileDriver F) (block image mount : ℕ) (segment : ImageSegment)
    (s : Machine F H) : ℤ × Machine F H :=
  let file := d.seek s.file segment.fileOffset
  let address := image + segment.address mount
  let read := d.read file segment.content
  let s :=
    { s with file := read.2.2, memory := storeBytes s.memory address read.1 }.touch .image block
      address read.1.length
  if read.2.1 = 0 then (elfReadError, s)
  else
    (elfSuccess,
      { s with memory := memset s.memory address 0 segment.padding }.touch .image block address
        segment.padding)

/-- The loop of `elf_segments` over the copied segments. -/
def copyLoop (d : FileDriver F) (block image mount : ℕ) :
    List ImageSegment → Machine F H → ℤ × Machine F H
  | [], s => (elfSuccess, s)
  | segment :: segments, s =>
      let copied := elfSegcpy d block image mount segment s
      if copied.1 ≠ elfSuccess then copied else copyLoop d block image mount segments copied.2

/-- `elf_segments`. -/
def elfSegments (d : FileDriver F) (k : HeapDriver H) (stack : Stack) (header : Elf32Ehdr)
    (program : ProgramImage) (s : Machine F H) : ℤ × ProgramImage × Machine F H :=
  let table := k.kmalloc s.heap (imageSegmentSize * header.phnum)
  let phlptr := table.1
  let scanned := scanLoop d stack header phlptr header.phnum 0 ⟨[], 2 ^ 32 - 1, 0⟩
    { s with heap := table.2 }
  let scan := scanned.2.1
  let s := scanned.2.2
  if scanned.1 ≠ elfSuccess then (scanned.1, program, s)
  else
    let bytes := wrap (scan.high + 2 ^ 32 - scan.low)
    let size := wrap (bytes + program.prefix_ + program.sufix)
    let allocated := k.kmalloc s.heap size
    let image := allocated.1
    let s := { s with heap := allocated.2, region := some ⟨image, size, program.prefix_, bytes⟩ }
    let copied := copyLoop d image (image + program.prefix_) scan.low scan.segments s
    let s := { copied.2 with heap := k.kfree copied.2.heap phlptr }
    if copied.1 ≠ elfSuccess then (copied.1, program, s)
    else (elfSuccess, { program with image := image, mount := scan.low }, s)

/-- `elf_load`. -/
def elfLoad (d : FileDriver F) (k : HeapDriver H) (stack : Stack) (image : ProgramImage)
    (s : Machine F H) : ℤ × ProgramImage × Machine F H :=
  let read := d.read s.file ehdrSize
  let s := { s with file := read.2.2 }
  if read.2.1 = 0 then (elfReadError, image, s)
  else
    let header := Elf32Ehdr.ofBytes (overwrite stack.header read.1)
    if checkHeader header ≠ elfSuccess then (checkHeader header, image, s)
    else
      let loaded := elfSegments d k stack header image s
      if loaded.1 ≠ elfSuccess then loaded
      else (elfSuccess, { loaded.2.1 with entry := header.entry }, loaded.2.2)

end Elf

end Neos
