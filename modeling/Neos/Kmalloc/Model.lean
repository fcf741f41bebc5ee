import Neos.Kernel.CLib

/-!
# The buddy allocator of `kmalloc.asm`

The allocator hands out runs of 1024-byte segments.  A binary tree over the
segments is packed at the end of the managed arena; a node of level `l` has
`l + 1` bits, and bit `k` is set when the node holds no free run of `2 ^ k`
segments.  An allocated node has all its bits set and everything below it zero.

Registers and pointers are natural numbers.  Arithmetic is reduced modulo
`2 ^ 32` at the places where a 32-bit register can actually overflow, and every
memory access reduces its address.  Loops that test their condition at the end
are written with fuel that always suffices, unless a function says otherwise.
-/

namespace Neos.Kmalloc

open BitMemory

/-- `KMALLOC_BLOCK_SIZE`. -/
def blockSize : ℕ := 1024

/-- One entry of `tree_levels`: the number of nodes of a level and the address
of its packed table. -/
structure LevelDescriptor where
  size : ℕ
  pointer : ℕ
deriving DecidableEq, Inhabited

/-- The data section of the allocator together with the memory it manages. -/
structure Allocator where
  maxTreeLevel : ℕ
  end_ : ℕ
  size : ℕ
  offset : ℕ
  blockNumber : ℕ
  treeLevels : ℕ → LevelDescriptor
  mem : Memory

/-- The data section as assembled: 32 zero descriptors.  What lies behind the
table and the contents of the memory are arbitrary. -/
def boot (beyond : ℕ → LevelDescriptor) (mem : Memory) : Allocator where
  maxTreeLevel := 0
  end_ := 0
  size := 0
  offset := 0
  blockNumber := 0
  treeLevels := fun level => if level < 32 then ⟨0, 0⟩ else beyond level
  mem := mem

/-! ## Packed tree elements -/

/-- `gettreeelement`. -/
def getTreeElement (s : Allocator) (level node : ℕ) : ℕ :=
  let bitNumber := node * (level + 1) % 2 ^ 32
  let table := (s.treeLevels level).pointer
  let eax := byteSwap (loadDword s.mem (table + bitNumber / 8))
  let eax := eax <<< (bitNumber % 8) % 2 ^ 32
  -- the processor uses the low five bits of a shift count
  eax >>> ((2 ^ 32 + 31 - level) % 32)

/-- The loop `ste_ptl1`: clear the bits `31 - edx`, `31 - (edx + 1)`, ... of
a word, `count` of them. -/
def clearBits (edi edx : ℕ) : ℕ → ℕ
  | 0 => edi
  | count + 1 => clearBits (clearBit edi ((2 ^ 32 + 31 - edx) % 32)) (edx + 1) count

/-- `settreeelement`; only the `level + 1` youngest bits of the value are
used. -/
def setTreeElement (s : Allocator) (level node newValue : ℕ) : Allocator :=
  let bitNumber := node * (level + 1) % 2 ^ 32
  let table := (s.treeLevels level).pointer
  let address := table + bitNumber / 8
  let edx := bitNumber % 8
  let edi := byteSwap (loadDword s.mem address)
  let bits := (newValue <<< ((2 ^ 32 + 31 - level) % 32) % 2 ^ 32) >>> edx
  let edi := clearBits edi edx (level + 1) ||| bits
  { s with mem := storeDword s.mem address (byteSwap edi) }

/-- `areasettreeelement`: the elements `startNode .. endNode` of one level,
the first one in any case. -/
def areaSetTreeElementLoop (level value endNode : ℕ) : ℕ → Allocator → ℕ → Allocator
  | 0, s, _ => s
  | fuel + 1, s, node =>
      let s := setTreeElement s level node value
      if node + 1 ≤ endNode then
        areaSetTreeElementLoop level value endNode fuel s (node + 1)
      else s

def areaSetTreeElement (s : Allocator) (level startNode endNode value : ℕ) : Allocator :=
  areaSetTreeElementLoop level value endNode (endNode + 1) s startNode

/-! ## Summaries -/

/-- The value `buddify` gives a node from the values `edx` and `eax` of its
children, which live on level `childLevel`. -/
def buddyValue (childLevel edx eax : ℕ) : ℕ :=
  (eax &&& edx) ||| (((eax >>> childLevel) ||| (edx >>> childLevel)) <<< childLevel) <<< 1

/-- `buddify`. -/
def buddify (s : Allocator) (level node : ℕ) : Allocator :=
  let childLevel := level - 1
  let edx := getTreeElement s childLevel (node * 2)
  let eax := getTreeElement s childLevel (node * 2 + 1)
  setTreeElement s level node (buddyValue childLevel edx eax)

/-- `full_buddify`: the ancestors of a node, bottom up.  The loop tests its
condition after each step, so the parent is rebuilt in any case. -/
def fullBuddifyLoop : ℕ → Allocator → ℕ → ℕ → Allocator
  | 0, s, _, _ => s
  | fuel + 1, s, level, node =>
      let level := level + 1
      let node := node / 2
      let s := buddify s level node
      if level < s.maxTreeLevel then fullBuddifyLoop fuel s level node else s

def fullBuddify (s : Allocator) (level node : ℕ) : Allocator :=
  fullBuddifyLoop (s.maxTreeLevel + 1) s level node

/-- `levelbuddify`. -/
def levelBuddifyLoop (level endNode : ℕ) : ℕ → Allocator → ℕ → Allocator
  | 0, s, _ => s
  | fuel + 1, s, node =>
      let s := buddify s level node
      if node + 1 ≤ endNode then levelBuddifyLoop level endNode fuel s (node + 1) else s

def levelBuddify (s : Allocator) (level startNode endNode : ℕ) : Allocator :=
  levelBuddifyLoop level endNode (endNode + 1) s startNode

/-- `areafull_buddify`.  Unlike `full_buddify` the loop continues while the
level is at most `max_tree_level`, so its last step works one level above the
root. -/
def areafullBuddifyLoop : ℕ → Allocator → ℕ → ℕ → ℕ → Allocator
  | 0, s, _, _, _ => s
  | fuel + 1, s, level, startNode, endNode =>
      let level := level + 1
      let startNode := startNode / 2
      let endNode := endNode / 2
      let s := levelBuddify s level startNode endNode
      if level ≤ s.maxTreeLevel then
        areafullBuddifyLoop fuel s level startNode endNode
      else s

def areafullBuddify (s : Allocator) (level startNode endNode : ℕ) : Allocator :=
  areafullBuddifyLoop (s.maxTreeLevel + 2) s level startNode endNode

/-! ## Setting up an arena -/

/-- The loop `it_ptl4`: clear the byte at `edi`, then `count` more. -/
def zeroLoop : ℕ → Memory → ℕ → Memory
  | 0, m, edi => store m edi 0
  | count + 1, m, edi => zeroLoop count (store m edi 0) (edi + 1)

/-- The loop `it_ptl3`: lay out the levels from `eax` upwards, `ecx` nodes of
`ebx` bits on the next one, its table at `edi`. -/
def levelLoop : ℕ → Allocator → ℕ → ℕ → ℕ → ℕ → Allocator
  | 0, s, _, _, _, _ => s
  | fuel + 1, s, ecx, edi, eax, ebx =>
      let s := { s with
        treeLevels := Function.update s.treeLevels eax ⟨ecx, edi⟩
        maxTreeLevel := eax }
      let edi := edi + ((ecx * ebx - 1) >>> 3 + 1)
      let ecx := ecx >>> 1
      if ecx ≠ 0 then levelLoop fuel s ecx edi (eax + 1) (ebx + 1) else s

/-- `initializetree`. -/
def initializeTree (s : Allocator) : Allocator :=
  let leaves := (s.treeLevels 0).size
  let s := { s with
    treeLevels := Function.update s.treeLevels 0 ⟨leaves, s.end_ + s.offset⟩ }
  -- the upper bound of the clearing loop is a 32-bit sum
  let edi := s.end_ + s.offset
  let edx := (s.size + s.offset) % 2 ^ 32
  let s := { s with mem := zeroLoop (edx - (edi + 1)) s.mem edi }
  let s := levelLoop 32 s (leaves >>> 1) (leaves >>> 3 + s.end_ + s.offset) 1 2
  -- segments that hold the control structure or do not exist
  let eax := s.end_ / blockSize
  let ecx := leaves - 1
  if eax > ecx then s
  else areafullBuddify (areaSetTreeElement s 0 eax ecx 1) 0 eax ecx

/-- The loop `it_ptl1` of `kset`: the number of leaves. -/
def leafLoop : ℕ → ℕ → ℕ → ℕ
  | 0, ecx, _ => ecx
  | fuel + 1, ecx, edx =>
      let ecx := ecx <<< 1
      if ecx < edx then leafLoop fuel ecx edx else ecx

/-- `kset`. -/
def kset (s : Allocator) (size offset : ℕ) : Allocator :=
  let blockNumber := size / blockSize
  let leaves := leafLoop 32 1 blockNumber
  initializeTree { s with
    offset := offset
    size := size
    blockNumber := blockNumber
    treeLevels := Function.update s.treeLevels 0 ⟨leaves, (s.treeLevels 0).pointer⟩
    end_ := (size + 2 ^ 32 - ((leaves - 1) >>> 1 + 1)) % 2 ^ 32 }

/-! ## Requests -/

/-- The number of segments holding `size` bytes; `size - 1` wraps for a
request of zero bytes. -/
def segmentCount (size : ℕ) : ℕ := (size + 2 ^ 32 - 1) % 2 ^ 32 / blockSize + 1

/-- The loops `m_ptl1` and `ra_ptl2`: the exponent of the least power of two
that is at least `segments`. -/
def powerLoop (segments : ℕ) : ℕ → ℕ → ℕ → ℕ
  | 0, _, ecx => ecx
  | fuel + 1, edx, ecx =>
      if edx < segments then powerLoop segments fuel (edx <<< 1) (ecx + 1) else ecx

def requestLevel (size : ℕ) : ℕ := powerLoop (segmentCount size) 32 1 0

/-- `allocate`: descend from a node to level `power`.  The function calls
itself; `frames` is the number of calls the stack has room for, and the result
is `none` when it is exhausted. -/
def allocate (s : Allocator) (mask power : ℕ) : ℕ → ℕ → ℕ → Option ℕ
  | 0, _, _ => none
  | frames + 1, level, node =>
      if power = level then some node
      else
        let level := (level + 2 ^ 32 - 1) % 2 ^ 32
        let node := node * 2 % 2 ^ 32
        if getTreeElement s level node &&& mask = 0 then
          allocate s mask power frames level node
        else allocate s mask power frames level ((node + 1) % 2 ^ 32)

/-- Mark a node as allocated and update its ancestors. -/
def reserve (s : Allocator) (level node : ℕ) : Allocator :=
  fullBuddify (setTreeElement s level node (2 ^ 32 - 1)) level node

/-- `kmalloc`: the returned pointer and the new state. -/
def kmalloc (frames : ℕ) (s : Allocator) (size : ℕ) : Option (ℕ × Allocator) :=
  let ecx := requestLevel size
  let mask := 1 <<< ecx
  if getTreeElement s s.maxTreeLevel 0 &&& mask ≠ 0 then some (0, s)
  else
    match allocate s mask ecx frames s.maxTreeLevel 0 with
    | none => none
    | some node =>
        some ((node <<< ecx) * blockSize + s.offset, reserve s ecx node)

/-- The segment a pointer lies in. -/
def segmentOf (s : Allocator) (pointer : ℕ) : ℕ :=
  (pointer + 2 ^ 32 - s.offset) % 2 ^ 32 / blockSize

/-- `kfree`. -/
def kfree (s : Allocator) (pointer : ℕ) : Allocator :=
  let segment := segmentOf s pointer
  fullBuddify (setTreeElement s 0 segment 0) 0 segment

/-- The loops `ra_ptl1` and `kms_ptl1`: the level of the first non-zero
element on the way from a segment to the root; `none` past the descriptor
table. -/
def areaLevelLoop (s : Allocator) : ℕ → ℕ → ℕ → Option ℕ
  | 0, _, _ => none
  | fuel + 1, esi, edi =>
      if getTreeElement s esi edi = 0 then areaLevelLoop s fuel (esi + 1) (edi / 2)
      else some esi

def areaLevel (s : Allocator) (segment : ℕ) : Option ℕ := areaLevelLoop s 32 0 segment

/-- `kmsz`. -/
def kmsz (s : Allocator) (pointer : ℕ) : Option ℕ :=
  (areaLevel s (segmentOf s pointer)).map fun level => 2 ^ level * blockSize

/-- The tail `ra_return` of `krealloc`: copy the old area and return. -/
def reallocReturn (s : Allocator) (pointer level result : ℕ) : ℕ × Allocator :=
  (result, { s with
    mem := memmove s.mem result pointer (toInt (2 ^ level * blockSize)) })

/-- `krealloc`. -/
def krealloc (frames : ℕ) (s : Allocator) (pointer newSize : ℕ) : Option (ℕ × Allocator) := do
  let segment := segmentOf s pointer
  let esi ← areaLevel s segment
  let ebx := requestLevel newSize
  if esi ≥ ebx then
    some (reallocReturn s pointer esi pointer)
  else
    let s := kfree s pointer
    let node := segment >>> ebx
    if getTreeElement s ebx node = 0 then
      some (reallocReturn (reserve s ebx node) pointer esi
        ((node <<< ebx) * blockSize + s.offset))
    else
      let (eax, s) ← kmalloc frames s newSize
      if eax = 0 then some (0, s) else some (reallocReturn s pointer esi eax)

/-- `kmres`; `clamp` compares its arguments as signed integers. -/
def kmres (s : Allocator) (pointer size : ℕ) : Allocator :=
  let low := toInt s.offset
  let high := toInt (s.offset + s.size + 2 ^ 32 - 1)
  let last := toWord (clamp (toInt (pointer + size + 2 ^ 32 - 1)) low high)
  let first := toWord (clamp (toInt pointer) low high)
  let edi := segmentOf s last
  let esi := segmentOf s first
  areafullBuddify (areaSetTreeElement s 0 esi edi 1) 0 esi edi

end Neos.Kmalloc
