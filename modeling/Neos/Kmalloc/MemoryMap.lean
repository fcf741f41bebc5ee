import Neos.Kmalloc.Footprint
import Neos.Kmalloc.FreeRuns
import Neos.Library.ByteRange
import Mathlib.Data.Nat.Log

/-!
# The memory map of the machine

`mem.c` reads the memory map the boot loader left at address `0x500`.  It spans
one arena from the first to the last free byte and then marks the reserved
entries inside it.  The addresses of an entry have 64 bits, those `kmres` works
with have 32 and are clamped to the arena as signed integers; bytes that no
entry describes are not marked at all.
-/

namespace Neos.Kmalloc

open BitMemory BuddyTree Relation

/-! ## `mem.c` -/

/-- `ENTRY_FREE`. -/
def entryFree : ℕ := 1

/-- `MEMORY_MAP_RAM`. -/
def memoryMapRam : ℕ := 0x500

structure MemoryEntry where
  base : ℕ
  length : ℕ
  type : ℕ
deriving DecidableEq

structure MemoryMap where
  length : ℕ
  bytes : ℕ
  array : ℕ

/-- Little-endian 64-bit load. -/
def loadQword (m : Memory) (a : ℕ) : ℕ := loadDword m a + 2 ^ 32 * loadDword m (a + 4)

/-- `map.array[i]`; an entry is packed into 20 bytes. -/
def MemoryMap.entry (map : MemoryMap) (m : Memory) (i : ℕ) : MemoryEntry where
  base := loadQword m (map.array + 20 * i)
  length := loadQword m (map.array + 20 * i + 8)
  type := loadDword m (map.array + 20 * i + 16)

/-- `mem_loadmap`. -/
def memLoadmap (m : Memory) : MemoryMap where
  length := loadDword m memoryMapRam
  bytes := (loadDword m memoryMapRam * 20 + 4) % 2 ^ 32
  array := memoryMapRam + 4

/-- The first loop of `mem_init`, with the number of remaining entries: the
lowest and the highest address of free entries. -/
def freeLoop (map : MemoryMap) (m : Memory) : ℕ → ℕ → ℕ → ℕ → ℕ × ℕ
  | 0, _, low, high => (low, high)
  | count + 1, i, low, high =>
      let entry := map.entry m i
      if entry.type = entryFree then
        let begin_ := entry.base
        let end_ := (entry.base + entry.length) % 2 ^ 64
        freeLoop map m count (i + 1) (if begin_ < low then begin_ else low)
          (if end_ > high then end_ else high)
      else freeLoop map m count (i + 1) low high

/-- The second loop of `mem_init`.  The map is still read from the memory, and
the arguments of `kmres` are truncated. -/
def reserveLoop (map : MemoryMap) : ℕ → ℕ → Allocator → Allocator
  | 0, _, s => s
  | count + 1, i, s =>
      let entry := map.entry s.mem i
      if entry.type ≠ entryFree then
        reserveLoop map count (i + 1) (kmres s (entry.base % 2 ^ 32) (entry.length % 2 ^ 32))
      else reserveLoop map count (i + 1) s

/-- `mem_init`. -/
def memInit (s : Allocator) (offset : ℕ) : Allocator :=
  let map := memLoadmap s.mem
  let (low, high) := freeLoop map s.mem map.length 0 0xFFFFFFFF 0
  let low := if low < offset then offset else low
  let high := if high > 0xFFFFFFFF then 0xFFFFFFFF else high
  let size := (high + 2 ^ 64 - low) % 2 ^ 64
  let s := kset s (size % 2 ^ 32) (low % 2 ^ 32)
  let s := reserveLoop map map.length 0 s
  { s with mem := memset s.mem memoryMapRam 0 (toInt map.bytes) }

/-! ## Memory maps -/

/-- The entries `i .. i + count - 1`. -/
def MemoryMap.slice (map : MemoryMap) (m : Memory) (i count : ℕ) : List MemoryEntry :=
  (List.range' i count).map (map.entry m)

/-- The entries of the map in a memory. -/
def entries (m : Memory) : List MemoryEntry :=
  (memLoadmap m).slice m 0 (memLoadmap m).length

theorem slice_succ (map : MemoryMap) (m : Memory) (i count : ℕ) :
    map.slice m i (count + 1) = map.entry m i :: map.slice m (i + 1) count := rfl

/-- The bytes an entry describes. -/
def MemoryEntry.range (e : MemoryEntry) : Set ℕ := Set.Ico e.base (e.base + e.length)

def MemoryEntry.IsFree (e : MemoryEntry) : Prop := e.type = entryFree

instance (e : MemoryEntry) : Decidable e.IsFree := inferInstanceAs (Decidable (_ = _))

/-- A byte the kernel may use: it lies above the offset, a free entry describes
it and no other one does. -/
structure Usable (es : List MemoryEntry) (offset a : ℕ) : Prop where
  above : offset ≤ a
  free : ∃ e ∈ es, e.IsFree ∧ a ∈ e.range
  unreserved : ∀ e ∈ es, ¬ e.IsFree → a ∉ e.range

/-- The lowest address of free entries. -/
def lowestFree (es : List MemoryEntry) : ℕ :=
  (es.filter (·.IsFree)).foldl (fun low e => min e.base low) 0xFFFFFFFF

/-- The highest end of free entries, as a 64-bit sum. -/
def highestFree (es : List MemoryEntry) : ℕ :=
  (es.filter (·.IsFree)).foldl (fun high e => max ((e.base + e.length) % 2 ^ 64) high) 0

/-- Where the arena starts. -/
def arenaStart (es : List MemoryEntry) (offset : ℕ) : ℕ := max (lowestFree es) offset

/-- The size of the arena. -/
def arenaSize (es : List MemoryEntry) (offset : ℕ) : ℕ :=
  min (highestFree es) 0xFFFFFFFF - arenaStart es offset

/-- The number of leaves of the tree over an arena. -/
def leavesFor (size : ℕ) : ℕ := 2 ^ Nat.clog 2 (size / blockSize)

/-- The part of an arena in front of the tables. -/
def frontSize (size : ℕ) : ℕ := size - leavesFor size / 2

/-- The segment `kmres` finds for an address: the address is truncated and
clamped to the arena as a signed integer. -/
def clampedSegment (offset size value : ℕ) : ℕ :=
  (toWord (clamp (toInt value) (toInt offset) (toInt (offset + size + 2 ^ 32 - 1))) - offset) /
    blockSize

/-- The first segment `kmres` marks for an entry. -/
def firstMarked (offset size : ℕ) (e : MemoryEntry) : ℕ := clampedSegment offset size e.base

/-- The last segment `kmres` marks for an entry, never before the first one. -/
def lastMarked (offset size : ℕ) (e : MemoryEntry) : ℕ :=
  max (firstMarked offset size e) (clampedSegment offset size (e.base + e.length + 2 ^ 32 - 1))

/-- A map under which the allocator hands out free memory only. -/
structure WellMapped (es : List MemoryEntry) (offset : ℕ) : Prop where
  /-- The arena holds at least five segments. -/
  roomy : 5 * blockSize ≤ arenaSize es offset
  /-- The tables are not laid over the map. -/
  intact : memoryMapRam + 4 + 20 * es.length ≤
    arenaStart es offset + frontSize (arenaSize es offset)
  /-- The reserved entries are marked inside the tree. -/
  inside : ∀ e ∈ es, ¬ e.IsFree →
    lastMarked (arenaStart es offset) (arenaSize es offset) e < leavesFor (arenaSize es offset)
  /-- A segment in front of the tables that is not marked is usable. -/
  clean : ∀ i, (i + 1) * blockSize ≤ frontSize (arenaSize es offset) →
    (∀ e ∈ es, ¬ e.IsFree → firstMarked (arenaStart es offset) (arenaSize es offset) e ≤ i →
      i ≤ lastMarked (arenaStart es offset) (arenaSize es offset) e → False) →
    ∀ a, arenaStart es offset + i * blockSize ≤ a →
      a < arenaStart es offset + (i + 1) * blockSize → Usable es offset a

/-! ## The arena -/

theorem freeLoop_eq (map : MemoryMap) (m : Memory) :
    ∀ (count i low high : ℕ), freeLoop map m count i low high =
      (((map.slice m i count).filter (·.IsFree)).foldl (fun low e => min e.base low) low,
        ((map.slice m i count).filter (·.IsFree)).foldl
          (fun high e => max ((e.base + e.length) % 2 ^ 64) high) high)
  | 0, _, _, _ => rfl
  | count + 1, i, low, high => by
      rw [freeLoop, slice_succ]
      by_cases hfree : (map.entry m i).IsFree
      · have hlow : (if (map.entry m i).base < low then (map.entry m i).base else low) =
            min (map.entry m i).base low := by
          split <;> omega
        have hhigh : (if ((map.entry m i).base + (map.entry m i).length) % 2 ^ 64 > high then
            ((map.entry m i).base + (map.entry m i).length) % 2 ^ 64 else high) =
            max (((map.entry m i).base + (map.entry m i).length) % 2 ^ 64) high := by
          split <;> omega
        rw [List.filter_cons_of_pos (by simpa using hfree), List.foldl_cons, List.foldl_cons,
          ← freeLoop_eq map m count, ← hlow, ← hhigh]
        exact if_pos hfree
      · rw [List.filter_cons_of_neg (by simpa using hfree), ← freeLoop_eq map m count]
        exact if_neg hfree

theorem WellMapped.memInit_eq {s : Allocator} {offset : ℕ}
    (h : WellMapped (entries s.mem) offset) :
    memInit s offset =
      let arena := reserveLoop (memLoadmap s.mem) (memLoadmap s.mem).length 0
        (kset s (arenaSize (entries s.mem) offset) (arenaStart (entries s.mem) offset))
      { arena with mem := memset arena.mem memoryMapRam 0 (toInt (memLoadmap s.mem).bytes) } := by
  have hroomy := h.roomy
  have hloop := freeLoop_eq (memLoadmap s.mem) s.mem (memLoadmap s.mem).length 0 0xFFFFFFFF 0
  change _ = (lowestFree (entries s.mem), highestFree (entries s.mem)) at hloop
  have hlow : (if lowestFree (entries s.mem) < offset then offset
      else lowestFree (entries s.mem)) = arenaStart (entries s.mem) offset := by
    unfold arenaStart
    split <;> omega
  have hhigh : (if highestFree (entries s.mem) > 0xFFFFFFFF then 0xFFFFFFFF
      else highestFree (entries s.mem)) = min (highestFree (entries s.mem)) 0xFFFFFFFF := by
    split <;> omega
  have hsize : (min (highestFree (entries s.mem)) 0xFFFFFFFF + 2 ^ 64 -
      arenaStart (entries s.mem) offset) % 2 ^ 64 % 2 ^ 32 =
      arenaSize (entries s.mem) offset := by
    unfold arenaSize blockSize at *
    omega
  have hstart : arenaStart (entries s.mem) offset % 2 ^ 32 = arenaStart (entries s.mem) offset := by
    unfold arenaSize blockSize at *
    omega
  unfold memInit
  simp only [hloop, hlow, hhigh, hsize, hstart]

/-! ## `kmres` on an entry -/

theorem toInt_congr {n k : ℕ} (h : n % 2 ^ 32 = k % 2 ^ 32) : toInt n = toInt k := by
  unfold toInt
  rw [h]
  split <;> omega

section

variable {offset size : ℕ}

/-- A clamped address lies in the arena, also where the arena straddles the
largest `int`. -/
theorem clamp_bounds (hsize : 1 ≤ size) (hfits : offset + size ≤ 2 ^ 32) (value : ℕ) :
    let w := toWord (clamp (toInt value) (toInt offset) (toInt (offset + size + 2 ^ 32 - 1)))
    offset ≤ w ∧ w < offset + size := by
  have hlast : toInt (offset + size + 2 ^ 32 - 1) = toInt (offset + size - 1) :=
    toInt_congr (by omega)
  have hmod : offset % 2 ^ 32 = offset := Nat.mod_eq_of_lt (by omega)
  have hmod' : (offset + size - 1) % 2 ^ 32 = offset + size - 1 := Nat.mod_eq_of_lt (by omega)
  dsimp only
  rw [hlast, clamp]
  split
  · rw [toWord_toInt, hmod]
    omega
  · next hlow =>
      split
      · rw [toWord_toInt, hmod']
        omega
      · next hhigh =>
          rw [toWord_toInt]
          unfold toInt at hlow hhigh
          rw [hmod] at hlow
          rw [hmod'] at hhigh
          split at hlow <;> split at hlow <;> split at hhigh <;> omega

theorem clampedSegment_congr {n k : ℕ} (h : n % 2 ^ 32 = k % 2 ^ 32) :
    clampedSegment offset size n = clampedSegment offset size k := by
  rw [clampedSegment, clampedSegment, toInt_congr h]

/-- In an arena that straddles the largest `int` every address is clamped to one
of the ends. -/
theorem clampedSegment_of_across (hlow : offset < 2 ^ 31) (hhigh : 2 ^ 31 < offset + size)
    (hfits : offset + size ≤ 2 ^ 32) {v : ℕ} (hv : v < 2 ^ 32) :
    clampedSegment offset size v =
      if offset ≤ v ∧ v < 2 ^ 31 then (size - 1) / blockSize else 0 := by
  have hlast : toInt (offset + size + 2 ^ 32 - 1) = toInt (offset + size - 1) :=
    toInt_congr (by omega)
  have hmod : offset % 2 ^ 32 = offset := Nat.mod_eq_of_lt (by omega)
  have hmod' : (offset + size - 1) % 2 ^ 32 = offset + size - 1 := Nat.mod_eq_of_lt (by omega)
  have hoffset := toInt_of_lt hlow
  have hend := toInt_of_ge (n := offset + size - 1) (by omega) (by omega)
  rw [clampedSegment, hlast, clamp]
  by_cases hin : offset ≤ v ∧ v < 2 ^ 31
  · have hvalue := toInt_of_lt hin.2
    have hpred : offset + size - 1 - offset = size - 1 := by omega
    rw [if_pos hin, if_neg (by omega), if_pos (by omega), toWord_toInt, hmod', hpred]
  · have hbelow : toInt v < toInt offset := by
      rcases Nat.lt_or_ge v (2 ^ 31) with hpos | hneg
      · have hvalue := toInt_of_lt hpos
        omega
      · have hvalue := toInt_of_ge hneg hv
        omega
    rw [if_neg hin, if_pos hbelow, toWord_toInt, hmod, Nat.sub_self, Nat.zero_div]

/-- So a reserved entry in the middle is not marked. -/
theorem clampedSegment_straddling (hlow : offset < 2 ^ 31) (hhigh : 2 ^ 31 < offset + size)
    (hfits : offset + size ≤ 2 ^ 32) (value : ℕ) :
    clampedSegment offset size value = 0 ∨
      clampedSegment offset size value = (size - 1) / blockSize := by
  have hmod : value % 2 ^ 32 < 2 ^ 32 := Nat.mod_lt _ (by decide)
  have hcongr : clampedSegment offset size value = clampedSegment offset size (value % 2 ^ 32) :=
    clampedSegment_congr (Nat.mod_mod _ _).symm
  rw [hcongr, clampedSegment_of_across hlow hhigh hfits hmod]
  split
  · exact Or.inr rfl
  · exact Or.inl rfl

end

/-- The segments `kmres` marks for an entry. -/
def markedSegments (offset size : ℕ) (e : MemoryEntry) : Set Node :=
  leafRange (firstMarked offset size e) (lastMarked offset size e)

/-- `kmres` marks the segments between the clamped ends of its range, and the first
one in any case. -/
theorem Layout.kmres_clamped {s : Allocator} (h : Layout s) (pointer size : ℕ) :
    kmres s pointer size =
      takeSegments s (clampedSegment s.offset s.size pointer)
        (max (clampedSegment s.offset s.size pointer)
          (clampedSegment s.offset s.size (pointer + size + 2 ^ 32 - 1))) := by
  have hpos := Nat.two_pow_pos (s.maxTreeLevel - 1)
  have hsize : 1 ≤ s.size := by
    have := h.end_eq
    omega
  have hsegment : ∀ v, segmentOf s (toWord (clamp (toInt v) (toInt s.offset)
      (toInt (s.offset + s.size + 2 ^ 32 - 1)))) = clampedSegment s.offset s.size v := by
    intro v
    have hbounds := clamp_bounds hsize h.fits v
    exact h.segmentOf_eq hbounds.1 hbounds.2
  have hkmres : kmres s pointer size = takeSegments s (clampedSegment s.offset s.size pointer)
      (clampedSegment s.offset s.size (pointer + size + 2 ^ 32 - 1)) := by
    unfold kmres
    dsimp only
    rw [hsegment, hsegment]
    rfl
  rw [hkmres, takeSegments_max]

theorem kmres_entry {s : Allocator} (h : Layout s) (e : MemoryEntry) :
    kmres s (e.base % 2 ^ 32) (e.length % 2 ^ 32) =
      takeSegments s (firstMarked s.offset s.size e) (lastMarked s.offset s.size e) := by
  have hbase : clampedSegment s.offset s.size (e.base % 2 ^ 32) =
      clampedSegment s.offset s.size e.base := clampedSegment_congr (by omega)
  have hlast : clampedSegment s.offset s.size
      (e.base % 2 ^ 32 + e.length % 2 ^ 32 + 2 ^ 32 - 1) =
      clampedSegment s.offset s.size (e.base + e.length + 2 ^ 32 - 1) :=
    clampedSegment_congr (by omega)
  rw [h.kmres_clamped, hbase, hlast]
  rfl

/-! ## The reserved entries -/

/-- The segments that are not handed out after some entries were processed. -/
def fixedBy (s : Allocator) (es : List MemoryEntry) : Set Node :=
  systemSegments s ∪ {x | ∃ e ∈ es, ¬ e.IsFree ∧ x ∈ markedSegments s.offset s.size e}

theorem fixedBy_level {s : Allocator} {es : List MemoryEntry} :
    ∀ x ∈ fixedBy s es, x.level = 0 := by
  rintro x (hx | ⟨e, -, -, hx⟩)
  · exact hx.1
  · exact hx.1

theorem fixedBy_antichain (s : Allocator) (es : List MemoryEntry) :
    Antichain (fixedBy s es) := by
  intro x hx y hy hne
  have hl : x.level = y.level := (fixedBy_level x hx).trans (fixedBy_level y hy).symm
  exact ⟨fun h => hne (Node.eq_of_le_of_level le_rfl h hl),
    fun h => hne (Node.eq_of_le_of_level le_rfl h hl.symm).symm⟩

theorem fixedBy_free {s : Allocator} {es : List MemoryEntry} {e : MemoryEntry} (he : e.IsFree) :
    fixedBy s (es ++ [e]) = fixedBy s es := by
  ext x
  simp only [fixedBy, List.mem_append, List.mem_singleton, Set.mem_union, Set.mem_ofPred_eq]
  constructor
  · rintro (h | ⟨c, hc | rfl, hfree, hx⟩)
    · exact Or.inl h
    · exact Or.inr ⟨c, hc, hfree, hx⟩
    · exact absurd he hfree
  · rintro (h | ⟨c, hc, hfree, hx⟩)
    · exact Or.inl h
    · exact Or.inr ⟨c, Or.inl hc, hfree, hx⟩

theorem fixedBy_reserved {s : Allocator} {es : List MemoryEntry} {e : MemoryEntry}
    (he : ¬ e.IsFree) :
    fixedBy s (es ++ [e]) = fixedBy s es ∪ markedSegments s.offset s.size e := by
  ext x
  simp only [fixedBy, List.mem_append, List.mem_singleton, Set.mem_union, Set.mem_ofPred_eq]
  constructor
  · rintro (h | ⟨c, hc | rfl, hfree, hx⟩)
    · exact Or.inl (Or.inl h)
    · exact Or.inl (Or.inr ⟨c, hc, hfree, hx⟩)
    · exact Or.inr hx
  · rintro ((h | ⟨c, hc, hfree, hx⟩) | h)
    · exact Or.inl h
    · exact Or.inr ⟨c, Or.inl hc, hfree, hx⟩
    · exact Or.inr ⟨e, Or.inr rfl, he, h⟩

theorem Same.fixedBy_eq {s s' : Allocator} (h : Same s s') (es : List MemoryEntry) :
    fixedBy s' es = fixedBy s es := by
  obtain ⟨m, rfl⟩ := h
  rfl

/-- The arena after some entries were processed, as the tree records it. -/
structure Punched (s₀ s : Allocator) (es : List MemoryEntry) : Prop where
  confined : Confined s₀ s
  le_root : ∀ x ∈ fixedBy s₀ es, x ≤ s₀.root
  exact : Exact s.tree s₀.root (fixedBy s₀ es)

theorem loadDword_congr {m m' : Memory} {a : ℕ} (ha : a + 4 ≤ 2 ^ 32)
    (h : ∀ k, k < 4 → m' (a + k) = m (a + k)) : loadDword m' a = loadDword m a := by
  have hload : ∀ k, k < 4 → load m' (a + k) = load m (a + k) := by
    intro k hk
    rw [load, load, wrap_of_lt (by omega), h k hk]
  have hzero := hload 0 (by decide)
  rw [Nat.add_zero] at hzero
  rw [loadDword, loadDword, hzero, hload 1 (by decide), hload 2 (by decide),
    hload 3 (by decide)]

theorem entry_congr {m m' : Memory} {map : MemoryMap} {i : ℕ}
    (hfits : map.array + 20 * (i + 1) ≤ 2 ^ 32)
    (h : ∀ a, map.array ≤ a → a < map.array + 20 * (i + 1) → m' a = m a) :
    map.entry m' i = map.entry m i := by
  have hdword : ∀ k, k ≤ 16 → loadDword m' (map.array + 20 * i + k) =
      loadDword m (map.array + 20 * i + k) := by
    intro k hk
    refine loadDword_congr (by omega) fun j hj => ?_
    exact h _ (by omega) (by omega)
  have hqword : ∀ k, k ≤ 8 → loadQword m' (map.array + 20 * i + k) =
      loadQword m (map.array + 20 * i + k) := by
    intro k hk
    rw [loadQword, loadQword, hdword k (by omega), Nat.add_assoc _ k, hdword (k + 4) (by omega)]
  have hbase := hqword 0 (by decide)
  rw [Nat.add_zero] at hbase
  rw [MemoryMap.entry, MemoryMap.entry, hbase, hqword 8 (by decide), hdword 16 (by decide)]

section

variable {s₀ s : Allocator} {es : List MemoryEntry}

/-- One reserved entry is marked. -/
theorem Punched.kmres (hl : Layout s₀) (hp : Punched s₀ s es) {e : MemoryEntry}
    (he : ¬ e.IsFree) (hlast : lastMarked s₀.offset s₀.size e < 2 ^ s₀.maxTreeLevel) :
    Punched s₀ (Kmalloc.kmres s (e.base % 2 ^ 32) (e.length % 2 ^ 32)) (es ++ [e]) := by
  have hsame := hp.confined.same
  have hls := hl.same hsame
  have hfields : s.offset = s₀.offset ∧ s.size = s₀.size := by
    obtain ⟨m, hm⟩ := hsame
    rw [hm]
    exact ⟨rfl, rfl⟩
  have hroot : (⟨0, lastMarked s₀.offset s₀.size e⟩ : Node) ≤ s.root := by
    rw [hsame.root_eq]
    exact le_root_iff.mpr ⟨Nat.zero_le _, by simpa using hlast⟩
  have hle : firstMarked s₀.offset s₀.size e ≤ lastMarked s₀.offset s₀.size e :=
    le_max_left _ _
  have hexact := hp.exact.takeRange hp.le_root fixedBy_level
    (hsame.root_eq ▸ hls.takeSegments_rangeTaken hle hroot)
  rw [kmres_entry hls, hfields.1, hfields.2]
  refine ⟨hp.confined.trans (hls.takeSegments_confined hle hroot), ?_, ?_⟩
  · rw [fixedBy_reserved he]
    rintro x (hx | ⟨hx₀, -, hx⟩)
    · exact hp.le_root x hx
    · refine le_root_iff.mpr ⟨by omega, ?_⟩
      rw [hx₀, Nat.sub_zero]
      omega
  · rw [fixedBy_reserved he]
    exact hexact

/-- All reserved entries are marked. -/
theorem Punched.reserveLoop (hl : Layout s₀) {map : MemoryMap} (hlow : lowEnd ≤ map.array) :
    ∀ (count i : ℕ) (s : Allocator) (es : List MemoryEntry), Punched s₀ s es →
      map.array + 20 * (i + count) ≤ s₀.offset + s₀.end_ →
      (∀ e ∈ map.slice s₀.mem i count, ¬ e.IsFree →
        lastMarked s₀.offset s₀.size e < 2 ^ s₀.maxTreeLevel) →
      Punched s₀ (Kmalloc.reserveLoop map count i s) (es ++ map.slice s₀.mem i count)
  | 0, i, s, es, hp, _, _ => by
      rw [MemoryMap.slice, List.range'_zero, List.map_nil, List.append_nil]
      exact hp
  | count + 1, i, s, es, hp, hhigh, hlast => by
      have hfits := hl.fits
      have hend := hl.end_eq
      have hpos := Nat.two_pow_pos (s₀.maxTreeLevel - 1)
      have hentry : map.entry s.mem i = map.entry s₀.mem i :=
        entry_congr (by omega) fun a h₁ h₂ => hp.confined.mem_eq a (by omega) (by omega)
      have hrest := Punched.reserveLoop hl hlow count (i + 1)
      rw [Kmalloc.reserveLoop, hentry, slice_succ, List.append_cons]
      by_cases he : (map.entry s₀.mem i).IsFree
      · have hnext : Punched s₀ s (es ++ [map.entry s₀.mem i]) := by
          refine ⟨hp.confined, ?_, ?_⟩
          · rw [fixedBy_free he]
            exact hp.le_root
          · rw [fixedBy_free he]
            exact hp.exact
        have hdone := hrest s _ hnext (by omega) fun e hmem =>
          hlast e (List.mem_cons_of_mem _ hmem)
        rw [if_neg (show ¬ (map.entry s₀.mem i).type ≠ entryFree from not_not.mpr he)]
        exact hdone
      · have hnext := hp.kmres hl he (hlast _ List.mem_cons_self he)
        have hdone := hrest _ _ hnext (by omega) fun e hmem =>
          hlast e (List.mem_cons_of_mem _ hmem)
        rw [if_pos (show (map.entry s₀.mem i).type ≠ entryFree from he)]
        exact hdone

end

/-! ## What is handed out -/

theorem fillForward_frame (dst value : ℕ) {x : ℕ} :
    ∀ (bytes i : ℕ) (m : Memory), (∀ j, j < bytes → x ≠ wrap (dst + (i + j))) →
      fillForward dst value bytes i m x = m x
  | 0, _, _, _ => rfl
  | bytes + 1, i, m, h => by
      rw [fillForward, fillForward_frame dst value bytes (i + 1)]
      · exact store_of_ne (h 0 (by omega))
      · intro j hj
        have hne := h (j + 1) (by omega)
        rwa [← Nat.add_assoc i, Nat.add_right_comm i] at hne

theorem Layout.maxTreeLevel_eq {s : Allocator} (h : Layout s) :
    s.maxTreeLevel = Nat.clog 2 (s.size / blockSize) := by
  refine le_antisymm ?_ (Nat.clog_le_of_le_pow h.blocks_le)
  have hlt : s.maxTreeLevel - 1 < Nat.clog 2 (s.size / blockSize) :=
    (Nat.lt_clog_iff_pow_lt (by decide)).mpr h.lt_blocks
  omega

theorem Layout.end_eq_frontSize {s : Allocator} (h : Layout s) : s.end_ = frontSize s.size := by
  have hend := h.end_eq
  have hthree := h.three_le
  have hdouble : 2 ^ s.maxTreeLevel = 2 * 2 ^ (s.maxTreeLevel - 1) := by
    rw [← pow_succ']
    congr 1
    omega
  rw [frontSize, leavesFor, ← h.maxTreeLevel_eq]
  omega

section

variable {beyond : ℕ → LevelDescriptor} {mem : Memory} {offset frames : ℕ} {h : Heap}

/-- `kset` leaves a map in front of the tables alone. -/
theorem kset_slice {size : ℕ} (hsize : 5120 ≤ size) (hfits : offset + size < 2 ^ 32)
    {map : MemoryMap} {count : ℕ} (hlow : lowEnd ≤ map.array)
    (hhigh : map.array + 20 * count ≤ offset + (kset (boot beyond mem) size offset).end_) :
    map.slice (kset (boot beyond mem) size offset).mem 0 count = map.slice mem 0 count := by
  obtain ⟨hready, hoff, hsz, -⟩ := kset_ready beyond mem hsize (by omega) hfits.le
  have hend := hready.layout.end_eq
  have hpos := Nat.two_pow_pos ((kset (boot beyond mem) size offset).maxTreeLevel - 1)
  refine List.map_congr_left fun i hi => ?_
  have hi' := List.mem_range'_1.mp hi
  refine entry_congr (by omega) fun a h₁ h₂ => ?_
  exact kset_confined hsize hfits.le (by omega) (by omega) (by omega)

/-- What `mem_init` establishes. -/
structure Mapped (s : Allocator) (es : List MemoryEntry) (offset : ℕ) : Prop where
  layout : Layout s
  offset_eq : s.offset = arenaStart es offset
  size_eq : s.size = arenaSize es offset
  le_root : ∀ x ∈ fixedBy s es, x ≤ s.root
  settled : Settled s.tree s.root (fixedBy s es)

/-- Clearing the map leaves the tree alone. -/
theorem Layout.memset_tree {s : Allocator} (h : Layout s) {bytes : ℕ}
    (hbytes : memoryMapRam + bytes ≤ s.offset + s.end_) {z : Node} (hz : z ≤ s.root) :
    Allocator.tree { s with mem := memset s.mem memoryMapRam 0 (toInt bytes) } z = s.tree z := by
  have hfits := h.fits
  refine h.tree_eq_of_mem ⟨_, rfl⟩ (fun a h₁ _ => ?_) hz
  refine fillForward_frame _ _ _ _ _ fun j hj => ?_
  have hlt : j < bytes := by
    unfold toInt at hj
    split at hj <;> omega
  rw [wrap_of_lt (by omega)]
  omega

variable (beyond) in
/-- `mem_init` records the control structure and the reserved entries in the
tree. -/
theorem WellMapped.memInit_mapped (hmap : WellMapped (entries mem) offset) :
    Mapped (memInit (boot beyond mem) offset) (entries mem) offset := by
  have hfit : arenaStart (entries mem) offset + arenaSize (entries mem) offset < 2 ^ 32 := by
    have hroomy := hmap.roomy
    unfold arenaSize blockSize at *
    omega
  have hsize : 5120 ≤ arenaSize (entries mem) offset := hmap.roomy
  obtain ⟨hready, hoff, hsz, hexact⟩ := kset_ready beyond mem hsize (by omega) hfit.le
  have hlow : lowEnd ≤ (memLoadmap mem).array := show lowEnd ≤ memoryMapRam + 4 by decide
  have hslice (hhigh : (memLoadmap mem).array + 20 * (memLoadmap mem).length ≤
      arenaStart (entries mem) offset + (kset (boot beyond mem)
        (arenaSize (entries mem) offset) (arenaStart (entries mem) offset)).end_) :=
    kset_slice hsize hfit hlow hhigh
  have hinit : memInit (boot beyond mem) offset =
      let arena := reserveLoop (memLoadmap mem) (memLoadmap mem).length 0
        (kset (boot beyond mem) (arenaSize (entries mem) offset) (arenaStart (entries mem) offset))
      { arena with mem := memset arena.mem memoryMapRam 0 (toInt (memLoadmap mem).bytes) } :=
    WellMapped.memInit_eq (s := boot beyond mem) hmap
  generalize kset (boot beyond mem) (arenaSize (entries mem) offset)
    (arenaStart (entries mem) offset) = s₀ at *
  have hl := hready.layout
  have hleaves : leavesFor (arenaSize (entries mem) offset) = 2 ^ s₀.maxTreeLevel := by
    rw [hl.maxTreeLevel_eq, hsz]
    rfl
  have hlength : (entries mem).length = (memLoadmap mem).length := by
    rw [entries, MemoryMap.slice, List.length_map, List.length_range']
  have hfront : memoryMapRam + 4 + 20 * (memLoadmap mem).length ≤ s₀.offset + s₀.end_ := by
    rw [hl.end_eq_frontSize, hoff, hsz, ← hlength]
    exact hmap.intact
  have hentries : (memLoadmap mem).slice s₀.mem 0 (memLoadmap mem).length = entries mem :=
    hslice (hoff ▸ hfront)
  have hfixed : fixedBy s₀ [] = systemSegments s₀ := by simp [fixedBy]
  have hstart : Punched s₀ s₀ [] := by
    refine ⟨Confined.refl s₀, ?_, ?_⟩
    · rw [hfixed]
      exact systemSegments_le_root s₀
    · rw [hfixed]
      exact hexact hfit
  have hdone := hstart.reserveLoop hl hlow (memLoadmap mem).length 0
  rw [hentries, List.nil_append, Nat.zero_add, hoff, hsz, ← hleaves] at hdone
  have hpunched := hdone (hoff ▸ hfront) hmap.inside
  rw [hinit]
  generalize reserveLoop (memLoadmap mem) (memLoadmap mem).length 0 s₀ = s₁ at *
  have hsame := hpunched.confined.same
  have hbytes : (memLoadmap mem).bytes = 4 + 20 * (memLoadmap mem).length := by
    have hend := hl.end_eq
    have hpos := Nat.two_pow_pos (s₀.maxTreeLevel - 1)
    change ((memLoadmap mem).length * 20 + 4) % 2 ^ 32 = _
    omega
  have hregion : memoryMapRam + (memLoadmap mem).bytes ≤ s₁.offset + s₁.end_ := by
    obtain ⟨m, hm⟩ := hsame
    rw [hbytes, hm]
    simp only
    omega
  have hsame' : Same s₀ { s₁ with
      mem := memset s₁.mem memoryMapRam 0 (toInt (memLoadmap mem).bytes) } :=
    hsame.trans ⟨_, rfl⟩
  refine ⟨hl.same hsame', ?_, ?_, ?_, ?_⟩
  · obtain ⟨m, hm⟩ := hsame'
    rw [hm]
    exact hoff
  · obtain ⟨m, hm⟩ := hsame'
    rw [hm]
    exact hsz
  · rw [hsame'.fixedBy_eq, hsame'.root_eq]
    exact hpunched.le_root
  · rw [hsame'.fixedBy_eq, hsame'.root_eq]
    refine (hpunched.exact.settled (fixedBy_antichain _ _)).congr hpunched.le_root fun z hz => ?_
    exact (hl.same hsame).memset_tree hregion (hsame.root_eq ▸ hz)

/-- A byte of a live block lies in a segment that is neither marked nor part of
the control structure. -/
theorem Invariant.usable {s : Allocator} {es : List MemoryEntry} (hm : Mapped s es offset)
    (hmap : WellMapped es offset) {h : Heap} {x : Holding}
    (hi : Invariant (fixedBy s es) h x) (hsame : Same s h.alloc) {b : Block} (hb : b ∈ h.live)
    {a : ℕ} (ha : a ∈ b.range) : Usable es offset a := by
  obtain ⟨y, hy, rfl⟩ := hi.simulates.exists_node hb
  obtain ⟨hstart, hsegment⟩ := mem_block_iff.mp ha
  have hfields : h.alloc.offset = s.offset ∧ h.alloc.size = s.size ∧ h.alloc.end_ = s.end_ ∧
      h.alloc.maxTreeLevel = s.maxTreeLevel := by
    obtain ⟨m, hm⟩ := hsame
    rw [hm]
    exact ⟨rfl, rfl, rfl, rfl⟩
  obtain ⟨hoff, -, hend, hmax⟩ := hfields
  rw [hoff] at hstart hsegment
  have hle : (⟨0, (a - s.offset) / blockSize⟩ : Node) ≤ y := Node.mem_leaves.mp hsegment
  have hout : (⟨0, (a - s.offset) / blockSize⟩ : Node) ∉ fixedBy s es := fun hmem =>
    (hi.sound.fixed_apart _ hmem y hy).1 hle
  have hroot := (le_root_iff.mp (hle.trans (hi.held_le_root hy))).2
  rw [hmax, Nat.sub_zero] at hroot
  have hdiv := Nat.div_add_mod' (a - s.offset) blockSize
  have hmod := Nat.mod_lt (a - s.offset) (show 0 < blockSize by decide)
  have hclean := hmap.clean ((a - s.offset) / blockSize)
  rw [← hm.offset_eq, ← hm.size_eq, ← hm.layout.end_eq_frontSize] at hclean
  generalize (a - s.offset) / blockSize = i at *
  refine hclean ?_ ?_ a ?_ ?_
  · -- the segment is not one of the control structure
    rw [← Nat.le_div_iff_mul_le (by decide)]
    by_contra hcon
    exact hout (Or.inl ⟨rfl, Nat.le_of_lt_succ (Nat.lt_of_not_le hcon), Nat.le_pred_of_lt hroot⟩)
  · intro e he hfree hfirst hlast
    exact hout (Or.inr ⟨e, he, hfree, rfl, hfirst, hlast⟩)
  · omega
  · rw [Nat.add_mul]
    omega

theorem WellMapped.live_usable (hmap : WellMapped (entries mem) offset)
    (hrun : ReflTransGen (Step frames) ⟨memInit (boot beyond mem) offset, []⟩ h) :
    ∀ b ∈ h.live, ∀ a ∈ b.range, Usable (entries mem) offset a := by
  have hm := hmap.memInit_mapped beyond
  have hstart := Invariant.start hm.layout Set.subset_union_left hm.le_root hm.settled
  obtain ⟨x, hx⟩ := hstart.run hrun
  intro b hb a ha
  exact hx.invariant.usable hm hmap hx.same hb ha

/-- Under a map that keeps the reserved and the undescribed bytes out of the
segments that are handed out, `kmalloc` returns usable memory in every run. -/
theorem kmalloc_usable {size r : ℕ} {s' : Allocator} (hmap : WellMapped (entries mem) offset)
    (hrun : ReflTransGen (Step frames) ⟨memInit (boot beyond mem) offset, []⟩ h)
    (hstack : 4 * frames ≤ 2 ^ 32) (hword : size < 2 ^ 32)
    (hcall : kmalloc frames h.alloc size = some (r, s')) (hr : r ≠ 0) :
    ∀ a ∈ (⟨r, reservedSize size⟩ : Block).range, Usable (entries mem) offset a := by
  by_cases hserves : h.alloc.Serves size
  · have hnext := hrun.tail (.malloc hserves hcall)
    refine hmap.live_usable hnext _ ?_
    rw [grant, if_neg hr]
    exact List.mem_cons_self
  · -- other requests are refused, or the search never returns
    exfalso
    have hm := hmap.memInit_mapped beyond
    have hstart := Invariant.start hm.layout Set.subset_union_left hm.le_root hm.settled
    obtain ⟨x, hx⟩ := hstart.run hrun
    have hl := hx.invariant.layout
    rcases Nat.eq_zero_or_pos size with rfl | hpos
    · rcases eq_or_lt_of_le hl.le_twentyTwo with hmax | hmax
      · rw [hx.invariant.kmalloc_zero frames hmax] at hcall
        cases hcall
        exact hr rfl
      · rw [hl.kmalloc_eq_none hstack (by rwa [requestLevel_zero])] at hcall
        cases hcall
    · have hlevel := hl.lt_requestLevel hpos hword fun hle => hserves ⟨hpos, hword, hle⟩
      rw [hl.kmalloc_eq_none hstack hlevel] at hcall
      cases hcall

end

/-! ## Two maps -/

/-- The bytes of a map. -/
def mapBytes (es : List MemoryEntry) : List UInt8 :=
  ByteRange.leBytes 4 es.length ++ es.flatMap fun e =>
    ByteRange.leBytes 8 e.base ++ ByteRange.leBytes 8 e.length ++ ByteRange.leBytes 4 e.type

/-- A memory that holds a map and is clear otherwise. -/
def mapMemory (es : List MemoryEntry) : Memory :=
  ByteRange.writeBytes (fun _ => 0) memoryMapRam (mapBytes es)

/-- Eight KiB at address `0x1000`, of which one segment is reserved. -/
def reservedMap : List MemoryEntry := [⟨0x1000, 0x2000, 1⟩, ⟨0x1800, 0x400, 2⟩]

theorem entries_reservedMap : entries (mapMemory reservedMap) = reservedMap := by
  decide +kernel

theorem reservedMap_wellMapped : WellMapped reservedMap 0x1000 where
  roomy := by decide +kernel
  intact := by decide +kernel
  inside := by decide +kernel
  clean := by
    have hfront : frontSize (arenaSize reservedMap 0x1000) = 8188 := by decide +kernel
    have hstart : arenaStart reservedMap 0x1000 = 0x1000 := by decide +kernel
    have hmarks : firstMarked 0x1000 (arenaSize reservedMap 0x1000) ⟨0x1800, 0x400, 2⟩ = 2 ∧
        lastMarked 0x1000 (arenaSize reservedMap 0x1000) ⟨0x1800, 0x400, 2⟩ = 2 := by
      decide +kernel
    rw [hfront, hstart]
    intro i hi hout a h₁ h₂
    have hne : ¬ (2 ≤ i ∧ i ≤ 2) := fun h =>
      hout ⟨0x1800, 0x400, 2⟩ (by decide) (by decide) (hmarks.1 ▸ h.1) (hmarks.2 ▸ h.2)
    unfold blockSize at *
    refine ⟨by omega, ⟨⟨0x1000, 0x2000, 1⟩, by decide, by decide, ?_⟩, ?_⟩
    · exact Set.mem_Ico.mpr ⟨by simp only; omega, by simp only; omega⟩
    · intro e he hfree hmem
      rcases List.mem_pair.mp he with rfl | rfl
      · exact hfree rfl
      · have hrange := Set.mem_Ico.mp hmem
        simp only at hrange
        omega

/-- The first request is served in front of the reserved segment. -/
theorem kmalloc_usable_reservedMap :
    ∃ s', kmalloc 64 (memInit (boot (fun _ => ⟨0, 0⟩) (mapMemory reservedMap)) 0x1000) 2048 =
        some (0x1000, s') ∧
      ∀ a ∈ (⟨0x1000, reservedSize 2048⟩ : Block).range, Usable reservedMap 0x1000 a := by
  have hfst : (kmalloc 64 (memInit (boot (fun _ => ⟨0, 0⟩) (mapMemory reservedMap)) 0x1000)
      2048).map Prod.fst = some 0x1000 := by
    decide +kernel
  obtain ⟨⟨r, s'⟩, hcall, rfl⟩ := Option.map_eq_some_iff.mp hfst
  have hmap : WellMapped (entries (mapMemory reservedMap)) 0x1000 :=
    entries_reservedMap ▸ reservedMap_wellMapped
  refine ⟨s', hcall, ?_⟩
  rw [← entries_reservedMap]
  exact kmalloc_usable hmap .refl (by decide) (by decide) hcall (by decide)

/-- Two free entries with a gap between them. -/
def gappedMap : List MemoryEntry := [⟨0x1000, 0x400, 1⟩, ⟨0x2C00, 0x400, 1⟩]

/-- The gap is not marked, and the first request of two segments runs into
it. -/
theorem kmalloc_hands_out_gap :
    entries (mapMemory gappedMap) = gappedMap ∧
      ∃ s', kmalloc 64 (memInit (boot (fun _ => ⟨0, 0⟩) (mapMemory gappedMap)) 0x1000) 2048 =
          some (0x1000, s') ∧
        0x1400 ∈ (⟨0x1000, reservedSize 2048⟩ : Block).range ∧
        ¬ Usable gappedMap 0x1000 0x1400 := by
  have hfst : (kmalloc 64 (memInit (boot (fun _ => ⟨0, 0⟩) (mapMemory gappedMap)) 0x1000)
      2048).map Prod.fst = some 0x1000 := by
    decide +kernel
  obtain ⟨⟨r, s'⟩, hcall, rfl⟩ := Option.map_eq_some_iff.mp hfst
  have hsize : reservedSize 2048 = 2048 := by decide +kernel
  refine ⟨by decide +kernel, s', hcall, ?_, ?_⟩
  · rw [hsize]
    exact ⟨by decide, by decide⟩
  · rintro ⟨-, ⟨e, he, -, hmem⟩, -⟩
    have hrange := Set.mem_Ico.mp hmem
    rcases List.mem_pair.mp he with rfl | rfl
    · simp only at hrange
      omega
    · simp only at hrange
      omega

end Neos.Kmalloc
