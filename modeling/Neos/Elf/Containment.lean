import Mathlib.Tactic.Set
import Neos.Elf.Loading

/-!
# The image stays in its block

A byte that the loader writes for a segment is in the block of the image exactly
when the segment, counted from the lowest one without reducing anything modulo
`2 ^ 32`, ends inside it.
-/

namespace Neos

open BitMemory

namespace Elf

variable {F H : Type}

/-- An address between the lowest and the highest byte of the segments, and
inside the allocated block. -/
def Region.Inside (r : Region) (a : ℕ) : Prop :=
  ∃ i, i < r.bytes ∧ r.start + i < r.size ∧ a = wrap (r.image + r.start + i)

/-- Nothing was written through a null pointer, and the image was written only
where its segments belong. -/
def Confined (s : Machine F H) : Prop :=
  ∀ w ∈ s.written, w.block ≠ 0 ∧
    (w.target = .image → ∃ r, s.region = some r ∧ r.Inside w.address)

/-- A part of the image ends inside the block. -/
def Region.Holds (r : Region) (address bytes : ℕ) : Prop :=
  0 < bytes → r.image ≠ 0 ∧ address + bytes ≤ r.bytes ∧ r.start + (address + bytes) ≤ r.size

/-- The file and the heap as `elf_load` finds them. -/
def start (f : F) (h : H) (m : Memory) : Machine F H := ⟨f, h, m, [], none⟩

/-- The segment table is not stored through a null pointer, and every segment
that is reached ends inside the block of the image. -/
def Contained (d : FileDriver F) (k : HeapDriver H) (stack : Stack) (header : Elf32Ehdr)
    (program : ProgramImage) (f : F) (h : H) : Prop :=
  let table := k.kmalloc h (imageSegmentSize * header.phnum)
  let found := find d stack header f
  (found.segments ≠ [] → table.1 ≠ 0) ∧
    (found.complete = true →
      ∀ before segment after f', found.segments = before ++ segment :: after →
        afterContents d found.file before = some f' →
          (regionFor k table.2 program found.segments).Holds
            (segment.address (lowest found.segments)) (extent d f' segment))

/-- A range of addresses is inside a region exactly when its end is. -/
theorem inside_iff {r : Region} {address n : ℕ} (hbytes : r.bytes < 2 ^ 32)
    (haddress : address < 2 ^ 32) :
    (∀ i, i < n → r.Inside (wrap (r.image + r.start + address + i))) ↔
      (0 < n → address + n ≤ r.bytes ∧ r.start + (address + n) ≤ r.size) := by
  constructor
  · intro h hn
    by_cases hend : address + n ≤ 2 ^ 32
    · obtain ⟨j, hj, hsize, heq⟩ := h (n - 1) (by omega)
      unfold wrap at heq
      have hj' : j = address + n - 1 := by omega
      omega
    · -- the last address of all is beyond the bytes of any region
      obtain ⟨j, hj, hsize, heq⟩ := h (2 ^ 32 - 1 - address) (by omega)
      unfold wrap at heq
      omega
  · intro h i hi
    obtain ⟨hin, hsize⟩ := h (by omega)
    refine ⟨address + i, by omega, by omega, ?_⟩
    rw [← Nat.add_assoc]

theorem regionFor_bytes_lt (k : HeapDriver H) (h : H) (program : ProgramImage)
    (segments : List ImageSegment) : (regionFor k h program segments).bytes < 2 ^ 32 :=
  Nat.mod_lt _ (by decide)

theorem address_lt (segment : ImageSegment) (mount : ℕ) : segment.address mount < 2 ^ 32 :=
  Nat.mod_lt _ (by decide)

/-- The loader writes only where it may exactly when every segment it reaches
ends inside the block of the image. -/
theorem elfSegments_confined_iff (d : FileDriver F) (k : HeapDriver H) (stack : Stack)
    (header : Elf32Ehdr) (program : ProgramImage) (f : F) (h : H) (m : Memory) :
    Confined (elfSegments d k stack header program (start f h m)).2.2 ↔
      Contained d k stack header program f h := by
  have htable : ∀ ws : List Write, (∀ w ∈ ws, w.target = .table ∧
        w.block = (k.kmalloc h (imageSegmentSize * header.phnum)).1) →
      (ws = [] ↔ (find d stack header f).segments = []) →
        ((∀ w ∈ ws, w.block ≠ 0) ↔ ((find d stack header f).segments ≠ [] →
          (k.kmalloc h (imageSegmentSize * header.phnum)).1 ≠ 0)) := by
    intro ws hws hnil
    constructor
    · intro hall hsome
      obtain ⟨w, hw⟩ := List.exists_mem_of_ne_nil ws (hnil.not.mpr hsome)
      rw [← (hws w hw).2]
      exact hall w hw
    · intro hone w hw
      rw [(hws w hw).2]
      apply hone
      intro hnone
      rw [hnil.mpr hnone] at hw
      exact absurd hw List.not_mem_nil
  cases hcomplete : (find d stack header f).complete with
  | false =>
      obtain ⟨ws, heq, hws, hnil⟩ := elfSegments_incomplete d k stack header program
        (start f h m) hcomplete
      rw [heq]
      constructor
      · intro hconfined
        refine ⟨(htable ws hws hnil).mp fun w hw => (hconfined w hw).1, ?_⟩
        intro htrue
        exact absurd (hcomplete.symm.trans htrue) nofun
      · rintro ⟨hone, -⟩ w hw
        change w ∈ [] ++ ws at hw
        rw [List.nil_append] at hw
        refine ⟨(htable ws hws hnil).mpr hone w hw, ?_⟩
        intro himage
        exact absurd ((hws w hw).1.symm.trans himage) nofun
  | true =>
      obtain ⟨ws, hall⟩ := elfSegments_complete d k stack header program (start f h m) hcomplete
      obtain ⟨heq, hws, hnil⟩ := hall _ _ _ _ rfl rfl rfl rfl
      change (∀ w ∈ ws, w.target = .table ∧
        w.block = (k.kmalloc h (imageSegmentSize * header.phnum)).1) at hws
      change ws = [] ↔ (find d stack header f).segments = [] at hnil
      change elfSegments d k stack header program (start f h m) = _ at heq
      set found := find d stack header f with hfound
      set table := k.kmalloc h (imageSegmentSize * header.phnum)
      set region := regionFor k table.2 program found.segments
      obtain ⟨ws', hwritten, hmem⟩ := copyLoop_written d region.image
        (region.image + program.prefix_) (lowest found.segments) found.segments
        (⟨found.file, (k.kmalloc table.2 region.size).2, m, ws, some region⟩ : Machine F H)
      obtain ⟨-, hregion⟩ := copyLoop_frame d region.image
        (region.image + program.prefix_) (lowest found.segments) found.segments
        (⟨found.file, (k.kmalloc table.2 region.size).2, m, ws, some region⟩ : Machine F H)
      have hwritten' : (elfSegments d k stack header program (start f h m)).2.2.written =
          ws ++ ws' := by
        rw [heq]
        split
        · exact hwritten
        · exact hwritten
      have hregion' : (elfSegments d k stack header program (start f h m)).2.2.region =
          some region := by
        rw [heq]
        split
        · exact hregion
        · exact hregion
      unfold Confined
      rw [hwritten', hregion']
      constructor
      · intro hconfined
        refine ⟨(htable ws hws hnil).mp fun w hw => (hconfined w (List.mem_append_left _ hw)).1, ?_⟩
        intro _ before segment after f' hsplit hf hpos
        have hw := fun i hi => hconfined _ (List.mem_append_right ws
          ((hmem _).mpr ⟨before, segment, after, f', hsplit, hf, i, hi, rfl⟩))
        refine ⟨(hw 0 hpos).1, ?_⟩
        refine (inside_iff (regionFor_bytes_lt _ _ _ _) (address_lt _ _)).mp ?_ hpos
        intro i hi
        obtain ⟨r, hr, hinside⟩ := (hw i hi).2 rfl
        obtain rfl := Option.some.inj hr
        exact hinside
      · rintro ⟨hone, hfits⟩ w hw
        rcases List.mem_append.mp hw with hw | hw
        · refine ⟨(htable ws hws hnil).mpr hone w hw, ?_⟩
          intro himage
          exact absurd ((hws w hw).1.symm.trans himage) nofun
        · obtain ⟨before, segment, after, f', hsplit, hf, i, hi, rfl⟩ := (hmem w).mp hw
          have hholds := hfits hcomplete before segment after f' hsplit hf
          refine ⟨(hholds (by omega)).1, fun _ => ⟨region, rfl, ?_⟩⟩
          exact (inside_iff (regionFor_bytes_lt _ _ _ _) (address_lt _ _)).mpr
            (fun hpos => (hholds hpos).2) i hi

/-- A file whose contents are at hand, read from a position. -/
def contentsDriver (contents : List UInt8) : FileDriver ℕ where
  seek _ offset := offset
  read position size :=
    let bytes := (contents.drop position).take size
    (bytes, bytes.length, position + bytes.length)
  length_read _ _ := List.length_take_le _ _

/-- A heap that hands out one block behind the other. -/
def bumpHeap : HeapDriver ℕ where
  kmalloc next size := (next, next + size)
  kfree next _ := next
  kmsz next pointer := next - pointer

/-- A file header with a number of program headers behind it. -/
def fileHeader (phnum : UInt8) : List UInt8 :=
  [0x7F, 0x45, 0x4C, 0x46, 1, 1, 1, 0, 0, 0, 0, 0, 0, 0, 0, 0, 2, 0, 3, 0, 1, 0, 0, 0,
    0x10, 0, 0, 0, 52, 0, 0, 0, 0, 0, 0, 0, 0, 0, 0, 0, 52, 0, 32, 0, phnum, 0, 0, 0, 0, 0, 0, 0]

/-- The header of a loadable segment with four bytes of contents, those at the
beginning of the file. -/
def segmentHeader (vaddr memsz : List UInt8) : List UInt8 :=
  [1, 0, 0, 0, 0, 0, 0, 0] ++ vaddr ++ [0, 0, 0, 0, 4, 0, 0, 0] ++ memsz ++
    [7, 0, 0, 0, 4, 0, 0, 0]

/-- Two segments, at `0xFFFFFFF0` with `0x20` bytes and at `0x10` with `0x10`
bytes. -/
def wrappingFile : List UInt8 :=
  fileHeader 2 ++ segmentHeader [0xF0, 0xFF, 0xFF, 0xFF] [0x20, 0, 0, 0] ++
    segmentHeader [0x10, 0, 0, 0] [0x10, 0, 0, 0]

end Elf

end Neos
