import Mathlib.Tactic.Ring
import Neos.Elf.Model

/-!
# What the loader writes

The loader is followed through its two loops.  Which headers are read, which
segments they describe and how much of each is copied depends on the file alone;
everything written lies in the block of the image exactly when every segment
that is reached fits there.
-/

namespace Neos

open BitMemory

namespace Elf

variable {F H : Type}

/-! ## What the file decides -/

/-- The program headers up to the first failing read, whether there was none,
and the file after them. -/
def readHeaders (d : FileDriver F) (stack : Stack) (header : Elf32Ehdr) :
    ℕ → ℕ → F → List Elf32Phdr × Bool × F
  | 0, _, f => ([], true, f)
  | left + 1, i, f =>
      let read := d.read (d.seek f (wrap (header.phoff + i * header.phentsize))) phdrSize
      if read.2.1 = 0 then ([], false, read.2.2)
      else
        let rest := readHeaders d stack header left (i + 1) read.2.2
        (Elf32Phdr.ofBytes (overwrite (stack.entry i) read.1) :: rest.1, rest.2)

/-- The loadable segments among some program headers. -/
def loadable (entries : List Elf32Phdr) : List ImageSegment :=
  (entries.filter fun entry => entry.type = ptLoad).map Elf32Phdr.segment

/-- The lowest address of some segments. -/
def lowest (segments : List ImageSegment) : ℕ :=
  segments.foldl (fun low segment => min low segment.memOffset) (2 ^ 32 - 1)

/-- The highest end of some segments, each end reduced modulo `2 ^ 32`. -/
def highest (segments : List ImageSegment) : ℕ :=
  segments.foldl (fun high segment => max high (wrap (segment.memOffset + segment.memSize))) 0

/-- The file after the contents of some segments were read; `none` when a read
fails. -/
def afterContents (d : FileDriver F) : F → List ImageSegment → Option F
  | f, [] => some f
  | f, segment :: segments =>
      let read := d.read (d.seek f segment.fileOffset) segment.content
      if read.2.1 = 0 then none else afterContents d read.2.2 segments

/-- The number of bytes written for a segment: its contents, as far as the file
delivers them, and after a successful read the padding in the same place. -/
def extent (d : FileDriver F) (f : F) (segment : ImageSegment) : ℕ :=
  let read := d.read (d.seek f segment.fileOffset) segment.content
  if read.2.1 = 0 then read.1.length else max read.1.length segment.padding

/-- The block that is allocated for some segments. -/
def regionFor (k : HeapDriver H) (h : H) (program : ProgramImage)
    (segments : List ImageSegment) : Region :=
  let bytes := wrap (highest segments + 2 ^ 32 - lowest segments)
  let size := wrap (bytes + program.prefix_ + program.sufix)
  ⟨(k.kmalloc h size).1, size, program.prefix_, bytes⟩

/-! ## The loop over the program headers -/

/-- The bounds widened by one segment after the other. -/
def Scan.addAll (scan : Scan) (segments : List ImageSegment) : Scan where
  segments := scan.segments ++ segments
  low := segments.foldl (fun low segment => min low segment.memOffset) scan.low
  high :=
    segments.foldl (fun high segment => max high (wrap (segment.memOffset + segment.memSize)))
      scan.high

theorem Scan.addAll_nil (scan : Scan) : scan.addAll [] = scan := by
  rw [addAll, List.append_nil]
  rfl

theorem Scan.addAll_cons (scan : Scan) (entry : Elf32Phdr) (segments : List ImageSegment) :
    (scan.add entry).addAll segments = scan.addAll (entry.segment :: segments) := by
  have hlow : (scan.add entry).low = min scan.low entry.vaddr := by
    unfold add
    dsimp only
    split <;> omega
  have hhigh : (scan.add entry).high = max scan.high (wrap (entry.vaddr + entry.memsz)) := by
    unfold add
    dsimp only
    split <;> omega
  rw [addAll, addAll, hlow, hhigh]
  simp only [add, List.append_assoc]
  rfl

theorem loadable_cons (entry : Elf32Phdr) (entries : List Elf32Phdr) :
    loadable (entry :: entries) =
      if entry.type = ptLoad then entry.segment :: loadable entries else loadable entries := by
  unfold loadable
  rw [List.filter_cons]
  by_cases h : entry.type = ptLoad
  · simp [h]
  · simp [h]

/-- The loop collects the loadable segments, and what it writes is their
entries of the table. -/
theorem scanLoop_eq (d : FileDriver F) (stack : Stack) (header : Elf32Ehdr) (phlptr : ℕ) :
    ∀ (left i : ℕ) (scan : Scan) (s : Machine F H),
      ∃ ws, scanLoop d stack header phlptr left i scan s =
          (if (readHeaders d stack header left i s.file).2.1 then elfSuccess else elfReadError,
            scan.addAll (loadable (readHeaders d stack header left i s.file).1),
            { s with
              file := (readHeaders d stack header left i s.file).2.2
              written := s.written ++ ws }) ∧
        (∀ w ∈ ws, w.target = .table ∧ w.block = phlptr) ∧
        (ws = [] ↔ loadable (readHeaders d stack header left i s.file).1 = []) := by
  intro left
  induction left with
  | zero =>
      intro i scan s
      refine ⟨[], ?_, nofun, iff_of_true rfl rfl⟩
      rw [List.append_nil]
      show _ = (elfSuccess, scan.addAll [], s)
      rw [Scan.addAll_nil]
      rfl
  | succ left ih =>
      intro i scan s
      unfold scanLoop readHeaders
      dsimp only
      generalize d.read (d.seek s.file (wrap (header.phoff + i * header.phentsize))) phdrSize =
        read
      by_cases hfail : read.2.1 = 0
      · rw [if_pos hfail, if_pos hfail]
        refine ⟨[], ?_, nofun, iff_of_true rfl rfl⟩
        rw [List.append_nil]
        show _ = (elfReadError, scan.addAll [], _)
        rw [Scan.addAll_nil]
      rw [if_neg hfail, if_neg hfail]
      dsimp only
      rw [loadable_cons]
      generalize Elf32Phdr.ofBytes (overwrite (stack.entry i) read.1) = entry
      by_cases hload : entry.type = ptLoad
      · rw [if_pos hload, if_pos hload]
        obtain ⟨ws, heq, htable, -⟩ := ih (i + 1) (scan.add entry)
          (Machine.touch { s with file := read.2.2 } .table phlptr
            (phlptr + imageSegmentSize * scan.segments.length) imageSegmentSize)
        rw [heq, Scan.addAll_cons]
        refine ⟨(List.range imageSegmentSize).map (fun j => ⟨.table, phlptr,
          wrap (phlptr + imageSegmentSize * scan.segments.length + j)⟩) ++ ws, ?_, ?_, ?_⟩
        · rw [← List.append_assoc]
          rfl
        · intro w hw
          rcases List.mem_append.mp hw with hw | hw
          · obtain ⟨j, -, rfl⟩ := List.mem_map.mp hw
            exact ⟨rfl, rfl⟩
          · exact htable w hw
        · refine iff_of_false ?_ (List.cons_ne_nil _ _)
          intro hnil
          have hlength := congrArg List.length hnil
          rw [List.length_append, List.length_map, List.length_range, imageSegmentSize] at hlength
          exact absurd hlength (by rw [List.length_nil]; omega)
      · rw [if_neg hload, if_neg hload]
        exact ih (i + 1) scan { s with file := read.2.2 }

/-! ## The loop over the segments -/

/-- A copied segment is written to a range of addresses from its place on. -/
theorem elfSegcpy_written (d : FileDriver F) (block image mount : ℕ) (segment : ImageSegment)
    (s : Machine F H) :
    ∃ ws, (elfSegcpy d block image mount segment s).2.written = s.written ++ ws ∧
      ∀ w, w ∈ ws ↔ ∃ i, i < extent d s.file segment ∧
        w = ⟨.image, block, wrap (image + segment.address mount + i)⟩ := by
  have hrange : ∀ (n : ℕ) (w : Write),
      w ∈ (List.range n).map (fun i => (⟨.image, block,
        wrap (image + segment.address mount + i)⟩ : Write)) ↔
        ∃ i, i < n ∧ w = ⟨.image, block, wrap (image + segment.address mount + i)⟩ := by
    intro n w
    rw [List.mem_map]
    constructor
    · rintro ⟨i, hi, rfl⟩
      exact ⟨i, List.mem_range.mp hi, rfl⟩
    · rintro ⟨i, hi, rfl⟩
      exact ⟨i, List.mem_range.mpr hi, rfl⟩
  unfold elfSegcpy extent
  dsimp only
  generalize d.read (d.seek s.file segment.fileOffset) segment.content = read
  by_cases hfail : read.2.1 = 0
  · rw [if_pos hfail, if_pos hfail]
    exact ⟨_, rfl, hrange _⟩
  · rw [if_neg hfail, if_neg hfail]
    refine ⟨_, List.append_assoc _ _ _, ?_⟩
    intro w
    rw [List.mem_append, hrange, hrange]
    constructor
    · rintro (⟨i, hi, rfl⟩ | ⟨i, hi, rfl⟩)
      · exact ⟨i, lt_of_lt_of_le hi (Nat.le_max_left _ _), rfl⟩
      · exact ⟨i, lt_of_lt_of_le hi (Nat.le_max_right _ _), rfl⟩
    · rintro ⟨i, hi, rfl⟩
      rcases lt_max_iff.mp hi with hi | hi
      · exact .inl ⟨i, hi, rfl⟩
      · exact .inr ⟨i, hi, rfl⟩

theorem elfSegcpy_success_iff (d : FileDriver F) (block image mount : ℕ)
    (segment : ImageSegment) (s : Machine F H) :
    (elfSegcpy d block image mount segment s).1 = elfSuccess ↔
      (d.read (d.seek s.file segment.fileOffset) segment.content).2.1 ≠ 0 := by
  unfold elfSegcpy
  dsimp only
  split
  · rename_i hfail
    exact iff_of_false (show ¬ elfReadError = elfSuccess by decide) (not_not.mpr hfail)
  · rename_i hread
    exact iff_of_true rfl hread

theorem elfSegcpy_file (d : FileDriver F) (block image mount : ℕ) (segment : ImageSegment)
    (s : Machine F H) :
    (elfSegcpy d block image mount segment s).2.file =
      (d.read (d.seek s.file segment.fileOffset) segment.content).2.2 := by
  unfold elfSegcpy
  dsimp only
  split
  · rfl
  · rfl

/-- Copying a segment goes on with the file after its contents. -/
theorem afterContents_cons (d : FileDriver F) (block image mount : ℕ) (segment : ImageSegment)
    (s : Machine F H) (segments : List ImageSegment) :
    afterContents d s.file (segment :: segments) =
      if (elfSegcpy d block image mount segment s).1 = elfSuccess then
        afterContents d (elfSegcpy d block image mount segment s).2.file segments
      else none := by
  rw [elfSegcpy_file]
  by_cases hread : (d.read (d.seek s.file segment.fileOffset) segment.content).2.1 = 0
  · have hfail := (elfSegcpy_success_iff d block image mount segment s).not.mpr
      (not_not.mpr hread)
    rw [if_neg hfail]
    exact if_pos hread
  · rw [if_pos ((elfSegcpy_success_iff d block image mount segment s).mpr hread)]
    exact if_neg hread

theorem elfSegcpy_frame (d : FileDriver F) (block image mount : ℕ) (segment : ImageSegment)
    (s : Machine F H) :
    (elfSegcpy d block image mount segment s).2.heap = s.heap ∧
      (elfSegcpy d block image mount segment s).2.region = s.region := by
  unfold elfSegcpy
  dsimp only
  split
  · exact ⟨rfl, rfl⟩
  · exact ⟨rfl, rfl⟩

/-- What the loop writes is what is written for every segment it reaches. -/
theorem copyLoop_written (d : FileDriver F) (block image mount : ℕ) :
    ∀ (segments : List ImageSegment) (s : Machine F H),
      ∃ ws, (copyLoop d block image mount segments s).2.written = s.written ++ ws ∧
        ∀ w, w ∈ ws ↔ ∃ before segment after f, segments = before ++ segment :: after ∧
          afterContents d s.file before = some f ∧
          ∃ i, i < extent d f segment ∧
            w = ⟨.image, block, wrap (image + segment.address mount + i)⟩ := by
  intro segments
  induction segments with
  | nil =>
      intro s
      refine ⟨[], (List.append_nil _).symm, ?_⟩
      intro w
      refine iff_of_false List.not_mem_nil ?_
      rintro ⟨before, segment, after, f, hsplit, -⟩
      exact absurd hsplit (List.append_ne_nil_of_right_ne_nil _ (List.cons_ne_nil _ _)).symm
  | cons first segments ih =>
      intro s
      obtain ⟨ws, hws, hmem⟩ := elfSegcpy_written d block image mount first s
      have hfile := afterContents_cons d block image mount first s
      unfold copyLoop
      dsimp only
      generalize elfSegcpy d block image mount first s = copied at hws hfile
      by_cases hfail : copied.1 = elfSuccess
      · rw [if_neg (not_not.mpr hfail)]
        obtain ⟨ws', hws', hmem'⟩ := ih copied.2
        refine ⟨ws ++ ws', by rw [hws', hws, List.append_assoc], ?_⟩
        intro w
        rw [List.mem_append, hmem, hmem']
        constructor
        · rintro (⟨i, hi, rfl⟩ | ⟨before, segment, after, f, rfl, hf, hw⟩)
          · exact ⟨[], first, segments, s.file, rfl, rfl, i, hi, rfl⟩
          · refine ⟨first :: before, segment, after, f, rfl, ?_, hw⟩
            rw [hfile, if_pos hfail, hf]
        · rintro ⟨before, segment, after, f, hsplit, hf, hw⟩
          cases before with
          | nil =>
              obtain ⟨rfl, rfl⟩ := List.cons.inj hsplit
              obtain rfl := Option.some.inj hf
              exact .inl hw
          | cons other before =>
              obtain ⟨rfl, rfl⟩ := List.cons.inj hsplit
              rw [hfile, if_pos hfail] at hf
              exact .inr ⟨before, segment, after, f, rfl, hf, hw⟩
      · rw [if_pos hfail]
        refine ⟨ws, hws, ?_⟩
        intro w
        rw [hmem]
        constructor
        · intro hw
          exact ⟨[], first, segments, s.file, rfl, rfl, hw⟩
        · rintro ⟨before, segment, after, f, hsplit, hf, hw⟩
          cases before with
          | nil =>
              obtain ⟨rfl, rfl⟩ := List.cons.inj hsplit
              obtain rfl := Option.some.inj hf
              exact hw
          | cons other before =>
              obtain ⟨rfl, rfl⟩ := List.cons.inj hsplit
              rw [hfile, if_neg hfail] at hf
              exact absurd hf nofun

theorem copyLoop_frame (d : FileDriver F) (block image mount : ℕ) :
    ∀ (segments : List ImageSegment) (s : Machine F H),
      (copyLoop d block image mount segments s).2.heap = s.heap ∧
        (copyLoop d block image mount segments s).2.region = s.region := by
  intro segments
  induction segments with
  | nil => exact fun s => ⟨rfl, rfl⟩
  | cons first segments ih =>
      intro s
      obtain ⟨hheap, hregion⟩ := elfSegcpy_frame d block image mount first s
      unfold copyLoop
      dsimp only
      split
      · exact ⟨hheap, hregion⟩
      · obtain ⟨hheap', hregion'⟩ := ih (elfSegcpy d block image mount first s).2
        exact ⟨hheap'.trans hheap, hregion'.trans hregion⟩

/-- The loop succeeds exactly when no read of the contents fails. -/
theorem copyLoop_success_iff (d : FileDriver F) (block image mount : ℕ) :
    ∀ (segments : List ImageSegment) (s : Machine F H),
      (copyLoop d block image mount segments s).1 = elfSuccess ↔
        (afterContents d s.file segments).isSome = true := by
  intro segments
  induction segments with
  | nil => exact fun s => iff_of_true rfl rfl
  | cons first segments ih =>
      intro s
      rw [afterContents_cons d block image mount first s]
      unfold copyLoop
      dsimp only
      by_cases hfirst : (elfSegcpy d block image mount first s).1 = elfSuccess
      · rw [if_neg (not_not.mpr hfirst), if_pos hfirst]
        exact ih _
      · rw [if_pos hfirst, if_neg hfirst]
        exact iff_of_false hfirst nofun

/-! ## The whole of `elf_segments` -/

/-- What `elf_segments` finds in the program header table. -/
structure Found (F : Type) where
  segments : List ImageSegment
  complete : Bool
  file : F

/-- The segments in the program header table of a file. -/
def find (d : FileDriver F) (stack : Stack) (header : Elf32Ehdr) (f : F) : Found F :=
  let read := readHeaders d stack header header.phnum 0 f
  ⟨loadable read.1, read.2.1, read.2.2⟩

/-- A failing read leaves the table behind. -/
theorem elfSegments_incomplete (d : FileDriver F) (k : HeapDriver H) (stack : Stack)
    (header : Elf32Ehdr) (program : ProgramImage) (s : Machine F H)
    (h : (find d stack header s.file).complete = false) :
    ∃ ws, elfSegments d k stack header program s =
        (elfReadError, program,
          { s with
            file := (find d stack header s.file).file
            heap := (k.kmalloc s.heap (imageSegmentSize * header.phnum)).2
            written := s.written ++ ws }) ∧
      (∀ w ∈ ws, w.target = .table ∧
        w.block = (k.kmalloc s.heap (imageSegmentSize * header.phnum)).1) ∧
      (ws = [] ↔ (find d stack header s.file).segments = []) := by
  obtain ⟨ws, heq, htable, hnil⟩ := scanLoop_eq d stack header
    (k.kmalloc s.heap (imageSegmentSize * header.phnum)).1 header.phnum 0 ⟨[], 2 ^ 32 - 1, 0⟩
    { s with heap := (k.kmalloc s.heap (imageSegmentSize * header.phnum)).2 }
  refine ⟨ws, ?_, htable, hnil⟩
  change (readHeaders d stack header header.phnum 0 s.file).2.1 = false at h
  unfold elfSegments
  dsimp only
  rw [heq]
  dsimp only
  rw [h, if_neg Bool.false_ne_true, if_pos (by decide)]
  rfl

/-- Once all headers are read, the segments are copied into a block of their
own and the table is given back. -/
theorem elfSegments_complete (d : FileDriver F) (k : HeapDriver H) (stack : Stack)
    (header : Elf32Ehdr) (program : ProgramImage) (s : Machine F H)
    (h : (find d stack header s.file).complete = true) :
    ∃ ws, ∀ found table region copied, found = find d stack header s.file →
      table = k.kmalloc s.heap (imageSegmentSize * header.phnum) →
      region = regionFor k table.2 program found.segments →
      copied = copyLoop d region.image (region.image + program.prefix_)
        (lowest found.segments) found.segments
        { s with
          file := found.file
          heap := (k.kmalloc table.2 region.size).2
          written := s.written ++ ws
          region := some region } →
      elfSegments d k stack header program s =
          (if copied.1 = elfSuccess then
            (elfSuccess, { program with image := region.image, mount := lowest found.segments },
              { copied.2 with heap := k.kfree (k.kmalloc table.2 region.size).2 table.1 })
          else
            (copied.1, program,
              { copied.2 with heap := k.kfree (k.kmalloc table.2 region.size).2 table.1 })) ∧
        (∀ w ∈ ws, w.target = .table ∧ w.block = table.1) ∧
        (ws = [] ↔ found.segments = []) := by
  obtain ⟨ws, heq, htable, hnil⟩ := scanLoop_eq d stack header
    (k.kmalloc s.heap (imageSegmentSize * header.phnum)).1 header.phnum 0 ⟨[], 2 ^ 32 - 1, 0⟩
    { s with heap := (k.kmalloc s.heap (imageSegmentSize * header.phnum)).2 }
  refine ⟨ws, ?_⟩
  rintro _ _ _ copied rfl rfl rfl rfl
  refine ⟨?_, htable, hnil⟩
  change (readHeaders d stack header header.phnum 0 s.file).2.1 = true at h
  have hheap := fun block image mount segments machine =>
    (copyLoop_frame (H := H) d block image mount segments machine).1
  unfold elfSegments
  dsimp only
  rw [heq]
  dsimp only
  rw [h, if_pos rfl, if_neg (not_not.mpr rfl), hheap]
  by_cases hcopied : (copyLoop d
      (regionFor k (k.kmalloc s.heap (imageSegmentSize * header.phnum)).2 program
        (find d stack header s.file).segments).image
      ((regionFor k (k.kmalloc s.heap (imageSegmentSize * header.phnum)).2 program
        (find d stack header s.file).segments).image + program.prefix_)
      (lowest (find d stack header s.file).segments) (find d stack header s.file).segments
      { s with
        file := (find d stack header s.file).file
        heap := (k.kmalloc (k.kmalloc s.heap (imageSegmentSize * header.phnum)).2
          (regionFor k (k.kmalloc s.heap (imageSegmentSize * header.phnum)).2 program
            (find d stack header s.file).segments).size).2
        written := s.written ++ ws
        region := some (regionFor k (k.kmalloc s.heap (imageSegmentSize * header.phnum)).2
          program (find d stack header s.file).segments) }).1 = elfSuccess
  · rw [if_pos hcopied]
    exact if_neg (not_not.mpr hcopied)
  · rw [if_neg hcopied]
    exact if_pos hcopied

/-! ## The checks before it -/

section Header

variable {d : FileDriver F} {k : HeapDriver H} {stack : Stack} {program : ProgramImage}
  {s : Machine F H}

/-- The header of the file, as far as it is delivered. -/
def headerOf (d : FileDriver F) (stack : Stack) (f : F) : Elf32Ehdr :=
  Elf32Ehdr.ofBytes (overwrite stack.header (d.read f ehdrSize).1)

/-- The header is read and passes the checks. -/
def HeaderAccepted (d : FileDriver F) (stack : Stack) (f : F) : Prop :=
  (d.read f ehdrSize).2.1 ≠ 0 ∧ checkHeader (headerOf d stack f) = elfSuccess

/-- The machine after the header was read. -/
def Machine.headerRead (d : FileDriver F) (s : Machine F H) : Machine F H :=
  { s with file := (d.read s.file ehdrSize).2.2 }

/-- Without an acceptable header nothing happens. -/
theorem elfLoad_refused (k : HeapDriver H) (program : ProgramImage)
    (h : ¬ HeaderAccepted d stack s.file) :
    (elfLoad d k stack program s).1 ≠ elfSuccess ∧
      (elfLoad d k stack program s).2 = (program, s.headerRead d) := by
  unfold elfLoad
  dsimp only
  by_cases hread : (d.read s.file ehdrSize).2.1 = 0
  · rw [if_pos hread]
    exact ⟨show elfReadError ≠ elfSuccess by decide, rfl⟩
  rw [if_neg hread]
  have hcheck : checkHeader (headerOf d stack s.file) ≠ elfSuccess := fun hc => h ⟨hread, hc⟩
  unfold headerOf at hcheck
  rw [if_pos hcheck]
  exact ⟨hcheck, rfl⟩

/-- With an acceptable header, `elf_load` is `elf_segments`. -/
theorem elfLoad_accepted (k : HeapDriver H) (program : ProgramImage)
    (h : HeaderAccepted d stack s.file) :
    (elfLoad d k stack program s).1 =
        (elfSegments d k stack (headerOf d stack s.file) program (s.headerRead d)).1 ∧
      (elfLoad d k stack program s).2.2 =
        (elfSegments d k stack (headerOf d stack s.file) program (s.headerRead d)).2.2 := by
  obtain ⟨hread, hcheck⟩ := h
  unfold headerOf at hcheck
  unfold elfLoad
  dsimp only
  rw [if_neg hread, if_neg (not_not.mpr hcheck)]
  split
  · exact ⟨rfl, rfl⟩
  · rename_i hsuccess
    exact ⟨(not_not.mp hsuccess).symm, rfl⟩

/-- A successful load adds the entry point. -/
theorem elfLoad_program (h : HeaderAccepted d stack s.file)
    (hok : (elfSegments d k stack (headerOf d stack s.file) program (s.headerRead d)).1 =
      elfSuccess) :
    (elfLoad d k stack program s).2.1 =
      { (elfSegments d k stack (headerOf d stack s.file) program (s.headerRead d)).2.1 with
        entry := (headerOf d stack s.file).entry } := by
  obtain ⟨hread, hcheck⟩ := h
  unfold headerOf at hcheck
  unfold headerOf Machine.headerRead at hok
  unfold elfLoad
  dsimp only
  rw [if_neg hread, if_neg (not_not.mpr hcheck), if_neg (not_not.mpr hok)]
  rfl

end Header

end Elf

end Neos
