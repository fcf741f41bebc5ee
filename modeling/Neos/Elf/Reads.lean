import Neos.Elf.Contents

/-!
# Reads that fail

The loader takes a read for failed when its result is zero.  A read that comes
out short, or with an error, passes, and a read of no bytes fails.  So loading
succeeds exactly when no result is zero, which is not the same as everything
being read.
-/

namespace Neos

open BitMemory

namespace Elf

variable {F H : Type}

/-! ## The reads of a load -/

/-- A read the loader makes: the bytes that are needed of it, and its result. -/
structure FileRead where
  needed : ℕ
  result : ℤ

/-- The needed bytes were read. -/
def FileRead.Complete (read : FileRead) : Prop := read.needed = 0 ∨ (read.needed : ℤ) ≤ read.result

instance (read : FileRead) : Decidable read.Complete := inferInstanceAs (Decidable (_ ∨ _))

/-- The reads of the program headers, whatever they return, the headers, and the
file after them. -/
def tableReads (d : FileDriver F) (stack : Stack) (header : Elf32Ehdr) :
    ℕ → ℕ → F → List FileRead × List Elf32Phdr × F
  | 0, _, f => ([], [], f)
  | left + 1, i, f =>
      let read := d.read (d.seek f (wrap (header.phoff + i * header.phentsize))) phdrSize
      let rest := tableReads d stack header left (i + 1) read.2.2
      (⟨phdrSize, read.2.1⟩ :: rest.1,
        Elf32Phdr.ofBytes (overwrite (stack.entry i) read.1) :: rest.2.1, rest.2.2)

/-- The reads of the contents of some segments: of each as many bytes are needed
as are in the file and in memory. -/
def contentReads (d : FileDriver F) : F → List ImageSegment → List FileRead
  | _, [] => []
  | f, segment :: segments =>
      let read := d.read (d.seek f segment.fileOffset) segment.content
      ⟨min segment.fileSize segment.memSize, read.2.1⟩ :: contentReads d read.2.2 segments

/-- The reads of a whole file, as far as none of them ends the load. -/
def loadReads (d : FileDriver F) (stack : Stack) (f : F) : List FileRead :=
  let read := d.read f ehdrSize
  let header := headerOf d stack f
  let table := tableReads d stack header header.phnum 0 read.2.2
  ⟨ehdrSize, read.2.1⟩ :: (table.1 ++ contentReads d table.2.2 (loadable table.2.1))

/-! ## The loops -/

/-- The loop over the program headers goes to the end when no read returns zero. -/
theorem readHeaders_eq (d : FileDriver F) (stack : Stack) (header : Elf32Ehdr) :
    ∀ (left i : ℕ) (f : F),
      ((∀ read ∈ (tableReads d stack header left i f).1, read.result ≠ 0) →
        readHeaders d stack header left i f =
          ((tableReads d stack header left i f).2.1, true,
            (tableReads d stack header left i f).2.2)) ∧
      ((readHeaders d stack header left i f).2.1 = true →
        ∀ read ∈ (tableReads d stack header left i f).1, read.result ≠ 0) := by
  intro left
  induction left with
  | zero => exact fun i f => ⟨fun _ => rfl, fun _ _ hread => absurd hread List.not_mem_nil⟩
  | succ left ih =>
      intro i f
      unfold readHeaders tableReads
      dsimp only
      generalize d.read (d.seek f (wrap (header.phoff + i * header.phentsize))) phdrSize = read
      obtain ⟨hforward, hback⟩ := ih (i + 1) read.2.2
      rw [List.forall_mem_cons]
      by_cases hzero : read.2.1 = 0
      · rw [if_pos hzero]
        exact ⟨fun h => absurd hzero h.1, fun h => absurd h Bool.false_ne_true⟩
      · rw [if_neg hzero]
        refine ⟨fun h => ?_, fun h => ⟨hzero, hback h⟩⟩
        rw [hforward h.2]

/-- The loop over the segments goes to the end when no read returns zero. -/
theorem afterContents_isSome_iff (d : FileDriver F) :
    ∀ (segments : List ImageSegment) (f : F),
      (afterContents d f segments).isSome = true ↔
        ∀ read ∈ contentReads d f segments, read.result ≠ 0 := by
  intro segments
  induction segments with
  | nil => exact fun f => iff_of_true rfl fun _ hread => absurd hread List.not_mem_nil
  | cons segment segments ih =>
      intro f
      unfold afterContents contentReads
      dsimp only
      rw [List.forall_mem_cons, ← ih]
      by_cases hzero : (d.read (d.seek f segment.fileOffset) segment.content).2.1 = 0
      · rw [if_pos hzero]
        exact iff_of_false Bool.false_ne_true fun h => h.1 hzero
      · rw [if_neg hzero]
        exact ⟨fun h => ⟨hzero, h⟩, fun h => h.2⟩

/-! ## When loading succeeds -/

section Load

variable {d : FileDriver F} {k : HeapDriver H} {stack : Stack} {program : ProgramImage}
  {s : Machine F H}

theorem elfSegments_success_iff (header : Elf32Ehdr) :
    (elfSegments d k stack header program s).1 = elfSuccess ↔
      (∀ read ∈ (tableReads d stack header header.phnum 0 s.file).1, read.result ≠ 0) ∧
        ∀ read ∈ contentReads d (tableReads d stack header header.phnum 0 s.file).2.2
          (loadable (tableReads d stack header header.phnum 0 s.file).2.1), read.result ≠ 0 := by
  obtain ⟨hforward, hback⟩ := readHeaders_eq d stack header header.phnum 0 s.file
  by_cases htable : ∀ read ∈ (tableReads d stack header header.phnum 0 s.file).1, read.result ≠ 0
  · have hread := hforward htable
    have hfind : find d stack header s.file =
        ⟨loadable (tableReads d stack header header.phnum 0 s.file).2.1, true,
          (tableReads d stack header header.phnum 0 s.file).2.2⟩ := by
      unfold find
      rw [hread]
    obtain ⟨ws, hall⟩ := elfSegments_complete d k stack header program s (by rw [hfind])
    obtain ⟨heq, -⟩ := hall _ _ _ _ rfl rfl rfl rfl
    rw [heq]
    constructor
    · intro hok
      refine ⟨htable, (afterContents_isSome_iff d _ _).mp ?_⟩
      split at hok
      · next hcopied =>
          have hsome := (copyLoop_success_iff d _ _ _ _ _).mp hcopied
          rwa [hfind] at hsome
      · next hfailed => exact absurd hok hfailed
    · rintro ⟨-, hcontents⟩
      have hsome := (afterContents_isSome_iff d _ _).mpr hcontents
      rw [if_pos]
      refine (copyLoop_success_iff d _ _ _ _ _).mpr ?_
      rw [hfind]
      exact hsome
  · have hincomplete : (find d stack header s.file).complete = false := by
      rw [← Bool.not_eq_true]
      exact fun h => htable (hback h)
    obtain ⟨ws, heq, -⟩ := elfSegments_incomplete d k stack header program s hincomplete
    rw [heq]
    exact iff_of_false (show elfReadError ≠ elfSuccess by decide) fun h => htable h.1

/-- A file with an acceptable header is loaded exactly when no read of it returns
zero. -/
theorem elfLoad_success_iff (hheader : checkHeader (headerOf d stack s.file) = elfSuccess) :
    (elfLoad d k stack program s).1 = elfSuccess ↔
      ∀ read ∈ loadReads d stack s.file, read.result ≠ 0 := by
  unfold loadReads
  dsimp only
  rw [List.forall_mem_cons, List.forall_mem_append]
  by_cases hread : (d.read s.file ehdrSize).2.1 = 0
  · have hrefused : ¬ HeaderAccepted d stack s.file := fun h => h.1 hread
    exact iff_of_false (elfLoad_refused k program hrefused).1 fun h => h.1 hread
  · rw [(elfLoad_accepted k program ⟨hread, hheader⟩).1, elfSegments_success_iff]
    exact ⟨fun h => ⟨hread, h⟩, fun h => h.2⟩

/-- Some reads return zero exactly when one of them is incomplete: no read is
incomplete without any returning zero, and none returns zero although all are
complete. -/
structure Noticed (reads : List FileRead) : Prop where
  incomplete : (∀ read ∈ reads, read.result ≠ 0) → ∀ read ∈ reads, read.Complete
  failed : (∃ read ∈ reads, read.result = 0) → ∃ read ∈ reads, ¬ read.Complete

end Load

/-! ## Two files of one segment -/

/-- A segment of four bytes of memory and none in the file. -/
def bssProgram : List UInt8 :=
  fileHeader 1 ++ [1, 0, 0, 0, 0, 0, 0, 0, 0, 0x10, 0, 0, 0, 0, 0, 0, 0, 0, 0, 0, 4, 0, 0, 0,
    6, 0, 0, 0, 4, 0, 0, 0]

end Elf

end Neos
