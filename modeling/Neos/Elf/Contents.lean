import Mathlib.Data.List.Pairwise
import Mathlib.Order.Bounds.Basic
import Mathlib.Tactic.Set
import Neos.Elf.Containment

/-!
# What the image holds after a load

Segments that do not overlap do not disturb each other, so the bytes of a loaded
segment are those its own copy leaves behind.  The padding is cleared at the
beginning of the segment and not behind its contents.
-/

namespace Neos

open BitMemory

namespace Elf

variable {F H : Type}

/-! ## What should be there -/

/-- Seeking and reading deliver the bytes of a file, as far as it goes. -/
def Delivers (d : FileDriver F) (contents : List UInt8) : Prop :=
  ∀ f offset size, (d.read (d.seek f offset) size).1 = (contents.drop offset).take size ∧
    (d.read (d.seek f offset) size).2.1 = ((contents.drop offset).take size).length

/-- The byte of a file at an offset. -/
def byteAt (contents : List UInt8) (offset : ℕ) : UInt8 := contents.getD offset 0

/-- Segments of a well formed program: no longer in the file than in memory,
inside the file and the address space, and apart from each other. -/
structure WellFormed (contents : List UInt8) (segments : List ImageSegment) : Prop where
  sizes : ∀ seg ∈ segments, seg.fileSize ≤ seg.memSize
  inFile : ∀ seg ∈ segments, seg.fileOffset + seg.fileSize ≤ contents.length
  inSpace : ∀ seg ∈ segments, seg.memOffset + seg.memSize ≤ 2 ^ 32
  apart : segments.Pairwise fun a b =>
    a.memOffset + a.memSize ≤ b.memOffset ∨ b.memOffset + b.memSize ≤ a.memOffset

/-- The address of a byte of a segment in an image. -/
def ProgramImage.byteOf (program : ProgramImage) (seg : ImageSegment) (i : ℕ) : ℕ :=
  wrap (program.image + program.prefix_ + (seg.memOffset - program.mount) + i)

/-- The image is mounted at the lowest segment, and every segment holds its
bytes of the file with zeros behind them. -/
structure Loaded (contents : List UInt8) (segments : List ImageSegment) (program : ProgramImage)
    (m : Memory) : Prop where
  mount : segments ≠ [] →
    IsLeast {vaddr | ∃ seg ∈ segments, seg.memOffset = vaddr} program.mount
  content : ∀ seg ∈ segments, ∀ i, i < seg.fileSize →
    m (program.byteOf seg i) = byteAt contents (seg.fileOffset + i)
  padding : ∀ seg ∈ segments, ∀ i, seg.fileSize ≤ i → i < seg.memSize →
    m (program.byteOf seg i) = 0

/-- The bytes of a segment that are cleared by mistake are zero in the file, and
those behind the contents that are not cleared are zero already. -/
def Spared (contents : List UInt8) (program : ProgramImage) (m : Memory) (seg : ImageSegment) :
    Prop :=
  (∀ i, i < seg.padding → i < seg.fileSize → byteAt contents (seg.fileOffset + i) = 0) ∧
  ∀ i, seg.padding ≤ i → seg.fileSize ≤ i → i < seg.memSize →
    if i < seg.content ∧ seg.fileOffset + i < contents.length then
      byteAt contents (seg.fileOffset + i) = 0
    else m (program.byteOf seg i) = 0

/-! ## Stores -/

theorem storeBytes_outside {x : ℕ} :
    ∀ (bs : List UInt8) (m : Memory) (a : ℕ), (∀ i, i < bs.length → x ≠ wrap (a + i)) →
      storeBytes m a bs x = m x := by
  intro bs
  induction bs with
  | nil => exact fun _ _ _ => rfl
  | cons b bs ih =>
      intro m a h
      rw [storeBytes, ih]
      · exact store_of_ne (h 0 (Nat.zero_lt_succ _))
      · intro i hi
        rw [Nat.add_assoc, Nat.add_comm 1]
        exact h (i + 1) (Nat.succ_lt_succ hi)

theorem wrap_add_ne {a i j : ℕ} (h : i ≠ j) (hi : i < 2 ^ 32) (hj : j < 2 ^ 32) :
    wrap (a + i) ≠ wrap (a + j) := by
  unfold wrap
  omega

theorem storeBytes_inside :
    ∀ (bs : List UInt8) (m : Memory) (a i : ℕ), bs.length ≤ 2 ^ 32 → i < bs.length →
      storeBytes m a bs (wrap (a + i)) = bs.getD i 0 := by
  intro bs
  induction bs with
  | nil => exact fun _ _ _ _ hi => absurd hi (Nat.not_lt_zero _)
  | cons b bs ih =>
      intro m a i hlen hi
      rw [List.length_cons] at hlen hi
      rw [storeBytes]
      cases i with
      | zero =>
          rw [storeBytes_outside]
          · rw [Nat.add_zero, store, if_pos rfl, UInt8.ofNat_toNat]
            rfl
          · intro j hj
            rw [Nat.add_assoc, Nat.add_comm 1]
            exact wrap_add_ne (by omega) (by omega) (by omega)
      | succ i =>
          have hnext := ih (store m a b.toNat) (a + 1) i (by omega) (by omega)
          rw [Nat.add_assoc, Nat.add_comm 1] at hnext
          rw [hnext]
          rfl

theorem fillForward_outside {x dst : ℕ} :
    ∀ (n i : ℕ) (m : Memory), (∀ j, i ≤ j → j < i + n → x ≠ wrap (dst + j)) →
      fillForward dst 0 n i m x = m x := by
  intro n
  induction n with
  | zero => exact fun _ _ _ => rfl
  | succ n ih =>
      intro i m h
      rw [fillForward, ih]
      · exact store_of_ne (h i le_rfl (by omega))
      · intro j h₁ h₂
        exact h j (by omega) (by omega)

theorem fillForward_inside {dst : ℕ} :
    ∀ (n i : ℕ) (m : Memory) (j : ℕ), i + n ≤ 2 ^ 32 → i ≤ j → j < i + n →
      fillForward dst 0 n i m (wrap (dst + j)) = 0 := by
  intro n
  induction n with
  | zero => exact fun _ _ _ _ h₁ h₂ => absurd h₂ (by omega)
  | succ n ih =>
      intro i m j hend h₁ h₂
      rw [fillForward]
      by_cases hfirst : j = i
      · subst hfirst
        rw [fillForward_outside]
        · rw [store, if_pos rfl]
          rfl
        · intro k hk₁ hk₂
          exact wrap_add_ne (by omega) (by omega) (by omega)
      · exact ih (i + 1) _ j (by omega) (by omega) (by omega)

/-! ## Sizes -/

/-- The fields of a segment that matter in memory are 32-bit words, and it is no
longer in the file than in memory. -/
structure ImageSegment.Sized (seg : ImageSegment) : Prop where
  fileSize_le : seg.fileSize ≤ seg.memSize
  memSize_lt : seg.memSize < 2 ^ 32
  memOffset_lt : seg.memOffset < 2 ^ 32

theorem ImageSegment.Sized.content_bounds {seg : ImageSegment} (h : seg.Sized) :
    seg.fileSize ≤ seg.content ∧ seg.content ≤ seg.memSize := by
  obtain ⟨hfile, hmem, -⟩ := h
  unfold ImageSegment.content cMin toInt toWord
  split_ifs <;> omega

theorem ImageSegment.Sized.padding_le {seg : ImageSegment} (h : seg.Sized) :
    seg.padding ≤ seg.memSize := by
  obtain ⟨hfile, hmem, -⟩ := h
  unfold ImageSegment.padding cMax
  rw [wrapInt_eq]
  unfold toInt toWord
  split_ifs <;> omega

theorem field_lt (record : List UInt8) (offset : ℕ) : field record offset 4 < 2 ^ 32 := by
  have hvalue := ByteRange.leValue_lt ((record.drop offset).take 4)
  have hlength := List.length_take_le 4 (record.drop offset)
  have hpow := Nat.pow_le_pow_right (show 0 < 2 by decide)
    (show 8 * ((record.drop offset).take 4).length ≤ 32 by omega)
  exact lt_of_lt_of_le hvalue hpow

/-- The segments found in a file are described by 32-bit words. -/
theorem find_words (d : FileDriver F) (stack : Stack) (header : Elf32Ehdr) (f : F) :
    ∀ seg ∈ (find d stack header f).segments, seg.memSize < 2 ^ 32 ∧ seg.memOffset < 2 ^ 32 := by
  have hentries : ∀ (left i : ℕ) (f : F), ∀ entry ∈ (readHeaders d stack header left i f).1,
      entry.memsz < 2 ^ 32 ∧ entry.vaddr < 2 ^ 32 := by
    intro left
    induction left with
    | zero => exact fun _ _ _ h => absurd h List.not_mem_nil
    | succ left ih =>
        intro i f entry hentry
        unfold readHeaders at hentry
        dsimp only at hentry
        split at hentry
        · exact absurd hentry List.not_mem_nil
        · rcases List.mem_cons.mp hentry with rfl | hentry
          · exact ⟨field_lt _ _, field_lt _ _⟩
          · exact ih _ _ _ hentry
  intro seg hseg
  obtain ⟨entry, hentry, rfl⟩ := List.mem_map.mp hseg
  exact hentries _ _ _ entry (List.mem_filter.mp hentry).1

/-! ## The lowest segment -/

theorem lowest_isLeast {segments : List ImageSegment} (hne : segments ≠ [])
    (hlt : ∀ seg ∈ segments, seg.memOffset < 2 ^ 32) :
    IsLeast {vaddr | ∃ seg ∈ segments, seg.memOffset = vaddr} (lowest segments) := by
  have hfold : ∀ (segments : List ImageSegment) (low : ℕ),
      (segments.foldl (fun low segment => min low segment.memOffset) low = low ∨
        ∃ seg ∈ segments, seg.memOffset =
          segments.foldl (fun low segment => min low segment.memOffset) low) ∧
      segments.foldl (fun low segment => min low segment.memOffset) low ≤ low ∧
      ∀ seg ∈ segments,
        segments.foldl (fun low segment => min low segment.memOffset) low ≤ seg.memOffset := by
    intro segments
    induction segments with
    | nil => exact fun low => ⟨.inl rfl, le_rfl, fun _ h => absurd h List.not_mem_nil⟩
    | cons first segments ih =>
        intro low
        obtain ⟨hfrom, hlow, hall⟩ := ih (min low first.memOffset)
        rw [List.foldl_cons]
        refine ⟨?_, hlow.trans (min_le_left _ _), ?_⟩
        · rcases hfrom with hfrom | ⟨seg, hseg, heq⟩
          · rcases min_choice low first.memOffset with hmin | hmin
            · exact .inl (hfrom.trans hmin)
            · exact .inr ⟨first, List.mem_cons_self, (hfrom.trans hmin).symm⟩
          · exact .inr ⟨seg, List.mem_cons_of_mem _ hseg, heq⟩
        · intro seg hseg
          rcases List.mem_cons.mp hseg with rfl | hseg
          · exact hlow.trans (min_le_right _ _)
          · exact hall seg hseg
  obtain ⟨hfrom, -, hall⟩ := hfold segments (2 ^ 32 - 1)
  constructor
  · rcases hfrom with hfrom | hfrom
    · -- nothing is below the initial bound, so every segment is there
      obtain ⟨seg, hseg⟩ := List.exists_mem_of_ne_nil segments hne
      refine ⟨seg, hseg, ?_⟩
      have hle := hall seg hseg
      have hword := hlt seg hseg
      unfold lowest
      omega
    · exact hfrom
  · rintro _ ⟨seg, hseg, rfl⟩
    exact hall seg hseg

/-! ## Copying one segment -/

section Copying

variable {d : FileDriver F} {contents : List UInt8} {block image mount : ℕ}

/-- The address of a byte of a segment. -/
def place (image mount : ℕ) (seg : ImageSegment) (i : ℕ) : ℕ :=
  wrap (image + (seg.memOffset - mount) + i)

/-- What copying a segment leaves at one of its bytes. -/
def copiedByte (contents : List UInt8) (image mount : ℕ) (m : Memory) (seg : ImageSegment)
    (i : ℕ) : UInt8 :=
  if i < seg.padding then 0
  else if i < seg.content ∧ seg.fileOffset + i < contents.length then
    byteAt contents (seg.fileOffset + i)
  else m (place image mount seg i)

theorem ImageSegment.Sized.address_eq {seg : ImageSegment} (h : seg.Sized)
    (hmount : mount ≤ seg.memOffset) : seg.address mount = seg.memOffset - mount := by
  have hlt := h.memOffset_lt
  unfold ImageSegment.address wrap
  omega

theorem elfSegcpy_memory (hd : Delivers d contents) {seg : ImageSegment} (hseg : seg.Sized)
    (hmount : mount ≤ seg.memOffset) {s : Machine F H}
    (hok : (elfSegcpy d block image mount seg s).1 = elfSuccess) :
    (∀ x, (∀ i, i < seg.memSize → x ≠ place image mount seg i) →
        (elfSegcpy d block image mount seg s).2.memory x = s.memory x) ∧
      ∀ i, i < seg.memSize → (elfSegcpy d block image mount seg s).2.memory
        (place image mount seg i) = copiedByte contents image mount s.memory seg i := by
  obtain ⟨hcontent₁, hcontent₂⟩ := hseg.content_bounds
  have hpadding := hseg.padding_le
  have hmem := hseg.memSize_lt
  have hread := (elfSegcpy_success_iff d block image mount seg s).mp hok
  obtain ⟨hbytes, -⟩ := hd s.file seg.fileOffset seg.content
  have hlength : ((contents.drop seg.fileOffset).take seg.content).length =
      min seg.content (contents.length - seg.fileOffset) := by
    rw [List.length_take, List.length_drop]
  have hmemory : (elfSegcpy d block image mount seg s).2.memory =
      fillForward (image + (seg.memOffset - mount)) 0 seg.padding 0
        (storeBytes s.memory (image + (seg.memOffset - mount))
          ((contents.drop seg.fileOffset).take seg.content)) := by
    unfold elfSegcpy
    dsimp only
    rw [if_neg hread, hseg.address_eq hmount, hbytes]
    rfl
  rw [hmemory]
  constructor
  · intro x hx
    rw [fillForward_outside, storeBytes_outside]
    · intro i hi
      exact hx i (by omega)
    · intro i _ hi
      exact hx i (by omega)
  · intro i hi
    unfold copiedByte place
    by_cases hcleared : i < seg.padding
    · rw [if_pos hcleared, fillForward_inside _ _ _ _ (by omega) (Nat.zero_le _) (by omega)]
    · rw [if_neg hcleared, fillForward_outside]
      · by_cases hcopied : i < seg.content ∧ seg.fileOffset + i < contents.length
        · rw [if_pos hcopied, storeBytes_inside _ _ _ _ (by omega) (by omega), byteAt,
            List.getD_eq_getElem?_getD, List.getElem?_take_of_lt hcopied.1, List.getElem?_drop,
            List.getD_eq_getElem?_getD]
        · rw [if_neg hcopied, storeBytes_outside]
          intro j hj
          exact wrap_add_ne (by omega) (by omega) (by omega)
      · intro j _ hj
        exact wrap_add_ne (by omega) (by omega) (by omega)

/-- Bytes of segments that are apart have different places. -/
theorem place_ne {a b : ImageSegment} (ha : mount ≤ a.memOffset) (hb : mount ≤ b.memOffset)
    (ha' : a.memOffset + a.memSize ≤ 2 ^ 32) (hb' : b.memOffset + b.memSize ≤ 2 ^ 32)
    (hapart : a.memOffset + a.memSize ≤ b.memOffset ∨ b.memOffset + b.memSize ≤ a.memOffset)
    {i j : ℕ} (hi : i < a.memSize) (hj : j < b.memSize) :
    place image mount a i ≠ place image mount b j := by
  unfold place
  rw [Nat.add_assoc, Nat.add_assoc]
  exact wrap_add_ne (by omega) (by omega) (by omega)

/-- Segments that are apart are copied independently of each other. -/
theorem copyLoop_memory (hd : Delivers d contents) :
    ∀ (segments : List ImageSegment) (s : Machine F H),
      (∀ seg ∈ segments, seg.Sized ∧ mount ≤ seg.memOffset ∧
        seg.memOffset + seg.memSize ≤ 2 ^ 32) →
      (segments.Pairwise fun a b =>
        a.memOffset + a.memSize ≤ b.memOffset ∨ b.memOffset + b.memSize ≤ a.memOffset) →
      (copyLoop d block image mount segments s).1 = elfSuccess →
        (∀ x, (∀ seg ∈ segments, ∀ i, i < seg.memSize → x ≠ place image mount seg i) →
          (copyLoop d block image mount segments s).2.memory x = s.memory x) ∧
        ∀ seg ∈ segments, ∀ i, i < seg.memSize →
          (copyLoop d block image mount segments s).2.memory (place image mount seg i) =
            copiedByte contents image mount s.memory seg i := by
  intro segments
  induction segments with
  | nil => exact fun s _ _ _ => ⟨fun _ _ => rfl, fun _ h => absurd h List.not_mem_nil⟩
  | cons first segments ih =>
      intro s hall hapart hok
      obtain ⟨hfirstApart, hapart'⟩ := List.pairwise_cons.mp hapart
      obtain ⟨hsized, hmount, hend⟩ := hall first List.mem_cons_self
      unfold copyLoop at hok ⊢
      dsimp only at hok ⊢
      by_cases hfirst : (elfSegcpy d block image mount first s).1 = elfSuccess
      · rw [if_neg (not_not.mpr hfirst)] at hok ⊢
        obtain ⟨hframe, hinside⟩ := elfSegcpy_memory hd hsized hmount hfirst
        obtain ⟨hframe', hinside'⟩ := ih (elfSegcpy d block image mount first s).2
          (fun seg hseg => hall seg (List.mem_cons_of_mem _ hseg)) hapart' hok
        constructor
        · intro x hx
          rw [hframe' x fun seg hseg => hx seg (List.mem_cons_of_mem _ hseg),
            hframe x (hx first List.mem_cons_self)]
        · intro seg hseg i hi
          rcases List.mem_cons.mp hseg with rfl | hseg
          · -- the segments behind it do not touch the first one
            rw [hframe', hinside i hi]
            intro other hother j hj
            obtain ⟨-, hmount', hend'⟩ := hall other (List.mem_cons_of_mem _ hother)
            exact place_ne hmount hmount' hend hend' (hfirstApart other hother) hi hj
          · obtain ⟨-, hmount', hend'⟩ := hall seg (List.mem_cons_of_mem _ hseg)
            rw [hinside' seg hseg i hi]
            unfold copiedByte
            rw [hframe]
            intro j hj
            exact (place_ne hmount hmount' hend hend' (hfirstApart seg hseg) hj hi).symm
      · rw [if_pos hfirst] at hok
        exact absurd hok hfirst

end Copying

/-! ## The loaded image -/

section Loading

variable {d : FileDriver F} {contents : List UInt8} {k : HeapDriver H} {stack : Stack}
  {program : ProgramImage} {s : Machine F H}

/-- The image as the file and the heap determine it. -/
def imageFor (d : FileDriver F) (k : HeapDriver H) (stack : Stack) (program : ProgramImage)
    (s : Machine F H) : ProgramImage :=
  let header := headerOf d stack s.file
  let segments := (find d stack header (d.read s.file ehdrSize).2.2).segments
  let region := regionFor k (k.kmalloc s.heap (imageSegmentSize * header.phnum)).2 program segments
  { program with image := region.image, mount := lowest segments, entry := header.entry }

/-- The loadable segments of the file. -/
def segmentsOf (d : FileDriver F) (stack : Stack) (f : F) : List ImageSegment :=
  (find d stack (headerOf d stack f) (d.read f ehdrSize).2.2).segments

/-- A successful load has copied all segments to the image. -/
theorem elfLoad_success (hok : (elfLoad d k stack program s).1 = elfSuccess) :
    (elfLoad d k stack program s).2.1 = imageFor d k stack program s ∧
      ∃ copied : ℤ × Machine F H, ∃ s₁ : Machine F H, s₁.memory = s.memory ∧
        copied = copyLoop d (imageFor d k stack program s).image
          ((imageFor d k stack program s).image + program.prefix_)
          (imageFor d k stack program s).mount (segmentsOf d stack s.file) s₁ ∧
        copied.1 = elfSuccess ∧ (elfLoad d k stack program s).2.2.memory = copied.2.memory := by
  have haccepted : HeaderAccepted d stack s.file := by
    by_contra hrefused
    exact (elfLoad_refused k program hrefused).1 hok
  obtain ⟨hcode, hmachine⟩ := elfLoad_accepted k program haccepted
  have hcomplete : (find d stack (headerOf d stack s.file)
      (d.read s.file ehdrSize).2.2).complete = true := by
    by_contra hincomplete
    obtain ⟨ws, heq, -⟩ := elfSegments_incomplete d k stack (headerOf d stack s.file) program
      (s.headerRead d) (Bool.not_eq_true _ ▸ hincomplete)
    rw [hcode, heq] at hok
    exact absurd hok (show elfReadError ≠ elfSuccess by decide)
  obtain ⟨ws, hall⟩ := elfSegments_complete d k stack (headerOf d stack s.file) program
    (s.headerRead d) hcomplete
  obtain ⟨heq, -⟩ := hall _ _ _ _ rfl rfl rfl rfl
  rw [hcode] at hok
  have hprogram := elfLoad_program haccepted hok
  rw [heq] at hok hprogram hmachine
  split at hok
  · rename_i hcopied
    rw [if_pos hcopied] at hprogram hmachine
    refine ⟨hprogram, _, _, ?_, rfl, hcopied, ?_⟩
    · rfl
    · rw [hmachine]
      rfl
  · rename_i hfailed
    exact absurd hok hfailed

/-- A byte of the image is as it should be exactly when it was neither cleared by
mistake nor left uncleared. -/
theorem copiedByte_correct_iff (program : ProgramImage) (m : Memory) (seg : ImageSegment)
    (hseg : seg.Sized) (hfile : seg.fileOffset + seg.fileSize ≤ contents.length) :
    ((∀ i, i < seg.fileSize → copiedByte contents (program.image + program.prefix_) program.mount
          m seg i = byteAt contents (seg.fileOffset + i)) ∧
        ∀ i, seg.fileSize ≤ i → i < seg.memSize →
          copiedByte contents (program.image + program.prefix_) program.mount m seg i = 0) ↔
      Spared contents program m seg := by
  obtain ⟨hcontent, -⟩ := hseg.content_bounds
  unfold copiedByte
  constructor
  · rintro ⟨hbytes, hzeros⟩
    constructor
    · intro i hcleared hi
      have hbyte := hbytes i hi
      rw [if_pos hcleared] at hbyte
      exact hbyte.symm
    · intro i hkept hbehind hi
      have hzero := hzeros i hbehind hi
      rw [if_neg (Nat.not_lt.mpr hkept)] at hzero
      split
      · rename_i hcopied
        rwa [if_pos hcopied] at hzero
      · rename_i hcopied
        rwa [if_neg hcopied] at hzero
  · rintro ⟨hbytes, hzeros⟩
    constructor
    · intro i hi
      by_cases hcleared : i < seg.padding
      · rw [if_pos hcleared, hbytes i hcleared hi]
      · rw [if_neg hcleared, if_pos (by omega)]
    · intro i hbehind hi
      by_cases hcleared : i < seg.padding
      · rw [if_pos hcleared]
      · rw [if_neg hcleared]
        have hzero := hzeros i (Nat.not_lt.mp hcleared) hbehind hi
        split
        · rename_i hcopied
          rwa [if_pos hcopied] at hzero
        · rename_i hcopied
          rwa [if_neg hcopied] at hzero

end Loading

/-! ## Programs of one segment -/

theorem contentsDriver_delivers (contents : List UInt8) :
    Delivers (contentsDriver contents) contents :=
  fun _ _ _ => ⟨rfl, rfl⟩

/-- A program of four bytes, mounted at `0x1000`, with some bytes of memory. -/
def smallProgram (memsz : UInt8) : List UInt8 :=
  fileHeader 1 ++ segmentHeader [0, 0x10, 0, 0] [memsz, 0, 0, 0]

/-- Nothing is allocated yet, and the memory is filled with a byte. -/
def emptyMachine : Machine ℕ ℕ := start 0 0x4000 fun _ => 0xCC

theorem segmentsOf_smallProgram :
    segmentsOf (contentsDriver (smallProgram 4)) ⟨[], fun _ => []⟩ 0 = [⟨0, 0x1000, 4, 4⟩] ∧
      segmentsOf (contentsDriver (smallProgram 8)) ⟨[], fun _ => []⟩ 0 = [⟨0, 0x1000, 4, 8⟩] := by
  decide +kernel

theorem wellFormed_of_one {contents : List UInt8} {memSize : ℕ} (h₁ : 4 ≤ memSize)
    (h₂ : memSize ≤ 8) (hlen : 4 ≤ contents.length) :
    WellFormed contents [⟨0, 0x1000, 4, memSize⟩] := by
  refine ⟨?_, ?_, ?_, List.pairwise_singleton _ _⟩
  all_goals
    intro seg hseg
    obtain rfl := List.mem_singleton.mp hseg
  · exact h₁
  · show 0 + 4 ≤ contents.length
    omega
  · show 0x1000 + memSize ≤ 2 ^ 32
    omega

end Elf

end Neos
