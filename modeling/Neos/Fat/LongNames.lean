import Neos.Fat.Files
import Neos.Fat.Scan

/-!
# Long names on the disk

`fat_update_lfn` writes the slots of a long name in front of the entry of a file,
the part with the last characters first, and removes them again.
`fat_find_full` puts the name together from the slots.  The ordinal of a slot has
five bits for the writer and four for the reader.
-/

namespace Neos.Fat

open ByteRange

variable {g : Bpb} {s s' : State} {dir : List ℕ}

/-! ## The functions -/

/-- `fat_string_to_longname`. -/
def fatStringToLongname (name : List UInt8) (longname : List ℕ) : Option (List ℕ) :=
  storeAt longname 0 (name.map shortOfChar ++ [0])

/-- `fat_lfn_checksum`. -/
def fatLfnChecksum (e : DirEntry) : UInt8 :=
  (List.range 11).foldl (fun (checksum : UInt8) i =>
    (if checksum &&& 1 ≠ 0 then (0x80 : UInt8) else 0) + (checksum >>> 1) + e.dirName i) 0

/-- The length of a long name as `fat_update_lfn` counts it; `none` stands for a
name without an end. -/
def lfnLength (longFilename : List ℕ) : Option ℕ :=
  ((longFilename.drop 1).findIdx? (· = 0)).map (· + 1)

/-- Assign `n` consecutive `unsigned short`s from an offset on. -/
def DirEntry.setShorts (e : DirEntry) (offset n : ℕ) (values : ℕ → ℕ) : DirEntry :=
  (List.range n).foldl (fun e i => e.setField (offset + 2 * i) 2 (values i)) e

/-- The slot for the part `lfnEntry` of `lfnEntries` parts. -/
def lfnSlot (file : FatFile) (lfnEntries : ℕ) (lfnChecksum : UInt8) (lfnEntry : ℕ) : DirEntry :=
  let ord := (if lfnEntry = lfnEntries then 0x40 else 0x00) ||| lfnEntry
  let longFilenameOffset := u32 (sub32 lfnEntry 1 * 13)
  let chars := fun i => file.longFilename.getD (longFilenameOffset + i) 0
  let fatLfn := ((DirEntry.zero.setField 0 1 ord).setField 11 1 0x0F).setField 13 1 lfnChecksum.toNat
  let fatLfn := fatLfn.setShorts 1 5 chars
  let fatLfn := fatLfn.setShorts 14 6 fun i => chars (5 + i)
  fatLfn.setShorts 28 2 fun i => chars (5 + 6 + i)

/-- The loop of `fat_update_lfn` that recreates the slots. -/
def recreateLoop (g : Bpb) (file : FatFile) (lfnEntries : ℕ) (lfnChecksum : UInt8) :
    ℕ → ℕ → ℕ → FatFile → State → Option State
  | 0, _, _, _, _ => none
  | rounds + 1, lfnEntry, entryPosition, parentDir, s => do
      let entryPosition := sub32 entryPosition sizeofDirEntry
      let fatLfn := lfnSlot file lfnEntries lfnChecksum lfnEntry
      let (_, parentDir, s) ← fatFwrite g fatLfn.buffer sizeofDirEntry
        (fatFseekSet parentDir entryPosition) s
      let lfnEntry := (lfnEntry + 1) % 2 ^ 8
      if lfnEntry > lfnEntries then return s
      else recreateLoop g file lfnEntries lfnChecksum rounds lfnEntry entryPosition parentDir s

/-- The loop of `fat_update_lfn` that marks the slots free.  `fatDir` is what the
local variable holds before it is read into; the positions that the loop seeks
to are returned with the state. -/
def removeLoop (g : Bpb) : ℕ → DirEntry → ℕ → FatFile → State → Option (List ℕ × State)
  | 0, _, _, _, _ => none
  | rounds + 1, fatDir, entryPosition, parentDir, s => do
      let entryPosition := sub32 entryPosition sizeofDirEntry
      let (out, parentDir, s) ← fatFread g fatDir.buffer sizeofDirEntry
        (fatFseekSet parentDir entryPosition) s
      let fatDir := DirEntry.ofBuffer out
      if fatDir.dirAttr ≠ 0x0F then return ([entryPosition], s)
      else
        let fatDir := fatDir.setField 0 1 0xE5
        let (_, parentDir, s) ← fatFwrite g fatDir.buffer sizeofDirEntry
          (fatFseekSet parentDir entryPosition) s
        let (positions, s) ← removeLoop g rounds fatDir entryPosition parentDir s
        return (entryPosition :: positions, s)

/-- The handle on the parent directory that `fat_update_lfn` builds. -/
def lfnParent (g : Bpb) (file : FatFile) (s : State) : Option (FatFile × State) := do
  let parentDir := { fatFileDefault with
    fatDir := (DirEntry.zero.setFstClusLO file.firstParentCluster).setFstClusHI
      (file.firstParentCluster >>> 16) }
  let (count, s) ← fatFileClusterCount g parentDir s
  return ({ parentDir with
    fatDir := parentDir.fatDir.setFileSize (u32 (count * g.secPerClus * g.bytsPerSec)) }, s)

/-- `fat_update_lfn` with `remove` 0. -/
def recreateLfn (g : Bpb) (file : FatFile) (s : State) : Option State := do
  let (parentDir, s) ← lfnParent g file s
  if file.lfnPresent then
    let lfnLength ← lfnLength file.longFilename
    let lfnEntries := ((lfnLength - 1) / 13 + 1) % 2 ^ 8
    recreateLoop g file lfnEntries (fatLfnChecksum file.fatDir) loopBound 1 file.entryPosition
      parentDir s
  else return s

/-- `fat_update_lfn` with `remove` 1. -/
def removeLfn (g : Bpb) (file : FatFile) (uninitialized : DirEntry) (s : State) :
    Option (List ℕ × State) := do
  let (parentDir, s) ← lfnParent g file s
  if file.lfnPresent then
    removeLoop g loopBound uninitialized file.entryPosition parentDir s
  else return ([], s)

/-- `fat_update_lfn`. -/
def fatUpdateLfn (g : Bpb) (file : FatFile) (remove : Bool) (uninitialized : DirEntry) (s : State) :
    Option State :=
  if remove then (removeLfn g file uninitialized s).map Prod.snd else recreateLfn g file s

/-! ## The fields of a slot -/

namespace DirEntry

theorem setShorts_succ (e : DirEntry) (offset n : ℕ) (values : ℕ → ℕ) :
    e.setShorts offset (n + 1) values =
      (e.setShorts offset n values).setField (offset + 2 * n) 2 (values n) := by
  rw [setShorts, List.range_succ, List.foldl_append]
  rfl

/-- The values are in their fields. -/
theorem field_setShorts (e : DirEntry) {offset : ℕ} (values : ℕ → ℕ) :
    ∀ {n i : ℕ}, offset + 2 * n ≤ 32 → i < n →
      (e.setShorts offset n values).field (offset + 2 * i) 2 = values i % 2 ^ 16
  | n + 1, i, hn, hi => by
      rw [setShorts_succ]
      by_cases hlast : i = n
      · rw [hlast]
        exact field_setField_self _ _ (by omega)
      · rw [field_setField_of_disjoint _ _ (by omega) (by omega)]
        exact e.field_setShorts values (by omega) (by omega)

/-- The other fields keep their values. -/
theorem field_setShorts_of_disjoint (e : DirEntry) {offset : ℕ} (values : ℕ → ℕ) {offset' k' : ℕ}
    (h : offset' + k' ≤ 32) :
    ∀ {n : ℕ}, offset' + k' ≤ offset ∨ offset + 2 * n ≤ offset' →
      (e.setShorts offset n values).field offset' k' = e.field offset' k'
  | 0, _ => rfl
  | n + 1, hdisj => by
      rw [setShorts_succ, field_setField_of_disjoint _ _ (by omega) h]
      exact e.field_setShorts_of_disjoint values h (by omega)

theorem buffer_setShorts_of_disjoint (e : DirEntry) {offset : ℕ} (values : ℕ → ℕ) {i : ℕ}
    (h : i < 32) :
    ∀ {n : ℕ}, i < offset ∨ offset + 2 * n ≤ i →
      (e.setShorts offset n values).buffer i = e.buffer i
  | 0, _ => rfl
  | n + 1, hdisj => by
      rw [setShorts_succ, buffer_setField_of_disjoint _ _ (by omega) h]
      exact e.buffer_setShorts_of_disjoint values h (by omega)

theorem buffer_setField_one (e : DirEntry) {offset : ℕ} (v : ℕ) (h : offset < 32) :
    (e.setField offset 1 v).buffer offset = UInt8.ofNat v := by
  rw [setField, buffer_ofBuffer _ h]
  have hlen : 0 < (leBytes 1 v).length := by
    rw [length_leBytes]
    decide
  have hfirst := writeBytes_inside (m := e.buffer) (a := offset) hlen
  rw [Nat.add_zero] at hfirst
  rw [hfirst]
  show UInt8.ofNat (v % 2 ^ 8) = UInt8.ofNat v
  apply UInt8.toNat_inj.mp
  rw [UInt8.toNat_ofNat', UInt8.toNat_ofNat', Nat.mod_mod]

end DirEntry

/-- The characters of a part of a long name. -/
def partChars (file : FatFile) (m : ℕ) : List ℕ :=
  (List.range 13).map fun i => file.longFilename.getD (13 * m + i) 0 % 2 ^ 16

/-- A slot carries the ordinal, the flag and the characters of its part. -/
theorem lfnSlot_spec (file : FatFile) (lfnEntries : ℕ) (lfnChecksum : UInt8) {m : ℕ}
    (hm : m < 2 ^ 8) :
    (lfnSlot file lfnEntries lfnChecksum (m + 1)).dirName 0 =
        UInt8.ofNat ((if m + 1 = lfnEntries then 0x40 else 0) ||| (m + 1)) ∧
      (lfnSlot file lfnEntries lfnChecksum (m + 1)).dirAttr = 0x0F ∧
      (lfnSlot file lfnEntries lfnChecksum (m + 1)).lfnChars = partChars file m := by
  unfold lfnSlot
  rw [lfnOffset_eq hm]
  refine ⟨?_, ?_, ?_⟩
  · unfold DirEntry.dirName
    dsimp only
    rw [DirEntry.buffer_setShorts_of_disjoint _ _ (by decide) (by decide),
      DirEntry.buffer_setShorts_of_disjoint _ _ (by decide) (by decide),
      DirEntry.buffer_setShorts_of_disjoint _ _ (by decide) (by decide),
      DirEntry.buffer_setField_of_disjoint _ _ (by decide) (by decide),
      DirEntry.buffer_setField_of_disjoint _ _ (by decide) (by decide),
      DirEntry.buffer_setField_one _ _ (by decide)]
  · unfold DirEntry.dirAttr
    dsimp only
    rw [DirEntry.buffer_setShorts_of_disjoint _ _ (by decide) (by decide),
      DirEntry.buffer_setShorts_of_disjoint _ _ (by decide) (by decide),
      DirEntry.buffer_setShorts_of_disjoint _ _ (by decide) (by decide),
      DirEntry.buffer_setField_of_disjoint _ _ (by decide) (by decide),
      DirEntry.buffer_setField_one _ _ (by decide)]
    rfl
  · have hsplit : List.range 13 =
        List.range 5 ++ (List.range 6).map (5 + ·) ++ (List.range 2).map (5 + 6 + ·) := rfl
    unfold DirEntry.lfnChars partChars
    dsimp only
    rw [hsplit, List.map_append, List.map_append, List.map_map, List.map_map]
    congr 1
    · congr 1
      · apply List.map_congr_left
        intro i hi
        have hlt := List.mem_range.mp hi
        rw [DirEntry.field_setShorts_of_disjoint _ _ (by omega) (by omega),
          DirEntry.field_setShorts_of_disjoint _ _ (by omega) (by omega),
          DirEntry.field_setShorts _ _ (by decide) hlt]
      · apply List.map_congr_left
        intro i hi
        have hlt := List.mem_range.mp hi
        rw [DirEntry.field_setShorts_of_disjoint _ _ (by omega) (by omega),
          DirEntry.field_setShorts _ _ (by decide) hlt]
        rfl
    · apply List.map_congr_left
      intro i hi
      have hlt := List.mem_range.mp hi
      rw [DirEntry.field_setShorts _ _ (by decide) hlt]
      rfl

/-! ## Writing slots -/

/-- `fat_fwrite` of a slot replaces one entry of the directory. -/
theorem fatFwrite_slot (hg : Geometry g) (hfat : 3 * g.secPerClus ≤ g.fatSz32)
    {directory : FatFile} (h : Covers g s directory dir) {k : ℕ}
    (hk : 32 * k + 32 ≤ dir.length * g.clusterSize) (e : DirEntry) :
    ∃ file' s', fatFwrite g e.buffer sizeofDirEntry (fatFseekSet directory (32 * k)) s =
        some (true, file', s') ∧ Covers g s' file' dir ∧
      ∀ i, 32 * i + 32 ≤ dir.length * g.clusterSize →
        entryAt g s'.disk dir (32 * i) = if i = k then e else entryAt g s.disk dir (32 * i) := by
  have hbytes := h.chain.bytes_lt hg
  have hcursor : (fatFseekSet directory (32 * k)).cursor = 32 * k := u32_of_lt (by omega)
  obtain ⟨s', hwrite, hwritten⟩ := fwriteWith_inside (n := sizeofDirEntry) (s := s) (l := dir) hg hfat
    (updateEntryWith g (fwriteNested g 1)) e.buffer (fatFseekSet directory (32 * k)) h.chain
    h.size (by rw [hcursor, sizeofDirEntry]; omega)
  rw [hcursor, sizeofDirEntry] at hwritten
  have hchain := hwritten.chain
  rw [List.append_nil] at hchain
  refine ⟨_, s', hwrite, ⟨hchain, h.size⟩, ?_⟩
  intro i hi
  by_cases hik : i = k
  · rw [hik, if_pos rfl]
    exact hwritten.entryAt_self hk
  · rw [if_neg hik]
    apply DirEntry.ext_buffer
    intro j hj
    have hbyte := hwritten.bytes (32 * i + j) (by rw [List.append_nil]; omega)
    rw [List.append_nil, Nat.zero_add, if_neg (by omega), if_pos (by omega)] at hbyte
    rw [entryAt, entryAt, DirEntry.buffer_ofBuffer _ hj, DirEntry.buffer_ofBuffer _ hj, hbyte]

/-- The handle that `fat_update_lfn` builds covers the parent directory. -/
theorem lfnParent_spec (hg : Geometry g) {file : FatFile} (hlt : file.firstParentCluster < 2 ^ 16)
    (h : FileChain g s.disk file.firstParentCluster dir) :
    ∃ parentDir s', lfnParent g file s = some (parentDir, s') ∧ s'.disk = s.disk ∧
      Covers g s' parentDir dir := by
  have hLO : ((DirEntry.zero.setFstClusLO file.firstParentCluster).setFstClusHI
      (file.firstParentCluster >>> 16)).dirFstClusLO = file.firstParentCluster := by
    unfold DirEntry.setFstClusHI DirEntry.dirFstClusLO
    rw [DirEntry.field_setField_of_disjoint _ _ (by decide) (by decide)]
    exact (DirEntry.dirFstClusLO_setFstClusLO _ _).trans (Nat.mod_eq_of_lt hlt)
  have hsize : dir.length * g.secPerClus * g.bytsPerSec = dir.length * g.clusterSize := by
    rw [hg.clusterSize_eq, hg.bytsPerSec, mul_assoc]
  obtain ⟨s', hcount, hlooked, hcovers⟩ := covers_counted hg
    { fatFileDefault with
      fatDir := (DirEntry.zero.setFstClusLO file.firstParentCluster).setFstClusHI
        (file.firstParentCluster >>> 16) } (by rwa [hLO]) hsize
  exact ⟨_, s', Option.bind_eq_some_iff.mpr ⟨_, hcount, rfl⟩, hlooked.disk, hcovers⟩

/-- The loop writes the parts from `j + 1` on, each one in front of the one before. -/
theorem recreateLoop_spec (hg : Geometry g) (hfat : 3 * g.secPerClus ≤ g.fatSz32) (file : FatFile)
    {k p : ℕ} (hk : k + 1 < 2 ^ 8) (hkp : k ≤ p) (hp : 32 * p + 32 ≤ dir.length * g.clusterSize)
    (lfnChecksum : UInt8) :
    ∀ (m : ℕ) {rounds j : ℕ} {parentDir : FatFile} {s : State}, j + m + 1 = k → m < rounds →
      Covers g s parentDir dir →
        ∃ s', recreateLoop g file k lfnChecksum rounds (j + 1) (32 * (p - j)) parentDir s =
            some s' ∧
          ∀ i, 32 * i + 32 ≤ dir.length * g.clusterSize →
            entryAt g s'.disk dir (32 * i) =
              if p - k ≤ i ∧ i < p - j then lfnSlot file k lfnChecksum (p - i)
              else entryAt g s.disk dir (32 * i)
  | m, 0, _, _, _, _, hrounds, _ => absurd hrounds (Nat.not_lt_zero m)
  | m, rounds + 1, j, parentDir, s, hj, hrounds, h => by
      have hbytes := h.chain.bytes_lt hg
      have hback : sub32 (32 * (p - j)) sizeofDirEntry = 32 * (p - (j + 1)) := by
        rw [sizeofDirEntry, sub32_of_le (by omega) (by omega)]
        omega
      obtain ⟨file', s₁, hwrite, hcovers, hentries⟩ := fatFwrite_slot hg hfat h (k := p - (j + 1))
        (by omega) (lfnSlot file k lfnChecksum (j + 1))
      have hnext : (j + 1 + 1) % 2 ^ 8 = j + 1 + 1 := Nat.mod_eq_of_lt (by omega)
      have hloop : recreateLoop g file k lfnChecksum (rounds + 1) (j + 1) (32 * (p - j)) parentDir s =
          if j + 1 + 1 > k then some s₁
          else recreateLoop g file k lfnChecksum rounds (j + 1 + 1) (32 * (p - (j + 1))) file' s₁ := by
        rw [recreateLoop]
        dsimp only
        rw [hback, hwrite, hnext]
        rfl
      rw [hloop]
      cases m with
      | zero =>
          -- that was the last part
          refine ⟨s₁, if_pos (by omega), ?_⟩
          intro i hi
          rw [hentries i hi]
          by_cases hik : i = p - (j + 1)
          · rw [if_pos hik, if_pos (by omega)]
            congr 1
            omega
          · rw [if_neg hik, if_neg (by omega)]
      | succ m =>
          obtain ⟨s₂, hrec, hafter⟩ := recreateLoop_spec hg hfat file hk hkp hp lfnChecksum m
            (j := j + 1) (by omega) (Nat.lt_of_succ_lt_succ hrounds) hcovers
          refine ⟨s₂, by rw [if_neg (by omega), hrec], ?_⟩
          intro i hi
          rw [hafter i hi]
          by_cases hlater : p - k ≤ i ∧ i < p - (j + 1)
          · rw [if_pos hlater, if_pos (by omega)]
          · rw [if_neg hlater, hentries i hi]
            by_cases hik : i = p - (j + 1)
            · rw [if_pos hik, if_pos (by omega)]
              congr 1
              omega
            · rw [if_neg hik, if_neg (by omega)]

/-! ## Names in slots -/

/-- The number of slots for a long name. -/
def slotCount (name : Name) : ℕ := (name.length - 1) / 13 + 1

/-- The slots in front of the `p`-th one, `k` of them. -/
def groupBefore (g : Bpb) (disk : ℕ → UInt8) (dir : List ℕ) (p k : ℕ) : List DirEntry :=
  (List.range k).map fun i => entryAt g disk dir (32 * (p - k + i))

/-- A name that can be stored: 1 to 255 ASCII characters. -/
structure Storable (name : Name) : Prop where
  length_pos : 1 ≤ name.length
  length_le : name.length ≤ 255
  ascii : ∀ c ∈ name, c ≠ 0 ∧ c < 0x80

section

variable {file : FatFile} {name : Name} {longname : List ℕ}

theorem Storable.slotCount_le (h : Storable name) : slotCount name ≤ 20 := by
  have hle := h.length_le
  unfold slotCount
  omega

/-- The characters of an ASCII name are stored as they are. -/
theorem Storable.shortOfChar_eq (h : Storable name) : name.map shortOfChar = name.map UInt8.toNat :=
  List.map_congr_left fun c hc => if_pos (h.ascii c hc).2

/-- The array after a name was stored. -/
theorem fatStringToLongname_eq (hname : Storable name) (hlen : longname.length = 260)
    (h : fatStringToLongname name longname = some file.longFilename) :
    file.longFilename.length = 260 ∧
      ∃ rest, file.longFilename = name.map UInt8.toNat ++ 0 :: rest := by
  have hle := hname.length_le
  rw [fatStringToLongname, hname.shortOfChar_eq, storeAt_of_le (by simp; omega), Option.some_inj] at h
  rw [← h]
  refine ⟨by simp; omega, longname.drop (0 + (name.map UInt8.toNat ++ [0]).length), ?_⟩
  rw [List.take_zero, List.nil_append, List.append_assoc]
  rfl

theorem lfnLength_eq (hname : Storable name) {rest : List ℕ}
    (h : file.longFilename = name.map UInt8.toNat ++ 0 :: rest) :
    lfnLength file.longFilename = some name.length := by
  obtain ⟨c, cs, rfl⟩ := List.exists_cons_of_length_pos hname.length_pos
  have hzero : ∀ x ∈ cs.map UInt8.toNat, ¬ decide (x = 0) = true := by
    intro x hx
    obtain ⟨b, hb, rfl⟩ := List.mem_map.mp hx
    have hne := (hname.ascii b (List.mem_cons_of_mem _ hb)).1
    simp only [decide_eq_true_eq]
    exact fun hb0 => hne (UInt8.toNat_inj.mp hb0)
  have hnone : (cs.map UInt8.toNat).findIdx? (· = 0) = none :=
    List.findIdx?_eq_none_iff.mpr fun x hx => by simpa using hzero x hx
  rw [lfnLength, h, List.map_cons, List.cons_append, List.drop_one, List.tail_cons,
    List.findIdx?_append, hnone]
  simp [List.findIdx?_cons]

/-- All characters of the first `m` parts. -/
def allChars (file : FatFile) (m : ℕ) : List ℕ :=
  (List.range (13 * m)).map fun j => file.longFilename.getD j 0 % 2 ^ 16

theorem allChars_succ (file : FatFile) (m : ℕ) :
    allChars file (m + 1) = allChars file m ++ partChars file m := by
  have hrange : List.range (13 * (m + 1)) =
      List.range (13 * m) ++ (List.range 13).map (13 * m + ·) := List.range_add
  rw [allChars, hrange, List.map_append, List.map_map]
  rfl

/-- The parts behind the first `m` ones, in the order of the disk. -/
theorem longSlots_lfnSlot (file : FatFile) (k : ℕ) (lfnChecksum : UInt8) :
    ∀ {m : ℕ}, m < k → k ≤ 20 →
      LongSlots m ((List.range m).map fun i => lfnSlot file k lfnChecksum (m - i)) (allChars file m)
  | 0, _, _ => .nil
  | m + 1, hm, hk => by
      obtain ⟨hordinal, hattr, hchars⟩ := lfnSlot_spec file k lfnChecksum (m := m) (by omega)
      rw [if_neg (by omega), Nat.zero_or] at hordinal
      have hshift : (List.range m).map
          ((fun i => lfnSlot file k lfnChecksum (m + 1 - i)) ∘ Nat.succ) =
            (List.range m).map fun i => lfnSlot file k lfnChecksum (m - i) := by
        apply List.map_congr_left
        intro i _
        rw [Function.comp_apply, Nat.succ_sub_succ]
      rw [List.range_succ_eq_map, List.map_cons, List.map_map, hshift, allChars_succ, ← hchars]
      exact .cons hattr hordinal (longSlots_lfnSlot file k lfnChecksum (by omega) hk)

/-- The slots after the first one are a complete name but for its first part. -/
theorem assemble_lfnSlot (file : FatFile) (lfnChecksum : UInt8) {m : ℕ} (hm : m < 15) {lf : List ℕ}
    (hlen : lf.length = 260) :
    ∃ rest, assemble ((List.range (m + 1)).map fun i =>
      lfnSlot file (m + 1) lfnChecksum (m + 1 - i)) lf = some (allChars file (m + 1) ++ 0 :: rest) := by
  have hflag : ∀ m, m < 15 → 0x40 ||| (m + 1) = 0x40 + (m + 1) := by decide
  obtain ⟨hordinal, -, hchars⟩ := lfnSlot_spec file (m + 1) lfnChecksum (m := m) (by omega)
  rw [if_pos rfl, hflag m hm] at hordinal
  have hparts : LongSlots m ((List.range m).map fun i =>
      lfnSlot file (m + 1) lfnChecksum (m - i)) (allChars file m) :=
    longSlots_lfnSlot file (m + 1) lfnChecksum (Nat.lt_succ_self m) (by omega)
  have hshift : (List.range m).map
      ((fun i => lfnSlot file (m + 1) lfnChecksum (m + 1 - i)) ∘ Nat.succ) =
        (List.range m).map fun i => lfnSlot file (m + 1) lfnChecksum (m - i) := by
    apply List.map_congr_left
    intro i _
    rw [Function.comp_apply, Nat.succ_sub_succ]
  have hhead : (lf.take (13 * m)).length = 13 * m := by
    rw [List.length_take]
    omega
  have hpart : (partChars file m).length = 13 := by
    rw [partChars, List.length_map, List.length_range]
  have hlen' : (lf.take (13 * m) ++ partChars file m ++ 0 :: lf.drop (13 * m + 14)).length =
      260 := by
    rw [List.length_append, List.length_append, List.length_cons, List.length_drop, hhead, hpart]
    omega
  refine ⟨lf.drop (13 * m + 14), ?_⟩
  rw [List.range_succ_eq_map, List.map_cons, List.map_map, hshift, assemble_cons, Nat.sub_zero,
    storeLfnSlot_first hm hlen hordinal, hchars, Option.bind_some,
    assemble_longSlots hparts hlen' (by omega), allChars_succ, List.append_assoc (lf.take _),
    List.drop_left' hhead, List.append_assoc]

/-- The characters in front of the zero are the name. -/
theorem take_allChars {rest : List ℕ} {k : ℕ}
    (hfile : file.longFilename = name.map UInt8.toNat ++ 0 :: rest)
    (hlen : file.longFilename.length = 260) (hk : name.length ≤ 13 * k) (hk' : k ≤ 20)
    (behind : List ℕ) :
    (allChars file k ++ 0 :: behind).take (name.length + 1) = name.map UInt8.toNat ++ [0] := by
  have hall : allChars file k = (file.longFilename.take (13 * k)).map (· % 2 ^ 16) := by
    apply List.ext_getElem
    · simp [allChars]
      omega
    · intro i hi _
      have hi' : i < file.longFilename.length := by
        rw [allChars, List.length_map, List.length_range] at hi
        omega
      simp [allChars, List.getElem?_eq_getElem hi']
  have hsmall : (name.map UInt8.toNat).map (· % 2 ^ 16) = name.map UInt8.toNat := by
    rw [List.map_map]
    apply List.map_congr_left
    intro c _
    have := c.toNat_lt
    exact Nat.mod_eq_of_lt (by omega)
  have hnamed : (name.map UInt8.toNat).length = name.length := List.length_map _
  by_cases hfull : name.length = 13 * k
  · -- the zero is the one that the reader puts behind the first slot
    have htake : file.longFilename.take (13 * k) = name.map UInt8.toNat := by
      rw [hfile, List.take_left' (hnamed.trans hfull)]
    rw [hall, htake, hsmall, List.take_append, hnamed, Nat.add_sub_cancel_left,
      List.take_of_length_le (by omega)]
    rfl
  · have htake : (file.longFilename.take (13 * k)).take (name.length + 1) =
        name.map UInt8.toNat ++ [0] := by
      rw [List.take_take, Nat.min_eq_left (by omega), hfile, List.take_append, hnamed,
        Nat.add_sub_cancel_left, List.take_of_length_le (by omega)]
      rfl
    rw [hall, List.take_append_of_le_length, ← List.map_take, htake, List.map_append, hsmall]
    · rfl
    · rw [List.length_map, List.length_take]
      omega

theorem length_storeAt {array array' values : List ℕ} {index : ℕ}
    (h : storeAt array index values = some array') : array'.length = array.length := by
  unfold storeAt at h
  split at h
  · rw [← Option.some_inj.mp h]
    simp only [List.length_append, List.length_take, List.length_drop]
    omega
  · cases h

theorem length_storeLfnSlot {e : DirEntry} {lf lf' : List ℕ} (h : storeLfnSlot e lf = some lf') :
    lf'.length = lf.length := by
  obtain ⟨lf₁, hfirst, hrest⟩ := Option.bind_eq_some_iff.mp h
  have hlen := length_storeAt hfirst
  split at hrest
  · rw [length_storeAt hrest, hlen]
  · rw [← Option.some_inj.mp hrest, hlen]

/-- Where the reader finds no ordinal it stores in front of the array. -/
theorem storeLfnSlot_outside {e : DirEntry} (hordinal : e.dirName 0 &&& 0x0F = 0) {lf : List ℕ}
    (hlen : lf.length = 260) : storeLfnSlot e lf = none := by
  have hoffset : u32 (sub32 (0 : UInt8).toNat 1 * 13) = 2 ^ 32 - 13 := by
    unfold u32 sub32
    rfl
  have hout : ¬ 2 ^ 32 - 13 + e.lfnChars.length ≤ lf.length := by
    rw [hlen, length_lfnChars]
    decide
  unfold storeLfnSlot
  rw [hordinal]
  dsimp only
  rw [hoffset, storeAt, if_neg hout]
  rfl

theorem assemble_outside {group : List DirEntry} {e : DirEntry} (he : e ∈ group)
    (hordinal : e.dirName 0 &&& 0x0F = 0) :
    ∀ {lf : List ℕ}, lf.length = 260 → assemble group lf = none := by
  induction group with
  | nil => cases he
  | cons x group ih =>
      intro lf hlen
      rw [assemble_cons]
      cases hx : storeLfnSlot x lf with
      | none => rfl
      | some lf' =>
          rcases List.mem_cons.mp he with rfl | hmem
          · rw [storeLfnSlot_outside hordinal hlen] at hx
            cases hx
          · exact ih hmem ((length_storeLfnSlot hx).trans hlen)

/-! ## Writing a name and reading it back -/

/-- A group of slots is what should be written for a name: the ordinals go down
to 1, the first slot is marked, and the loop of `fat_find_full` puts the name
together from them, whatever the array held before. -/
structure RoundTrip (group : List DirEntry) (name : Name) : Prop where
  ordinals : ∀ i, i < group.length → (group.getD i .zero).dirName 0 =
    UInt8.ofNat ((if i = 0 then 0x40 else 0) ||| (group.length - i))
  parts : ∀ e ∈ group, LongPart e
  readback : ∀ lf : List ℕ, lf.length = 260 →
    ∃ lf', assemble group lf = some lf' ∧ lf'.take (name.length + 1) = name.map UInt8.toNat ++ [0]

/-- The slots that `fat_update_lfn` leaves in front of the entry. -/
theorem recreateLfn_spec (hg : Geometry g) (hfat : 3 * g.secPerClus ≤ g.fatSz32)
    (hname : Storable name) (hstored : fatStringToLongname name longname = some file.longFilename)
    (hlen : longname.length = 260) (hpresent : file.lfnPresent = true)
    (hdir : FileChain g s.disk file.firstParentCluster dir)
    (hlt : file.firstParentCluster < 2 ^ 16) {p : ℕ} (hposition : file.entryPosition = 32 * p)
    (hbefore : slotCount name ≤ p) (hinside : 32 * p + 32 ≤ dir.length * g.clusterSize) :
    ∃ s', recreateLfn g file s = some s' ∧
      groupBefore g s'.disk dir p (slotCount name) =
        (List.range (slotCount name)).map fun i =>
          lfnSlot file (slotCount name) (fatLfnChecksum file.fatDir) (slotCount name - i) := by
  have hcount := hname.slotCount_le
  have hpos : 0 < slotCount name := Nat.succ_pos _
  obtain ⟨-, rest, hfile⟩ := fatStringToLongname_eq hname hlen hstored
  obtain ⟨parentDir, s₁, hparent, -, hcovers⟩ := lfnParent_spec hg hlt hdir
  have hrounds : slotCount name - 1 < loopBound := by
    unfold loopBound
    omega
  obtain ⟨s', hloop, hentries⟩ := recreateLoop_spec hg hfat file (k := slotCount name) (by omega)
    hbefore hinside (fatLfnChecksum file.fatDir) (slotCount name - 1)
    (j := 0) (by omega) hrounds hcovers
  refine ⟨s', ?_, ?_⟩
  · have hentryCount : ((name.length - 1) / 13 + 1) % 2 ^ 8 = slotCount name :=
      Nat.mod_eq_of_lt (by unfold slotCount at hcount; omega)
    unfold recreateLfn
    rw [hparent, Option.bind_eq_bind, Option.bind_some]
    dsimp only
    rw [if_pos hpresent, lfnLength_eq hname hfile, Option.bind_eq_bind, Option.bind_some, hentryCount,
      hposition]
    exact hloop
  · apply List.map_congr_left
    intro i hi
    have hik := List.mem_range.mp hi
    rw [hentries _ (by omega), if_pos (by omega)]
    congr 1
    omega

/-- The ordinals and the mark of the slots for a name. -/
theorem lfnSlot_ordinal (file : FatFile) (lfnChecksum : UInt8) {k i : ℕ} (hi : i < k) (hk : k ≤ 20) :
    (lfnSlot file k lfnChecksum (k - i)).dirName 0 =
        UInt8.ofNat ((if i = 0 then 0x40 else 0) ||| (k - i)) ∧
      LongPart (lfnSlot file k lfnChecksum (k - i)) := by
  have hbits : ∀ k, k ≤ 20 → ∀ i, i < k →
      UInt8.ofNat ((if i = 0 then 0x40 else 0) ||| (k - i)) ≠ 0 ∧
        UInt8.ofNat ((if i = 0 then 0x40 else 0) ||| (k - i)) ≠ 0xE5 := by decide
  obtain ⟨hzero, hdeleted⟩ := hbits k hk i hi
  have hsucc : k - i = k - i - 1 + 1 := by omega
  obtain ⟨hordinal, hattr, -⟩ := lfnSlot_spec file k lfnChecksum (m := k - i - 1) (by omega)
  rw [← hsucc] at hordinal hattr
  have hmark : (k - i = k) = (i = 0) := propext (by omega)
  simp only [hmark] at hordinal
  exact ⟨hordinal, by rwa [hordinal], by rwa [hordinal], hattr⟩

/-- A long name of ASCII characters is read back from the slots that are written
for it exactly when it has at most 195 characters. -/
theorem longName_round_trip_iff (hg : Geometry g) (hfat : 3 * g.secPerClus ≤ g.fatSz32)
    (hname : Storable name) (hstored : fatStringToLongname name longname = some file.longFilename)
    (hlen : longname.length = 260) (hpresent : file.lfnPresent = true)
    (hdir : FileChain g s.disk file.firstParentCluster dir)
    (hlt : file.firstParentCluster < 2 ^ 16) {p : ℕ} (hposition : file.entryPosition = 32 * p)
    (hbefore : slotCount name ≤ p) (hinside : 32 * p + 32 ≤ dir.length * g.clusterSize)
    (uninitialized : DirEntry) :
    ∃ s', fatUpdateLfn g file false uninitialized s = some s' ∧
      (RoundTrip (groupBefore g s'.disk dir p (slotCount name)) name ↔ name.length ≤ 195) := by
  have hcount := hname.slotCount_le
  obtain ⟨s', hrun, hgroup⟩ := recreateLfn_spec hg hfat hname hstored hlen hpresent hdir hlt
    hposition hbefore hinside
  refine ⟨s', hrun, ?_⟩
  rw [hgroup]
  constructor
  · intro h
    by_contra hlong
    -- the slot with the ordinal 16
    have hsixteen : 16 ≤ slotCount name := by
      unfold slotCount
      omega
    obtain ⟨hordinal, -⟩ := lfnSlot_ordinal file (fatLfnChecksum file.fatDir)
      (i := slotCount name - 16) (k := slotCount name) (by omega) hcount
    have hmem : lfnSlot file (slotCount name) (fatLfnChecksum file.fatDir)
        (slotCount name - (slotCount name - 16)) ∈ (List.range (slotCount name)).map fun i =>
          lfnSlot file (slotCount name) (fatLfnChecksum file.fatDir) (slotCount name - i) :=
      List.mem_map.mpr ⟨_, List.mem_range.mpr (by omega), rfl⟩
    have hlow : ∀ k, k ≤ 20 → 16 ≤ k →
        UInt8.ofNat ((if k - 16 = 0 then 0x40 else 0) ||| (k - (k - 16))) &&& 0x0F = 0 := by decide
    obtain ⟨lf', hread, -⟩ := h.readback (List.replicate 260 0) List.length_replicate
    rw [assemble_outside hmem (by rw [hordinal]; exact hlow _ hcount hsixteen)
      List.length_replicate] at hread
    cases hread
  · intro hshort
    obtain ⟨hfileLen, rest, hfile⟩ := fatStringToLongname_eq hname hlen hstored
    obtain ⟨m, hm⟩ : ∃ m, slotCount name = m + 1 := ⟨(name.length - 1) / 13, rfl⟩
    have hfits : name.length ≤ 13 * (m + 1) := by
      rw [← hm]
      unfold slotCount
      omega
    have hle : m < 15 := by
      have : slotCount name ≤ 15 := by
        unfold slotCount
        omega
      omega
    have hslot := fun i (hi : i < slotCount name) =>
      lfnSlot_ordinal file (fatLfnChecksum file.fatDir) hi hcount
    refine ⟨?_, ?_, ?_⟩
    · intro i hi
      rw [List.length_map, List.length_range] at hi
      rw [List.getD_eq_getElem _ _ (by simpa using hi), List.getElem_map, List.getElem_range,
        List.length_map, List.length_range]
      exact (hslot i hi).1
    · intro e he
      obtain ⟨i, hi, rfl⟩ := List.mem_map.mp he
      exact (hslot i (List.mem_range.mp hi)).2
    · intro lf hlf
      rw [hm]
      obtain ⟨behind, hread⟩ := assemble_lfnSlot file (fatLfnChecksum file.fatDir) hle hlf
      exact ⟨_, hread, take_allChars hfile hfileLen hfits (by omega) behind⟩

end

/-! ## Two names -/

/-- A handle on a new file with a long name, at the `p`-th slot of the directory in
cluster 2. -/
def namedFile (name : Name) (p : ℕ) : FatFile :=
  { fatFileDefault with
    entryPosition := 32 * p
    firstParentCluster := 2
    lfnPresent := true
    longFilename := name.map UInt8.toNat ++ 0 :: fatFileDefault.longFilename.drop (name.length + 1) }

/-- The array of the handle is what `fat_string_to_longname` makes of the name. -/
theorem namedFile_stored {name : Name} (hname : Storable name) (p : ℕ) :
    fatStringToLongname name fatFileDefault.longFilename = some (namedFile name p).longFilename := by
  have hle := hname.length_le
  have hlen : (name.map UInt8.toNat ++ [0]).length = name.length + 1 := by simp
  have hroom : 0 + (name.map UInt8.toNat ++ [0]).length ≤ fatFileDefault.longFilename.length := by
    rw [hlen, length_defaultName]
    omega
  have hjoin : (name.map UInt8.toNat ++ [0]) ++ fatFileDefault.longFilename.drop (name.length + 1) =
      (namedFile name p).longFilename := List.append_assoc _ _ _
  rw [fatStringToLongname, hname.shortOfChar_eq, storeAt_of_le hroom, List.take_zero, List.nil_append,
    Nat.zero_add, hlen, hjoin]

/-- The theorem at the name of one letter in the directory of the small volume. -/
theorem longName_round_trip_iff_letter : ∃ s',
    fatUpdateLfn smallVolume (namedFile [0x61] 2) false .zero smallState = some s' ∧
      (RoundTrip (groupBefore smallVolume s'.disk [2] 2 1) [0x61] ↔ [(0x61 : UInt8)].length ≤ 195) := by
  have hname : Storable [0x61] := ⟨by decide, by decide, List.forall_mem_singleton.mpr (by decide)⟩
  have hcount : slotCount [0x61] = 1 := by decide
  have hstored := namedFile_stored hname 2
  obtain ⟨s', hrun, hiff⟩ := longName_round_trip_iff (s := smallState) (p := 2) smallVolume_geometry
    (by decide) hname hstored length_defaultName rfl
    (smallState_cluster (by decide) (by decide) (by decide +kernel)) (by decide) rfl (by decide)
    (by decide +kernel) .zero
  rw [hcount] at hiff
  exact ⟨s', hrun, hiff⟩

/-- The small volume with a directory in the clusters 2 and 3. -/
def wideState : State :=
  { smallState with disk := storeFat (storeFat (fun _ => 0) 2 3) 3 0x0FFFFFFF }

/-- A name of 196 letters. -/
def letters : Name := List.replicate 196 0x61

/-- The sixteen slots for 196 letters are written, but the reader stores the first
of them in front of its array. -/
theorem longName_lost_letters : ∃ s',
    fatUpdateLfn smallVolume (namedFile letters 16) false .zero wideState = some s' ∧
      Storable letters ∧
      assemble (groupBefore smallVolume s'.disk [2, 3] 16 16) fatFileDefault.longFilename = none ∧
      ¬ RoundTrip (groupBefore smallVolume s'.disk [2, 3] 16 16) letters := by
  have hname : Storable letters := ⟨by decide +kernel, by decide +kernel, by decide +kernel⟩
  have hcount : slotCount letters = 16 := by decide +kernel
  have hdir : FileChain smallVolume wideState.disk 2 [2, 3] := by
    have hlink : fatEntry smallVolume wideState.disk 2 = 3 := by decide +kernel
    have hmark : fatEntry smallVolume wideState.disk 3 = 0x0FFFFFFF := by decide +kernel
    have hvalid : ∀ c ∈ [2, 3], ValidCluster smallVolume c := by
      rintro c (_ | ⟨_, _ | ⟨_, ⟨⟩⟩⟩)
      · exact ⟨by decide, by decide⟩
      · exact ⟨by decide, by decide⟩
    refine ⟨.link ?_ ?_, hvalid⟩
    · rw [hlink]
      exact (hvalid 3 (by decide)).not_endMark smallVolume_geometry
    · rw [hlink]
      apply LinkedChain.last
      rw [hmark]
      exact ⟨by decide, by decide⟩
  have hstored := namedFile_stored hname 16
  obtain ⟨s', hrun, hgroup⟩ := recreateLfn_spec (s := wideState) smallVolume_geometry (by decide)
    hname hstored length_defaultName rfl hdir (by decide) rfl hcount.le (by decide +kernel)
  rw [hcount] at hgroup
  have hlost : ∀ lf : List ℕ, lf.length = 260 →
      assemble (groupBefore smallVolume s'.disk [2, 3] 16 16) lf = none := by
    intro lf hlen
    obtain ⟨hordinal, -⟩ := lfnSlot_ordinal (namedFile letters 16)
      (fatLfnChecksum (namedFile letters 16).fatDir) (i := 0) (k := 16) (by decide) (by decide)
    rw [hgroup]
    refine assemble_outside (List.mem_map.mpr ⟨0, by decide, rfl⟩) ?_ hlen
    rw [hordinal]
    decide
  refine ⟨s', hrun, hname, hlost _ length_defaultName, ?_⟩
  intro h
  obtain ⟨lf', hread, -⟩ := h.readback _ length_defaultName
  rw [hlost _ length_defaultName] at hread
  cases hread

end Neos.Fat
