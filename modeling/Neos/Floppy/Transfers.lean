import Neos.Floppy.Model

/-!
# Reading and writing a range

Both loops run up to and including the sector in which the end of the range
lies.  When the range ends at the end of a sector, this is the sector behind it:
it is read for nothing, does not exist behind the last sector of the disk, and
is overwritten with what the sector before left in the buffer.
-/

namespace Neos.Floppy

/-! ## Sectors and their triples -/

/-- Different sectors have different triples, also with the one behind the disk. -/
theorem lbaToChs_inj {a b : ℕ} (ha : a ≤ 2880) (hb : b ≤ 2880) (h : lbaToChs a = lbaToChs b) :
    a = b := by
  have hcylinder := congrArg Chs.cylinder h
  have hhead := congrArg Chs.head h
  have hsector := congrArg Chs.sector h
  simp only [lbaToChs, sectorsPerTrack] at hcylinder hhead hsector
  omega

theorem onDisk_iff {lba : ℕ} (h : lba ≤ 2880) : (lbaToChs lba).OnDisk ↔ lba < 2880 := by
  simp only [Chs.OnDisk, lbaToChs, sectorsPerTrack]
  omega

/-- A sector in which some byte of a range lies. -/
def Intersects (address size : ℕ) (chs : Chs) : Prop :=
  ∃ a, address ≤ a ∧ a < address + size ∧ lbaToChs (a / 512) = chs

/-! ## Copying within a sector -/

theorem copyBytes_apply (src : Buffer) :
    ∀ (left source target : ℕ) (dst : Buffer) (j : ℕ),
      copyBytes src left source target dst j =
        if target ≤ j ∧ j < target + left then src (source + (j - target)) else dst j
  | 0, source, target, dst, j => by
      rw [copyBytes, if_neg (by omega)]
  | left + 1, source, target, dst, j => by
      rw [copyBytes, copyBytes_apply src left]
      by_cases hj : j = target
      · subst hj
        rw [if_neg (by omega), if_pos rfl, if_pos (by omega), Nat.sub_self, Nat.add_zero]
      · rw [if_neg hj]
        by_cases hin : target ≤ j ∧ j < target + (left + 1)
        · rw [if_pos (by omega), if_pos hin]
          congr 1
          omega
        · rw [if_neg (by omega), if_neg hin]

section Range

variable {address size lba : ℕ}

theorem rangeEnd_eq (h : address + size ≤ diskSize) : rangeEnd address size = address + size := by
  unfold diskSize at h
  exact Nat.mod_eq_of_lt (by omega)

theorem startIn_eq (h : address / 512 ≤ lba) :
    startIn address lba = max address (512 * lba) - 512 * lba := by
  unfold startIn
  split <;> omega

theorem endIn_eq (h : address + size ≤ diskSize) (hlba : lba ≤ (address + size) / 512) :
    endIn address size lba = min (address + size) (512 * (lba + 1)) - 512 * lba := by
  unfold endIn
  rw [rangeEnd_eq h]
  split <;> omega

/-- The number of bytes of the range in front of a sector. -/
def before (address size lba : ℕ) : ℕ := min (address + size) (max address (512 * lba)) - address

theorem before_succ (h : address + size ≤ diskSize) (hlow : address / 512 ≤ lba)
    (hlba : lba ≤ (address + size) / 512) :
    before address size (lba + 1) =
      before address size lba + (endIn address size lba - startIn address lba) := by
  rw [startIn_eq hlow, endIn_eq h hlba, before, before]
  omega

theorem before_add (hlow : address / 512 ≤ lba) (hlba : lba ≤ (address + size) / 512) :
    address + before address size lba = 512 * lba + startIn address lba := by
  rw [startIn_eq hlow, before]
  omega

theorem before_end : before address size ((address + size) / 512 + 1) = size := by
  unfold before
  omega

theorem endIn_le (h : address + size ≤ diskSize) (hlba : lba ≤ (address + size) / 512) :
    endIn address size lba ≤ 512 := by
  rw [endIn_eq h hlba]
  omega

theorem byteAt_sector (d : Drive) {o : ℕ} (ho : o < 512) :
    d.byteAt (512 * lba + o) = d.sectors (lbaToChs lba) o := by
  have hdiv : (512 * lba + o) / 512 = lba := by omega
  have hmod : (512 * lba + o) % 512 = o := by omega
  rw [Drive.byteAt, hdiv, hmod]

/-! ## Reading -/

/-- A part of the loop of `floppy_read`: the sectors from `lba` on were asked for,
the disk is as it was, and the buffer is filled from an index up to the end of
the range. -/
structure Filled (address size lba left : ℕ) (buffer : Buffer) (d : Drive)
    (done : Bool × Buffer × Drive) : Prop where
  returned : done.1 = true
  filled : ∀ i, done.2.1 i =
    if before address size lba ≤ i ∧ i < size then d.byteAt (address + i) else buffer i
  kept : done.2.2.sectors = d.sectors
  touched : done.2.2.touched = d.touched ++ (List.range' lba left).map lbaToChs

theorem readLoop_filled (h : address + size < diskSize) :
    ∀ (left lba : ℕ) (tmp buffer : Buffer) (d : Drive), address / 512 ≤ lba →
      lba + left = (address + size) / 512 + 1 →
      Filled address size lba left buffer d
        (readLoop address size left lba (before address size lba) tmp buffer d)
  | 0, lba, tmp, buffer, d, _, hleft => by
      obtain rfl : lba = (address + size) / 512 + 1 := by omega
      refine ⟨rfl, fun i => ?_, rfl, (List.append_nil _).symm⟩
      rw [before_end, if_neg (by omega)]
      rfl
  | left + 1, lba, tmp, buffer, d, hlow, hleft => by
      have hlba : lba ≤ (address + size) / 512 := by omega
      have hdisk : (lbaToChs lba).OnDisk := by
        unfold diskSize at h
        exact (onDisk_iff (by omega)).mpr (by omega)
      have hread : floppyReadLba lba tmp d =
          (true, fun i => if i < 512 then d.sectors (lbaToChs lba) i else tmp i,
            d.touch (lbaToChs lba)) := if_pos hdisk
      rw [readLoop, hread]
      dsimp only
      rw [if_neg (show ¬ true = false by decide), ← before_succ (Nat.le_of_lt h) hlow hlba]
      obtain ⟨hreturned, hfilled, hkept, htouched⟩ := readLoop_filled h left (lba + 1)
        (fun i => if i < 512 then d.sectors (lbaToChs lba) i else tmp i)
        (copyBytes (fun i => if i < 512 then d.sectors (lbaToChs lba) i else tmp i)
          (endIn address size lba - startIn address lba) (startIn address lba)
          (before address size lba) buffer)
        (d.touch (lbaToChs lba)) (by omega) (by omega)
      refine ⟨hreturned, fun i => ?_, hkept, ?_⟩
      · have hnext := before_succ (Nat.le_of_lt h) hlow hlba
        have hadd := before_add hlow hlba
        have hstop := endIn_le (Nat.le_of_lt h) hlba
        have hsize : before address size (lba + 1) ≤ size := by
          unfold before
          omega
        rw [hfilled, copyBytes_apply]
        by_cases hlater : before address size (lba + 1) ≤ i ∧ i < size
        · rw [if_pos hlater, if_pos (by omega)]
          rfl
        rw [if_neg hlater]
        by_cases hhere : before address size lba ≤ i ∧
            i < before address size lba + (endIn address size lba - startIn address lba)
        · -- the byte comes from this sector
          have hoffset : startIn address lba + (i - before address size lba) < 512 := by omega
          have haddress : address + i =
              512 * lba + (startIn address lba + (i - before address size lba)) := by omega
          rw [if_pos hhere, if_pos hoffset, if_pos (by omega), haddress, byteAt_sector d hoffset]
        · rw [if_neg hhere, if_neg (by omega)]
      · rw [htouched, List.range'_succ, List.map_cons]
        exact List.append_assoc _ _ _

end Range

/-- Asked for a sector that is not on the disk, the loop fails. -/
theorem readLoop_fails (address size : ℕ) {last : ℕ} (hoff : ¬ (lbaToChs last).OnDisk) :
    ∀ (left lba index : ℕ) (tmp buffer : Buffer) (d : Drive), lba ≤ last → last < lba + left →
      (readLoop address size left lba index tmp buffer d).1 = false
  | 0, _, _, _, _, _, hlow, hhigh => absurd hlow (Nat.not_le_of_lt hhigh)
  | left + 1, lba, index, tmp, buffer, d, hlow, hhigh => by
      rw [readLoop]
      split
      · rfl
      · next hread =>
          have hne : lba ≠ last := by
            rintro rfl
            exact hread (congrArg Prod.fst (if_neg hoff))
          exact readLoop_fails address size hoff left (lba + 1) _ _ _ _ (by omega) (by omega)

/-- What a read should do: fill the buffer with the range and ask only for sectors
in which a part of it lies. -/
structure Reads (address size : ℕ) (buffer : Buffer) (d : Drive) (done : Bool × Buffer × Drive) :
    Prop where
  returned : done.1 = true
  filled : ∀ i, done.2.1 i = if i < size then d.byteAt (address + i) else buffer i
  touching : ∃ asked, done.2.2.touched = d.touched ++ asked ∧
    ∀ chs ∈ asked, Intersects address size chs

theorem before_start (address size : ℕ) : before address size (address / 512) = 0 := by
  unfold before
  omega

/-- The sector in which the end lies is met by the range when the range does not
end in front of it. -/
theorem intersects_iff {address size lba : ℕ} (h : address + size ≤ diskSize)
    (hlow : address / 512 ≤ lba) (hlba : lba ≤ (address + size) / 512) :
    Intersects address size (lbaToChs lba) ↔ 512 * lba < address + size ∧ 0 < size := by
  unfold diskSize at h
  constructor
  · rintro ⟨a, h₁, h₂, hchs⟩
    have hsame := lbaToChs_inj (by omega) (by omega) hchs
    omega
  · rintro ⟨h₁, h₂⟩
    refine ⟨max address (512 * lba), by omega, by omega, ?_⟩
    congr 1
    omega

/-- A range on the disk is read as it should be exactly when it is not empty and
does not end at the end of a sector. -/
theorem floppyRead_reads_iff {address size : ℕ} (h : address + size ≤ diskSize) (buffer tmp : Buffer)
    (d : Drive) :
    Reads address size buffer d (floppyRead buffer address size tmp d) ↔
      0 < size ∧ (address + size) % 512 ≠ 0 := by
  rw [floppyRead, rangeEnd_eq h]
  have hcount : address / 512 + ((address + size) / 512 + 1 - address / 512) =
      (address + size) / 512 + 1 := by omega
  rcases Nat.lt_or_eq_of_le h with hlt | heq
  · have hloop := readLoop_filled hlt _ (address / 512) tmp buffer d (Nat.le_refl _) hcount
    rw [before_start] at hloop
    constructor
    · rintro ⟨-, -, asked, hasked, hall⟩
      obtain rfl := List.append_cancel_left (hasked.symm.trans hloop.touched)
      have hlast := hall (lbaToChs ((address + size) / 512)) (List.mem_map_of_mem (by
        rw [List.mem_range'_1]
        omega))
      have hmet := (intersects_iff h (by omega) (Nat.le_refl _)).mp hlast
      omega
    · rintro ⟨hsize, hunaligned⟩
      refine ⟨hloop.returned, fun i => ?_, _, hloop.touched, fun chs hchs => ?_⟩
      · rw [hloop.filled, before_start]
        by_cases hi : i < size
        · rw [if_pos hi, if_pos ⟨Nat.zero_le _, hi⟩]
        · rw [if_neg hi, if_neg fun hin => hi hin.2]
      · obtain ⟨lba, hlba, rfl⟩ := List.mem_map.mp hchs
        rw [List.mem_range'_1] at hlba
        exact (intersects_iff h (by omega) (by omega)).mpr ⟨by omega, hsize⟩
  · -- behind the last sector the read fails
    have hoff : ¬ (lbaToChs 2880).OnDisk := by decide
    unfold diskSize at heq
    have hfails := readLoop_fails address size hoff _ (address / 512) 0 tmp buffer d (by omega)
      (by rw [hcount]; omega)
    constructor
    · intro hreads
      have hreturned := hreads.returned
      rw [hfails] at hreturned
      cases hreturned
    · rintro ⟨-, hunaligned⟩
      omega

/-- A disk full of zeros. -/
def blankDrive : Drive := ⟨fun _ _ => 0, []⟩

/-- One byte of the first sector. -/
theorem floppyRead_reads_one :
    Reads 510 1 (fun _ => 1) blankDrive (floppyRead (fun _ => 1) 510 1 (fun _ => 1) blankDrive) :=
  (floppyRead_reads_iff (by decide) _ _ _).mpr (by decide)

/-- The last sector of the disk cannot be read. -/
theorem floppyRead_last_sector :
    ¬ Reads 1474048 512 (fun _ => 1) blankDrive
      (floppyRead (fun _ => 1) 1474048 512 (fun _ => 1) blankDrive) := by
  intro hreads
  have hreturned := hreads.returned
  have hfails : (floppyRead (fun _ => 1) 1474048 512 (fun _ => 1) blankDrive).1 = false := by decide
  rw [hfails] at hreturned
  cases hreturned

end Neos.Floppy
