import Neos.Floppy.Transfers

/-!
# What a write leaves on the disk

Each sector is assembled in one buffer: it holds the old contents of the sector
when they are to be preserved, and what is left of the sector before otherwise.
The bytes of the range are put over it and the sector is written back.
-/

namespace Neos.Floppy

section Loop

variable {address size : ℕ} {buffer : Buffer} {preserve : Bool}

/-! ## One sector -/

/-- The buffer of a sector before the bytes of the range are put over it. -/
def base (preserve : Bool) (lba : ℕ) (tmp : Buffer) (d : Drive) : Buffer :=
  if preserve then fun i => if i < 512 then d.sectors (lbaToChs lba) i else tmp i else tmp

/-- The buffer that is written to a sector. -/
def assembled (buffer : Buffer) (address size : ℕ) (preserve : Bool) (lba : ℕ) (tmp : Buffer)
    (d : Drive) : Buffer := fun o =>
  if startIn address lba ≤ o ∧
      o < startIn address lba + (endIn address size lba - startIn address lba) then
    buffer (before address size lba + (o - startIn address lba))
  else base preserve lba tmp d o

/-- A sector of the disk is replaced. -/
def Drive.replace (d : Drive) (chs : Chs) (contents : Buffer) : Chs → Buffer := fun other i =>
  if other = chs ∧ i < 512 then contents i else d.sectors other i

/-- One round of the loop of `floppy_write` on a sector of the disk. -/
theorem writeLoop_succ (buffer : Buffer) (preserve : Bool) (left : ℕ) (h : address + size ≤ diskSize)
    {lba : ℕ} (tmp : Buffer) (d : Drive) (hlow : address / 512 ≤ lba)
    (hlba : lba ≤ (address + size) / 512) (hdisk : lba < 2880) :
    ∃ d', d'.sectors = d.replace (lbaToChs lba)
        (assembled buffer address size preserve lba tmp d) ∧
      writeLoop buffer address size preserve (left + 1) lba (before address size lba) tmp d =
        writeLoop buffer address size preserve left (lba + 1) (before address size (lba + 1))
          (assembled buffer address size preserve lba tmp d) d' := by
  have hon : (lbaToChs lba).OnDisk := (onDisk_iff (by omega)).mpr hdisk
  obtain ⟨d₁, hd₁, hread⟩ : ∃ d₁ : Drive, d₁.sectors = d.sectors ∧
      (if preserve then floppyReadLba lba tmp d else (true, tmp, d)) =
        (true, base preserve lba tmp d, d₁) := by
    cases preserve with
    | true => exact ⟨d.touch (lbaToChs lba), rfl, if_pos hon⟩
    | false => exact ⟨d, rfl, rfl⟩
  have hfill : copyBytes buffer (endIn address size lba - startIn address lba)
      (before address size lba) (startIn address lba) (base preserve lba tmp d) =
        assembled buffer address size preserve lba tmp d := by
    funext o
    rw [copyBytes_apply]
    rfl
  have hwrite : floppyWriteLba lba (assembled buffer address size preserve lba tmp d) d₁ =
      (true, ⟨d₁.replace (lbaToChs lba) (assembled buffer address size preserve lba tmp d),
        d₁.touched ++ [lbaToChs lba]⟩) := if_pos hon
  rw [writeLoop, hread]
  dsimp only
  rw [if_neg (show ¬ true = false by decide), hfill, hwrite, ← before_succ h hlow hlba]
  dsimp only
  rw [if_neg (show ¬ true = false by decide)]
  refine ⟨_, ?_, rfl⟩
  unfold Drive.replace
  rw [hd₁]

/-! ## The loop -/

/-- What the loop does to the sectors from `lba` on: the bytes of the range are
those of the buffer, the others are kept if they are to be preserved, and the
other sectors are kept in any case. -/
structure Stored (buffer : Buffer) (address size : ℕ) (preserve : Bool) (lba left : ℕ) (d : Drive)
    (done : Bool × Drive) : Prop where
  returned : done.1 = true
  inside : ∀ l o, lba ≤ l → l < lba + left → o < 512 → address ≤ 512 * l + o →
    512 * l + o < address + size → done.2.sectors (lbaToChs l) o = buffer (512 * l + o - address)
  preserved : preserve = true → ∀ l o, lba ≤ l → l < lba + left → o < 512 →
    ¬ (address ≤ 512 * l + o ∧ 512 * l + o < address + size) →
      done.2.sectors (lbaToChs l) o = d.sectors (lbaToChs l) o
  others : ∀ chs i, (∀ l, lba ≤ l → l < lba + left → lbaToChs l ≠ chs) →
    done.2.sectors chs i = d.sectors chs i

theorem assembled_inside (h : address + size ≤ diskSize) {lba o : ℕ} (tmp : Buffer) (d : Drive)
    (hlow : address / 512 ≤ lba) (hlba : lba ≤ (address + size) / 512) (ho : o < 512)
    (h₁ : address ≤ 512 * lba + o) (h₂ : 512 * lba + o < address + size) :
    assembled buffer address size preserve lba tmp d o = buffer (512 * lba + o - address) := by
  have hadd := before_add hlow hlba
  have hstart := startIn_eq hlow
  have hstop := endIn_eq h hlba
  rw [assembled, if_pos (by omega)]
  congr 1
  omega

theorem assembled_outside (h : address + size ≤ diskSize) {lba o : ℕ} (tmp : Buffer) (d : Drive)
    (hlow : address / 512 ≤ lba) (hlba : lba ≤ (address + size) / 512)
    (hout : ¬ (address ≤ 512 * lba + o ∧ 512 * lba + o < address + size)) (ho : o < 512) :
    assembled buffer address size preserve lba tmp d o = base preserve lba tmp d o := by
  have hstart := startIn_eq hlow
  have hstop := endIn_eq h hlba
  rw [assembled, if_neg (by omega)]

theorem writeLoop_stored (buffer : Buffer) (preserve : Bool) (h : address + size < diskSize) :
    ∀ (left lba : ℕ) (tmp : Buffer) (d : Drive), address / 512 ≤ lba →
      lba + left = (address + size) / 512 + 1 →
      Stored buffer address size preserve lba left d
        (writeLoop buffer address size preserve left lba (before address size lba) tmp d)
  | 0, lba, tmp, d, _, _ =>
      ⟨rfl, fun l o h₁ h₂ => absurd h₂ (Nat.not_lt_of_le h₁),
        fun _ l o h₁ h₂ => absurd h₂ (Nat.not_lt_of_le h₁), fun _ _ _ => rfl⟩
  | left + 1, lba, tmp, d, hlow, hleft => by
      have hlba : lba ≤ (address + size) / 512 := by omega
      have hdisk : (address + size) / 512 < 2880 := by
        unfold diskSize at h
        omega
      obtain ⟨d', hd', hloop⟩ := writeLoop_succ buffer preserve left (Nat.le_of_lt h) tmp d
        hlow hlba (by omega)
      obtain ⟨hreturned, hinside, hpreserved, hothers⟩ :=
        writeLoop_stored buffer preserve h left (lba + 1)
        (assembled buffer address size preserve lba tmp d) d' (by omega) (by omega)
      -- the rounds that follow leave the sector of this one alone
      have hlater : ∀ l, lba + 1 ≤ l → l < lba + 1 + left → lbaToChs l ≠ lbaToChs lba := by
        intro l h₁ h₂ hsame
        have := lbaToChs_inj (by omega) (by omega) hsame
        omega
      have hhere : ∀ o < 512, d'.sectors (lbaToChs lba) o =
          assembled buffer address size preserve lba tmp d o := by
        intro o ho
        rw [hd']
        exact if_pos ⟨rfl, ho⟩
      have hnot : ∀ chs i, chs ≠ lbaToChs lba → d'.sectors chs i = d.sectors chs i := by
        intro chs i hchs
        rw [hd']
        exact if_neg fun hin => hchs hin.1
      rw [hloop]
      refine ⟨hreturned, ?_, ?_, ?_⟩
      · intro l o h₁ h₂ ho hfrom hto
        rcases Nat.eq_or_lt_of_le h₁ with rfl | hlt
        · rw [hothers _ _ hlater, hhere o ho,
            assembled_inside (Nat.le_of_lt h) tmp d hlow hlba ho hfrom hto]
        · exact hinside l o hlt (by omega) ho hfrom hto
      · intro hkeep l o h₁ h₂ ho hout
        rcases Nat.eq_or_lt_of_le h₁ with rfl | hlt
        · rw [hothers _ _ hlater, hhere o ho,
            assembled_outside (Nat.le_of_lt h) tmp d hlow hlba hout ho, base, hkeep]
          exact if_pos ho
        · rw [hpreserved hkeep l o hlt (by omega) ho hout]
          exact hnot _ _ (hlater l hlt (by omega))
      · intro chs i hall
        have hchs : chs ≠ lbaToChs lba := (hall lba (Nat.le_refl _) (by omega)).symm
        rw [hothers chs i fun l h₁ h₂ => hall l (by omega) (by omega), hnot chs i hchs]

/-- A write from memory that is the same byte everywhere leaves this byte in every
sector it reaches. -/
theorem writeLoop_const (address size : ℕ) (h : address + size < diskSize) (c : UInt8) :
    ∀ (left lba : ℕ) (d : Drive), address / 512 ≤ lba → lba + left = (address + size) / 512 + 1 →
      ∀ l o, lba ≤ l → l < lba + left → o < 512 →
        (writeLoop (fun _ => c) address size false left lba (before address size lba)
          (fun _ => c) d).2.sectors (lbaToChs l) o = c
  | 0, lba, d, _, _ => fun l o h₁ h₂ => absurd h₂ (Nat.not_lt_of_le h₁)
  | left + 1, lba, d, hlow, hleft => by
      intro l o h₁ h₂ ho
      have hlba : lba ≤ (address + size) / 512 := by omega
      have hdisk : (address + size) / 512 < 2880 := by
        unfold diskSize at h
        omega
      have hconst : assembled (fun _ => c) address size false lba (fun _ => c) d = fun _ => c := by
        funext o
        exact ite_self c
      obtain ⟨d', hd', hloop⟩ := writeLoop_succ (fun _ => c) false left (Nat.le_of_lt h)
        (fun _ => c) d hlow hlba (by omega)
      rw [hconst] at hd' hloop
      rw [hloop]
      rcases Nat.eq_or_lt_of_le h₁ with rfl | hlt
      · have hothers : ∀ chs i, (∀ l, lba + 1 ≤ l → l < lba + 1 + left → lbaToChs l ≠ chs) →
            (writeLoop (fun _ => c) address size false left (lba + 1) (before address size (lba + 1))
              (fun _ => c) d').2.sectors chs i = d'.sectors chs i :=
          (writeLoop_stored _ _ h left (lba + 1) (fun _ => c) d' (by omega) (by omega)).others
        rw [hothers, hd']
        · exact if_pos ⟨rfl, ho⟩
        · intro l h₁ h₂ hsame
          have := lbaToChs_inj (by omega) (by omega) hsame
          omega
      · exact writeLoop_const address size h c left (lba + 1) d' (by omega) (by omega) l o hlt
          (by omega) ho

/-- Asked for a sector that is not on the disk, the loop fails. -/
theorem writeLoop_fails (buffer : Buffer) (address size : ℕ) (preserve : Bool) {last : ℕ}
    (hoff : ¬ (lbaToChs last).OnDisk) :
    ∀ (left lba index : ℕ) (tmp : Buffer) (d : Drive), lba ≤ last → last < lba + left →
      (writeLoop buffer address size preserve left lba index tmp d).1 = false
  | 0, _, _, _, _, hlow, hhigh => absurd hlow (Nat.not_le_of_lt hhigh)
  | left + 1, lba, index, tmp, d, hlow, hhigh => by
      rw [writeLoop]
      generalize (if preserve = true then floppyReadLba lba tmp d else (true, tmp, d)) = read
      dsimp only
      split
      · rfl
      · split
        · rfl
        · next hwrite =>
            have hne : lba ≠ last := by
              rintro rfl
              exact hwrite (congrArg Prod.fst (if_neg hoff))
            exact writeLoop_fails buffer address size preserve hoff left (lba + 1) _ _ _ (by omega)
              (by omega)

end Loop

/-! ## What a write should do -/

/-- The bytes of the range are those of the buffer, the sectors which it does not
meet are unchanged, and with `preserve` so are all bytes outside of it. -/
structure Writes (buffer : Buffer) (address size : ℕ) (preserve : Bool) (d : Drive)
    (done : Bool × Drive) : Prop where
  returned : done.1 = true
  stored : ∀ a, address ≤ a → a < address + size → done.2.byteAt a = buffer (a - address)
  others : ∀ chs i, i < 512 → ¬ Intersects address size chs →
    done.2.sectors chs i = d.sectors chs i
  preserved : preserve = true → ∀ a, a < diskSize → ¬ (address ≤ a ∧ a < address + size) →
    done.2.byteAt a = d.byteAt a

/-- Every write to a range does what it should, whatever is written, whatever the
disk holds and whatever the buffer on the stack starts with. -/
def WritesAlways (address size : ℕ) (preserve : Bool) : Prop :=
  ∀ buffer tmp d, Writes buffer address size preserve d
    (floppyWrite buffer address size preserve tmp d)

section Write

variable {address size : ℕ} {preserve : Bool}

theorem floppyWrite_stored (h : address + size < diskSize) (buffer tmp : Buffer) (d : Drive) :
    Stored buffer address size preserve (address / 512)
      ((address + size) / 512 + 1 - address / 512) d
      (floppyWrite buffer address size preserve tmp d) := by
  have hloop := writeLoop_stored buffer preserve h
    ((address + size) / 512 + 1 - address / 512) (address / 512) tmp d (Nat.le_refl _) (by omega)
  rw [before_start] at hloop
  rw [floppyWrite, rangeEnd_eq (Nat.le_of_lt h)]
  exact hloop

theorem Stored.writes (h : address + size < diskSize) {buffer : Buffer} {d : Drive}
    {done : Bool × Drive}
    (hs : Stored buffer address size preserve (address / 512)
      ((address + size) / 512 + 1 - address / 512) d done)
    (hmet : preserve = false → 0 < size ∧ (address + size) % 512 ≠ 0) :
    Writes buffer address size preserve d done := by
  have hlast : (address + size) / 512 < 2880 := by
    unfold diskSize at h
    omega
  refine ⟨hs.returned, fun a h₁ h₂ => ?_, fun chs i hi hnot => ?_, fun hkeep a ha hout => ?_⟩
  · have hsplit : 512 * (a / 512) + a % 512 = a := Nat.div_add_mod a 512
    rw [Drive.byteAt, hs.inside (a / 512) (a % 512) (by omega) (by omega) (by omega) (by omega)
      (by omega), hsplit]
  · by_cases hall : ∀ l, address / 512 ≤ l →
        l < address / 512 + ((address + size) / 512 + 1 - address / 512) → lbaToChs l ≠ chs
    · exact hs.others chs i hall
    · -- one of the sectors that are written, and the range does not meet it
      have hone : ∃ l, address / 512 ≤ l ∧ l ≤ (address + size) / 512 ∧ lbaToChs l = chs := by
        refine Classical.byContradiction fun hnone => ?_
        exact hall fun l h₁ h₂ hchs => hnone ⟨l, h₁, by omega, hchs⟩
      obtain ⟨l, h₁, h₂, rfl⟩ := hone
      have hmiss := mt (intersects_iff (Nat.le_of_lt h) h₁ h₂).mpr hnot
      cases hp : preserve with
      | true => exact hs.preserved hp l i h₁ (by omega) hi (by omega)
      | false =>
          have := hmet hp
          omega
  · by_cases hin : address / 512 ≤ a / 512 ∧ a / 512 ≤ (address + size) / 512
    · have hsplit : 512 * (a / 512) + a % 512 = a := Nat.div_add_mod a 512
      exact hs.preserved hkeep (a / 512) (a % 512) hin.1 (by omega) (by omega) (by omega)
    · refine hs.others _ _ fun l h₁ h₂ hsame => ?_
      unfold diskSize at ha
      have := lbaToChs_inj (by omega) (by omega) hsame
      omega

/-- A range on the disk is written as it should be, with the rest of its sectors
preserved, exactly when it ends before the end of the disk; and without, exactly
when it is not empty and does not end at the end of a sector. -/
theorem floppyWrite_writes_iff (h : address + size ≤ diskSize) :
    WritesAlways address size preserve ↔
      if preserve then address + size < diskSize else 0 < size ∧ (address + size) % 512 ≠ 0 := by
  constructor
  · intro hall
    have hlt : address + size < diskSize := by
      rcases Nat.lt_or_eq_of_le h with hlt | heq
      · exact hlt
      · have hoff : ¬ (lbaToChs 2880).OnDisk := by decide
        have hreturned := (hall (fun _ => 0) (fun _ => 0) blankDrive).returned
        unfold diskSize at heq
        rw [floppyWrite, rangeEnd_eq h, writeLoop_fails _ _ _ _ hoff _ _ _ _ _ (by omega)
          (by omega)] at hreturned
        cases hreturned
    cases preserve with
    | true => exact hlt
    | false =>
        refine Classical.byContradiction fun hmiss => ?_
        have hlast : ¬ Intersects address size (lbaToChs ((address + size) / 512)) := by
          rw [intersects_iff h (by omega) (Nat.le_refl _)]
          intro hmet
          refine hmiss ⟨hmet.2, fun haligned => ?_⟩
          omega
        have hkept := (hall (fun _ => 1) (fun _ => 1) blankDrive).others _ 0 (by decide) hlast
        have hpainted := writeLoop_const address size hlt 1 ((address + size) / 512 + 1 - address / 512)
          (address / 512) blankDrive (Nat.le_refl _) (by omega) ((address + size) / 512) 0 (by omega)
          (by omega) (by decide)
        rw [before_start] at hpainted
        rw [floppyWrite, rangeEnd_eq h, hpainted] at hkept
        exact absurd hkept (show (1 : UInt8) ≠ 0 by decide)
  · intro hcond buffer tmp d
    cases preserve with
    | true => exact (floppyWrite_stored hcond buffer tmp d).writes hcond fun hp => by cases hp
    | false =>
        have hcond' : 0 < size ∧ (address + size) % 512 ≠ 0 := hcond
        have hlt : address + size < diskSize := by
          unfold diskSize at h ⊢
          omega
        exact (floppyWrite_stored hlt buffer tmp d).writes hlt fun _ => hcond'

end Write

/-- One byte of the first sector, in both modes. -/
theorem floppyWrite_writes_one : WritesAlways 510 1 true ∧ WritesAlways 510 1 false :=
  ⟨(floppyWrite_writes_iff (by decide)).mpr (by decide),
    (floppyWrite_writes_iff (by decide)).mpr (by decide)⟩

/-- Writing the first sector without `preserve` overwrites the second one. -/
theorem floppyWrite_overwrites : ¬ WritesAlways 0 512 false := by
  intro hall
  have hlast : ¬ Intersects 0 512 (lbaToChs 1) := by
    rintro ⟨a, h₁, h₂, hchs⟩
    have := lbaToChs_inj (by omega) (by omega) hchs
    omega
  have hkept := (hall (fun _ => 1) (fun _ => 1) blankDrive).others _ 0 (by decide) hlast
  have hpainted := writeLoop_const 0 512 (by decide) 1 2 0 blankDrive
    (Nat.le_refl _) rfl 1 0 (by decide) (by decide) (by decide)
  exact absurd (hpainted.symm.trans hkept) (show (1 : UInt8) ≠ 0 by decide)

end Neos.Floppy
