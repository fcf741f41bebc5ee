import Mathlib.Logic.Relation
import Neos.Fat.Chains
import Neos.Fat.Lookup

/-!
# The search for a free cluster

`fat_create` searches from the first cluster on, `fat_fwrite` from the one behind
the current cluster.  Both loops end at the first number whose FAT entry is zero,
or when the next number times the sectors of a cluster reaches the number of
sectors of the disk.  That bound is not the number of data clusters, and the
number the search begins with is read without it.
-/

namespace Neos.Fat

open ByteRange Relation

/-! ## The geometry of a volume -/

/-- The fields of `fat_bpb` in the bytes of the first sector. -/
def Bpb.ofDisk (disk : ℕ → UInt8) : Bpb where
  bytsPerSec := leValue (readBytes disk 11 2)
  secPerClus := leValue (readBytes disk 13 1)
  rsvdSecCnt := leValue (readBytes disk 14 2)
  numFats := leValue (readBytes disk 16 1)
  totSec16 := leValue (readBytes disk 19 2)
  totSec32 := leValue (readBytes disk 32 4)
  fatSz32 := leValue (readBytes disk 36 4)

/-- `"FAT32   "`. -/
def fat32Label : List UInt8 := [0x46, 0x41, 0x54, 0x33, 0x32, 0x20, 0x20, 0x20]

/-- `fat_init`: the geometry and the root directory, or `none` when the volume is
refused.  The label is compared as a string, with the bytes `behind` it in
memory. -/
def fatInit (disk : ℕ → UInt8) (behind : List UInt8) : Option (Bpb × FatFile) :=
  let bpb := Bpb.ofDisk disk
  let rootClus := leValue (readBytes disk 44 4)
  if disk 0 ≠ 0xEB ∧ disk 0 ≠ 0xE9 then none
  else if pathCompareLoop true ((readBytes disk 82 8 ++ behind).takeWhile (· ≠ 0)) fat32Label 0 = 9
    then none
  else some (bpb, { fatFileDefault with
    fatDir := (DirEntry.zero.setFstClusLO (if rootClus = 0 then 2 else rootClus)).setFileSize
      0xFFFFFFFF
    entryPosition := u32 (bpb.firstDataSector * bpb.bytsPerSec) })

theorem pathCompareLoop_le (cs : Bool) :
    ∀ (path name : List UInt8) (i : ℕ), pathCompareLoop cs path name i ≤ i + name.length
  | [], [], i => le_rfl
  | [], c :: _, i => by
      rw [pathCompareLoop]
      split <;> omega
  | p :: _, [], i => by
      rw [pathCompareLoop]
      split <;> omega
  | p :: path, c :: name, i => by
      have ih := pathCompareLoop_le cs path name (i + 1)
      rw [List.length_cons]
      rw [pathCompareLoop]
      repeat' split
      all_goals omega

/-- The comparison never returns `9`, so `fat_init` accepts every label. -/
theorem fatInit_isSome_iff (disk : ℕ → UInt8) (behind : List UInt8) :
    (fatInit disk behind).isSome ↔ disk 0 = 0xEB ∨ disk 0 = 0xE9 := by
  have hlabel : pathCompareLoop true ((readBytes disk 82 8 ++ behind).takeWhile (· ≠ 0))
      fat32Label 0 ≠ 9 := by
    have hle := pathCompareLoop_le true ((readBytes disk 82 8 ++ behind).takeWhile (· ≠ 0))
      fat32Label 0
    have hlen : fat32Label.length = 8 := rfl
    omega
  unfold fatInit
  dsimp only
  rw [if_neg hlabel]
  split
  · next hjump => simp [hjump]
  · next hjump =>
      rw [not_and_or, not_not, not_not] at hjump
      simp [hjump]

/-! ## Allocations -/

/-- The two places that look for a free cluster. -/
inductive Allocation
  | create
  | extend (current : ℕ)

/-- The number the search begins with. -/
def Allocation.start : Allocation → ℕ
  | .create => 2
  | .extend current => u32 (current + 1)

/-- The search in `fat_create`, and the one in `fat_fwrite` when the data goes on
behind the current cluster. -/
def Allocation.search (g : Bpb) (a : Allocation) (s : State) : Option (Option ℕ × State) :=
  findFreeCluster g loopBound a.start (fatInvalidateCache s)

/-- The numbers whose FAT entries the search reads. -/
def searchReads (g : Bpb) : ℕ → ℕ → State → List ℕ
  | 0, _, _ => []
  | rounds + 1, freeCluster, s =>
      let (value, s) := fatReadFatEntry g s freeCluster true
      freeCluster ::
        if value = 0 then []
        else
          let freeCluster := u32 (freeCluster + 1)
          if u32 (freeCluster * g.secPerClus) ≥ g.diskSize then []
          else searchReads g rounds freeCluster s

/-- `sizeof(fat_cache)`. -/
def sizeofFatCache : ℕ := 512

/-- A FAT entry of the first FAT copy, in one sector that fits the cache. -/
structure ReadInside (g : Bpb) (x : ℕ) : Prop where
  buffer : g.bytsPerSec ≤ sizeofFatCache
  sector : g.fatEntryOffset x % g.bytsPerSec + 4 ≤ g.bytsPerSec
  ge : g.rsvdSecCnt * g.bytsPerSec ≤ g.fatEntryOffset x
  le : g.fatEntryOffset x + 4 ≤ (g.rsvdSecCnt + g.fatSz32) * g.bytsPerSec

/-- A data cluster that the FAT marks free. -/
structure FreeData (g : Bpb) (disk : ℕ → UInt8) (c : ℕ) : Prop where
  ge_two : 2 ≤ c
  lt_limit : c < 2 + (g.diskSize - g.firstDataSector) / g.secPerClus
  free : fatEntry g disk c = 0

/-- What an allocation should do: end, succeed exactly when there is a free data
cluster, choose one, and read from the first FAT copy only. -/
structure Allocates (g : Bpb) (a : Allocation) (s : State) : Prop where
  result : ∃ r, a.search g s = some r ∧ (r.1 ≠ none ↔ ∃ c, FreeData g s.disk c) ∧
    ∀ c ∈ r.1, FreeData g s.disk c
  reads : ∀ x ∈ searchReads g loopBound a.start (fatInvalidateCache s), ReadInside g x

/-! ## Where a search leads -/

/-- A search goes on from `x` to `y`. -/
def Passes (g : Bpb) (disk : ℕ → UInt8) (x y : ℕ) : Prop :=
  y = u32 (x + 1) ∧ fatEntry g disk x ≠ 0 ∧ u32 (y * g.secPerClus) < g.diskSize

/-- The numbers a search comes to. -/
def Comes (g : Bpb) (disk : ℕ → UInt8) : ℕ → ℕ → Prop := ReflTransGen (Passes g disk)

/-- A search meets entries of the first FAT copy only; it comes to a free data
cluster, or there is none and it ends without a zero entry. -/
structure Searchable (g : Bpb) (a : Allocation) (disk : ℕ → UInt8) : Prop where
  inside : ∀ x, Comes g disk a.start x → ReadInside g x
  outcome : (∃ x, Comes g disk a.start x ∧ FreeData g disk x) ∨
    (∃ x, Comes g disk a.start x ∧ g.diskSize ≤ u32 (u32 (x + 1) * g.secPerClus)) ∧
      (∀ x, Comes g disk a.start x → fatEntry g disk x ≠ 0) ∧ ∀ c, ¬ FreeData g disk c

section

variable {g : Bpb} {s s' : State} {disk : ℕ → UInt8} {x y z start : ℕ}

/-- The search goes one way. -/
theorem rightUnique_passes (g : Bpb) (disk : ℕ → UInt8) : Relator.RightUnique (Passes g disk) :=
  fun _ _ _ h h' => h.1.trans h'.1.symm

/-- Nothing lies behind a zero entry. -/
theorem not_passes_of_zero (h : fatEntry g disk x = 0) : ¬ Passes g disk x y :=
  fun hp => hp.2.1 h

theorem Comes.eq_of_zero (hx : Comes g disk start x) (hzero : fatEntry g disk x = 0)
    (hy : Comes g disk start y) (hend : ∀ z, ¬ Passes g disk y z) : y = x := by
  have hstop : ∀ {u v}, (∀ z, ¬ Passes g disk u z) → Comes g disk u v → v = u := by
    intro u v hu huv
    rcases huv.cases_head with heq | ⟨w, hw, -⟩
    · exact heq.symm
    · exact absurd hw (hu w)
  rcases ReflTransGen.total_of_right_unique (rightUnique_passes g disk) hx hy with hxy | hyx
  · exact hstop (fun z => not_passes_of_zero hzero) hxy
  · exact (hstop hend hyx).symm

/-- Numbers repeat after `2 ^ 32`, so the search comes to a number within as many
steps if at all. -/
theorem Comes.steps (hstart : start < 2 ^ 32) (h : Comes g disk start x) :
    ∃ k, k < 2 ^ 32 ∧ x = u32 (start + k) ∧
      ∀ j, j < k → Passes g disk (u32 (start + j)) (u32 (start + j + 1)) := by
  induction h with
  | refl => exact ⟨0, by decide, (u32_of_lt hstart).symm, fun j hj => absurd hj (Nat.not_lt_zero j)⟩
  | tail _ hstep ih =>
      obtain ⟨k, hk, rfl, hsteps⟩ := ih
      obtain ⟨rfl, hused, hmore⟩ := id hstep
      have hsucc : u32 (u32 (start + k) + 1) = u32 (start + k + 1) := by
        unfold u32
        omega
      by_cases hlast : k + 1 < 2 ^ 32
      · refine ⟨k + 1, hlast, hsucc, ?_⟩
        intro j hj
        by_cases heq : j = k
        · rw [heq, ← hsucc]
          exact hstep
        · exact hsteps j (by omega)
      · refine ⟨0, by decide, ?_, fun j hj => absurd hj (Nat.not_lt_zero j)⟩
        rw [hsucc]
        unfold u32
        omega

/-! ## What the loop does -/

/-- Through the cache the entry on the disk is read. -/
def Readable (g : Bpb) (x : ℕ) : Prop :=
  ∀ s : State, CacheHolds g s → ∃ s', fatReadFatEntry g s x true = (fatEntry g s.disk x, s') ∧
    s'.disk = s.disk ∧ CacheHolds g s'

theorem ReadInside.readable (hx : ReadInside g x) : Readable g x := by
  intro s hs
  obtain ⟨-, hsector, -, -⟩ := hx
  have hoffset : g.fatEntryOffset x < 2 ^ 32 := u32_lt _
  have hdiv := Nat.div_add_mod' (g.fatEntryOffset x) g.bytsPerSec
  have hbps : 4 ≤ g.bytsPerSec := by omega
  have hquot : g.fatEntryOffset x / g.bytsPerSec ≤ g.fatEntryOffset x / 4 :=
    Nat.div_le_div_left hbps (by decide)
  obtain ⟨hdisk, -, hholds, hcache⟩ := loadSector_holds hs
    (g.fatEntryOffset x / g.bytsPerSec) (by omega) (by omega)
  rw [fatReadFatEntry_eq, cachedEntry_eq (by omega) hcache]
  exact ⟨_, rfl, hdisk, hholds⟩

/-- One step of the search. -/
theorem findFreeCluster_passes (rounds : ℕ) (hx : Readable g x) (hs : CacheHolds g s)
    (h : Passes g s.disk x y) :
    ∃ s', s'.disk = s.disk ∧ CacheHolds g s' ∧
      findFreeCluster g (rounds + 1) x s = findFreeCluster g rounds y s' ∧
      searchReads g (rounds + 1) x s = x :: searchReads g rounds y s' := by
  obtain ⟨s', hread, hdisk, hs'⟩ := hx s hs
  obtain ⟨rfl, hused, hmore⟩ := h
  refine ⟨s', hdisk, hs', ?_, ?_⟩
  · rw [findFreeCluster, hread]
    dsimp only
    rw [if_neg hused, if_neg (not_le.mpr hmore)]
  · rw [searchReads, hread]
    dsimp only
    rw [if_neg hused, if_neg (not_le.mpr hmore)]

/-- Where the search goes no further it ends. -/
theorem findFreeCluster_stops (rounds : ℕ) (hx : Readable g x) (hs : CacheHolds g s)
    (h : ∀ y, ¬ Passes g s.disk x y) :
    ∃ s', s'.disk = s.disk ∧
      findFreeCluster g (rounds + 1) x s =
        some (if fatEntry g s.disk x = 0 then some x else none, s') ∧
      searchReads g (rounds + 1) x s = [x] := by
  obtain ⟨s', hread, hdisk, -⟩ := hx s hs
  rw [findFreeCluster, searchReads, hread]
  dsimp only
  by_cases hzero : fatEntry g s.disk x = 0
  · rw [if_pos hzero, if_pos hzero, if_pos hzero]
    refine ⟨_, ?_, rfl, rfl⟩
    exact hdisk
  · have hend : u32 (u32 (x + 1) * g.secPerClus) ≥ g.diskSize :=
      not_lt.mp fun hmore => h _ ⟨rfl, hzero, hmore⟩
    rw [if_neg hzero, if_neg hzero, if_neg hzero, if_pos hend, if_pos hend]
    exact ⟨_, hdisk, rfl, rfl⟩

/-- The search runs along the numbers it passes, and reads their entries. -/
theorem findFreeCluster_steps :
    ∀ {k : ℕ} (rounds : ℕ) {start : ℕ} {s : State}, CacheHolds g s → k < rounds → start < 2 ^ 32 →
      (∀ j, j < k → Readable g (u32 (start + j)) ∧
        Passes g s.disk (u32 (start + j)) (u32 (start + j + 1))) →
        ∃ s', s'.disk = s.disk ∧ CacheHolds g s' ∧
          findFreeCluster g rounds start s =
            findFreeCluster g (rounds - k) (u32 (start + k)) s' ∧
          searchReads g rounds start s =
            (List.range k).map (fun j => u32 (start + j)) ++
              searchReads g (rounds - k) (u32 (start + k)) s'
  | 0, rounds, start, s, hs, _, hstart, _ => by
      refine ⟨s, rfl, hs, ?_, ?_⟩
      · rw [Nat.sub_zero, Nat.add_zero, u32_of_lt hstart]
      · rw [Nat.sub_zero, Nat.add_zero, u32_of_lt hstart]
        rfl
  | k + 1, rounds + 1, start, s, hs, hk, hstart, hsteps => by
      obtain ⟨hinside, hpass⟩ := hsteps 0 (Nat.succ_pos k)
      rw [Nat.add_zero, u32_of_lt hstart] at hinside hpass
      obtain ⟨s₁, hdisk₁, hs₁, hfind, hreads⟩ :=
        findFreeCluster_passes rounds hinside hs hpass
      have hshift : ∀ j, u32 (u32 (start + 1) + j) = u32 (start + (j + 1)) := by
        intro j
        unfold u32
        omega
      have hshift' : ∀ j, u32 (u32 (start + 1) + j + 1) = u32 (start + (j + 1) + 1) := by
        intro j
        unfold u32
        omega
      obtain ⟨s₂, hdisk₂, hs₂, hfind₂, hreads₂⟩ := findFreeCluster_steps (k := k)
        rounds hs₁ (by omega) (u32_lt (start + 1)) (by
          intro j hj
          rw [hdisk₁, hshift, hshift']
          exact hsteps (j + 1) (by omega))
      refine ⟨s₂, hdisk₂.trans hdisk₁, hs₂, ?_, ?_⟩
      · rw [hfind, hfind₂, hshift, Nat.add_sub_add_right]
      · have hhead : u32 (start + 0) = start := by rw [Nat.add_zero, u32_of_lt hstart]
        rw [hreads, hreads₂, hshift, Nat.add_sub_add_right, List.range_succ_eq_map, List.map_cons,
          List.map_map, List.cons_append, hhead]
        congr 3
        funext j
        exact hshift j

theorem comes_of_steps {k : ℕ} (hstart : start < 2 ^ 32)
    (h : ∀ j, j < k → Passes g disk (u32 (start + j)) (u32 (start + j + 1))) :
    ∀ j, j ≤ k → Comes g disk start (u32 (start + j))
  | 0, _ => by
      rw [Nat.add_zero, u32_of_lt hstart]
      exact .refl
  | j + 1, hj => (comes_of_steps hstart h j (by omega)).tail (h j hj)

theorem searchReads_head {rounds : ℕ} : x ∈ searchReads g (rounds + 1) x s := by
  rw [searchReads]
  exact List.mem_cons_self

/-- A search that returns ends where it goes no further. -/
theorem findFreeCluster_ends :
    ∀ {rounds start : ℕ} {s : State} {r : Option ℕ × State}, CacheHolds g s →
      (∀ x, Comes g s.disk start x → Readable g x) →
        findFreeCluster g rounds start s = some r →
          ∃ x, Comes g s.disk start x ∧ (∀ y, ¬ Passes g s.disk x y) ∧ r.2.disk = s.disk ∧
            r.1 = if fatEntry g s.disk x = 0 then some x else none
  | rounds + 1, start, s, r, hs, hinside, hfind => by
      by_cases hgo : ∃ y, Passes g s.disk start y
      · obtain ⟨y, hy⟩ := hgo
        obtain ⟨s', hdisk, hs', hnext, -⟩ :=
          findFreeCluster_passes rounds (hinside start .refl) hs hy
        rw [hnext] at hfind
        obtain ⟨x, hx, hstop, hr, heq⟩ := findFreeCluster_ends hs'
          (fun x hx => hinside x (.head hy (hdisk ▸ hx))) hfind
        rw [hdisk] at hx hstop hr heq
        exact ⟨x, .head hy hx, hstop, hr, heq⟩
      · have hstop := not_exists.mp hgo
        obtain ⟨s', hdisk, hnext, -⟩ :=
          findFreeCluster_stops rounds (hinside start .refl) hs hstop
        rw [hnext, Option.some_inj] at hfind
        subst hfind
        exact ⟨start, .refl, hstop, hdisk, rfl⟩

/-! ## Allocations that do what they should -/

theorem Allocation.start_lt (a : Allocation) : a.start < 2 ^ 32 := by
  cases a with
  | create => decide
  | extend current => exact u32_lt _

theorem cacheHolds_invalidate (g : Bpb) (s : State) : CacheHolds g (fatInvalidateCache s) :=
  .inl rfl

/-- Where a search comes to a number it does not go on from, it ends. -/
theorem Allocation.search_eq (a : Allocation)
    (hreadable : ∀ x, Comes g s.disk a.start x → Readable g x) (hx : Comes g s.disk a.start x)
    (hstop : ∀ y, ¬ Passes g s.disk x y) :
    ∃ s', a.search g s = some (if fatEntry g s.disk x = 0 then some x else none, s') ∧
      ∀ y ∈ searchReads g loopBound a.start (fatInvalidateCache s),
        Comes g s.disk a.start y := by
  obtain ⟨k, hk, rfl, hsteps⟩ := hx.steps a.start_lt
  have hcomes := comes_of_steps a.start_lt hsteps
  obtain ⟨s₁, hdisk₁, hs₁, hfind, hreads⟩ := findFreeCluster_steps _ (s := fatInvalidateCache s)
    (cacheHolds_invalidate g s) hk a.start_lt
    fun j hj => ⟨hreadable _ (hcomes j hj.le), hsteps j hj⟩
  obtain ⟨rounds, hrounds⟩ : ∃ rounds, 2 ^ 32 - k = rounds + 1 :=
    Nat.exists_eq_add_one_of_ne_zero (by omega)
  have hsame : s₁.disk = s.disk := hdisk₁
  obtain ⟨s₂, -, hlast, hread⟩ := findFreeCluster_stops rounds
    (hreadable _ (hcomes k le_rfl)) hs₁ (by rwa [hsame])
  rw [hrounds] at hfind hreads
  rw [hlast, hsame] at hfind
  refine ⟨s₂, hfind, ?_⟩
  intro y hy
  unfold loopBound at hy
  rw [hreads, hread, List.mem_append, List.mem_map, List.mem_singleton] at hy
  rcases hy with ⟨j, hj, rfl⟩ | rfl
  · exact hcomes j (List.mem_range.mp hj).le
  · exact hcomes k le_rfl

/-- A search reads the entries of all numbers it comes to. -/
theorem Allocates.inside {a : Allocation} (h : Allocates g a s) :
    ∀ x, Comes g s.disk a.start x → ReadInside g x := by
  intro x hx
  obtain ⟨k, hk, rfl, hsteps⟩ := hx.steps a.start_lt
  clear hx
  induction k using Nat.strong_induction_on with
  | _ k ih =>
      obtain ⟨s₁, -, -, -, hreads⟩ := findFreeCluster_steps _ (s := fatInvalidateCache s)
        (cacheHolds_invalidate g s) hk a.start_lt
        fun j hj =>
          ⟨(ih j hj (by omega) fun i hi => hsteps i (by omega)).readable, hsteps j hj⟩
      obtain ⟨rounds, hrounds⟩ : ∃ rounds, 2 ^ 32 - k = rounds + 1 :=
        Nat.exists_eq_add_one_of_ne_zero (by omega)
      apply h.reads
      unfold loopBound
      rw [hreads, hrounds]
      exact List.mem_append_right _ searchReads_head

/-- An allocation does what it should exactly when its search stays in the first
FAT copy and comes to a free data cluster, or ends without a zero entry when there
is none. -/
theorem allocates_iff (g : Bpb) (a : Allocation) (s : State) :
    Allocates g a s ↔ Searchable g a s.disk := by
  constructor
  · intro h
    have hinside := h.inside
    obtain ⟨⟨r, hr, hiff, hchosen⟩, -⟩ := h
    obtain ⟨x, hx, hstop, -, heq⟩ :=
      findFreeCluster_ends (cacheHolds_invalidate g s) (fun x hx => (hinside x hx).readable) hr
    have hx' : Comes g s.disk a.start x := hx
    refine ⟨hinside, ?_⟩
    by_cases hzero : fatEntry g s.disk x = 0
    · have hsome : r.1 = some x := heq.trans (if_pos hzero)
      exact .inl ⟨x, hx', hchosen x hsome⟩
    · have hnone : r.1 = none := heq.trans (if_neg hzero)
      refine .inr ⟨⟨x, hx', not_lt.mp fun hmore => hstop _ ⟨rfl, hzero, hmore⟩⟩, ?_, ?_⟩
      · intro y hy hyzero
        exact hzero (Comes.eq_of_zero hy hyzero hx' hstop ▸ hyzero)
      · intro c hc
        exact hiff.mpr ⟨c, hc⟩ hnone
  · rintro ⟨hinside, ⟨x, hx, hfree⟩ | ⟨⟨x, hx, hbound⟩, hused, hnone⟩⟩
    · obtain ⟨s', hsearch, hreads⟩ :=
        a.search_eq (fun y hy => (hinside y hy).readable) hx fun y =>
          not_passes_of_zero hfree.free
      rw [if_pos hfree.free] at hsearch
      refine ⟨⟨_, hsearch, ?_, ?_⟩, fun y hy => hinside y (hreads y hy)⟩
      · exact ⟨fun _ => ⟨x, hfree⟩, fun _ => Option.some_ne_none x⟩
      · rintro c hc
        cases hc
        exact hfree
    · have hstop : ∀ y, ¬ Passes g s.disk x y := by
        rintro y ⟨rfl, -, hmore⟩
        exact absurd hmore (not_lt.mpr hbound)
      obtain ⟨s', hsearch, hreads⟩ :=
        a.search_eq (fun y hy => (hinside y hy).readable) hx hstop
      rw [if_neg (hused x hx)] at hsearch
      refine ⟨⟨_, hsearch, ?_, ?_⟩, fun y hy => hinside y (hreads y hy)⟩
      · exact ⟨fun hne => absurd rfl hne, fun ⟨c, hc⟩ => absurd hc (hnone c)⟩
      · rintro c hc
        cases hc

/-! ## Ordinary volumes -/

theorem Geometry.passes_iff (hg : Geometry g) (hx : x < 2 ^ 24) :
    Passes g disk x y ↔
      y = x + 1 ∧ fatEntry g disk x ≠ 0 ∧ (x + 1) * g.secPerClus < g.diskSize := by
  have hspc := hg.secPerClus_lt
  have hle := Nat.mul_le_mul (show x + 1 ≤ 2 ^ 24 by omega) (show g.secPerClus ≤ 255 by omega)
  have hsucc : u32 (x + 1) = x + 1 := u32_of_lt (by omega)
  have hmul : u32 ((x + 1) * g.secPerClus) = (x + 1) * g.secPerClus := u32_of_lt (by omega)
  unfold Passes
  constructor
  · rintro ⟨rfl, hused, hmore⟩
    rw [hsucc, hmul] at hmore
    exact ⟨hsucc, hused, hmore⟩
  · rintro ⟨rfl, hused, hmore⟩
    exact ⟨hsucc.symm, hused, by rwa [hmul]⟩

theorem Geometry.readable (hg : Geometry g) (hx : x < 2 ^ 28) : Readable g x := by
  intro s hs
  obtain ⟨s', hread, hlooked⟩ := fatReadFatEntry_cached hg ((cacheFresh_iff hg).mpr hs) hx
  exact ⟨s', hread, hlooked.disk, (cacheFresh_iff hg).mp hlooked.fresh⟩

/-- What the bound admits is a small number. -/
theorem Geometry.lt_of_bound (hg : Geometry g) (hx : x * g.secPerClus < g.diskSize) :
    x < 2 ^ 24 := by
  have hdisk := hg.diskSize_le
  have hle := Nat.le_mul_of_pos_right x hg.secPerClus_pos
  omega

/-- The search comes to the numbers from its start on, as far as the bound admits
them and the entries in front of them are not zero. -/
theorem Geometry.comes_iff (hg : Geometry g) (hstart : start < 2 ^ 24) :
    Comes g disk start x ↔
      start ≤ x ∧ (x = start ∨ x * g.secPerClus < g.diskSize) ∧
        ∀ y, start ≤ y → y < x → fatEntry g disk y ≠ 0 := by
  constructor
  · intro h
    induction h with
    | refl => exact ⟨le_rfl, .inl rfl, fun y hy hlt => absurd hlt (not_lt.mpr hy)⟩
    | @tail x y _ hstep ih =>
        obtain ⟨hle, hbound, hused⟩ := ih
        have hlt : x < 2 ^ 24 := by
          rcases hbound with rfl | hbound
          · exact hstart
          · exact hg.lt_of_bound hbound
        obtain ⟨rfl, hne, hmore⟩ := (hg.passes_iff hlt).mp hstep
        refine ⟨by omega, .inr hmore, ?_⟩
        intro z hz hzx
        by_cases heq : z = x
        · rwa [heq]
        · exact hused z hz (by omega)
  · rintro ⟨hle, hbound, hused⟩
    induction x, hle using Nat.le_induction with
    | base => exact .refl
    | succ x hle ih =>
        have hmore : (x + 1) * g.secPerClus < g.diskSize := hbound.resolve_left (by omega)
        have hmore' : x * g.secPerClus < g.diskSize :=
          lt_of_le_of_lt (Nat.mul_le_mul_right _ (Nat.le_succ x)) hmore
        have hlt := hg.lt_of_bound hmore'
        exact (ih (.inr hmore') fun y hy hyx => hused y hy (by omega)).tail
          ((hg.passes_iff hlt).mpr ⟨rfl, hused x hle (by omega), hmore⟩)

theorem Geometry.comes_of_used (hg : Geometry g) (hstart : start < 2 ^ 24) (hle : start ≤ x)
    (hbound : x = start ∨ x * g.secPerClus < g.diskSize)
    (hused : ∀ y, start ≤ y → (y = start ∨ y * g.secPerClus < g.diskSize) → y < x →
      fatEntry g disk y ≠ 0) : Comes g disk start x := by
  refine (hg.comes_iff hstart).mpr ⟨hle, hbound, ?_⟩
  intro y hy hyx
  refine hused y hy (.inr ?_) hyx
  exact lt_of_le_of_lt (Nat.mul_le_mul_right _ hyx.le) (hbound.resolve_left (by omega))

theorem Geometry.readInside_iff (hg : Geometry g) (hx : x < 2 ^ 28) :
    ReadInside g x ↔ x * 4 + 4 ≤ g.fatSz32 * 512 := by
  have hoffset := hg.fatEntryOffset_of_lt hx
  have hbps := hg.bytsPerSec
  constructor
  · rintro ⟨-, -, -, hle⟩
    rw [hoffset, hbps] at hle
    omega
  · intro hle
    refine ⟨by rw [hbps]; exact le_rfl, ?_, ?_, ?_⟩
    · rw [hoffset, hbps]
      omega
    · rw [hoffset, hbps]
      omega
    · rw [hoffset, hbps]
      omega

theorem Geometry.freeData_iff (hg : Geometry g) {c : ℕ} :
    FreeData g disk c ↔ ValidCluster g c ∧ fatEntry g disk c = 0 := by
  have hlimit : 2 + (g.diskSize - g.firstDataSector) / g.secPerClus = clusterLimit g := by
    rw [clusterLimit, hg.firstDataSector_eq]
  constructor
  · rintro ⟨htwo, hlt, hfree⟩
    exact ⟨⟨htwo, hlimit ▸ hlt⟩, hfree⟩
  · rintro ⟨⟨htwo, hlt⟩, hfree⟩
    exact ⟨htwo, hlimit ▸ hlt, hfree⟩

theorem Geometry.lt_of_comes (hg : Geometry g) (hstart : start < 2 ^ 24)
    (hx : Comes g disk start x) : x < 2 ^ 24 := by
  obtain ⟨-, rfl | hbound, -⟩ := (hg.comes_iff hstart).mp hx
  · exact hstart
  · exact hg.lt_of_bound hbound

theorem Geometry.readable_of_comes (hg : Geometry g) (hstart : start < 2 ^ 24)
    (hx : Comes g disk start x) : Readable g x :=
  hg.readable ((hg.lt_of_comes hstart hx).trans (by decide))

/-- A search does not go on for ever. -/
theorem Geometry.exists_stop (hg : Geometry g) (disk : ℕ → UInt8) (hstart : start < 2 ^ 24) :
    ∃ x, Comes g disk start x ∧ ∀ y, ¬ Passes g disk x y := by
  by_contra! hgo
  have hcomes : ∀ k, Comes g disk start (start + k) := by
    intro k
    induction k with
    | zero => exact .refl
    | succ k ih =>
        obtain ⟨y, hy⟩ := hgo _ ih
        obtain ⟨rfl, -⟩ := (hg.passes_iff (hg.lt_of_comes hstart ih)).mp hy
        exact ih.tail hy
  have hlt := hg.lt_of_comes hstart (hcomes (2 ^ 24))
  omega

theorem Geometry.search_isSome (hg : Geometry g) {a : Allocation} (hstart : a.start < 2 ^ 24) :
    (a.search g s).isSome := by
  obtain ⟨x, hx, hstop⟩ := hg.exists_stop s.disk hstart
  obtain ⟨s', hsearch, -⟩ := a.search_eq (fun x => hg.readable_of_comes hstart) hx hstop
  rw [hsearch]
  rfl

/-- A search that returns chose the zero entry it comes to, if there is one. -/
theorem Geometry.search_spec (hg : Geometry g) {a : Allocation} (hstart : a.start < 2 ^ 24)
    {r : Option ℕ × State} (h : a.search g s = some r) :
    r.2.disk = s.disk ∧
      ((r.1 = none ∧ ∀ x, Comes g s.disk a.start x → fatEntry g s.disk x ≠ 0) ∨
        ∃ f, r.1 = some f ∧ Comes g s.disk a.start f ∧ fatEntry g s.disk f = 0) := by
  obtain ⟨x, hx, hstop, hdisk, heq⟩ :=
    findFreeCluster_ends (cacheHolds_invalidate g s) (fun x => hg.readable_of_comes hstart) h
  have hx' : Comes g s.disk a.start x := hx
  refine ⟨hdisk, ?_⟩
  by_cases hzero : fatEntry g s.disk x = 0
  · exact .inr ⟨x, heq.trans (if_pos hzero), hx', hzero⟩
  · refine .inl ⟨heq.trans (if_neg hzero), ?_⟩
    intro y hy hyzero
    exact hzero (Comes.eq_of_zero hy hyzero hx' hstop ▸ hyzero)

/-- On an ordinary volume an allocation does what it should exactly when a free
data cluster lies within the bound and not in front of the start, or when there is
none and all numbers from the start to the bound have used entries in the first
FAT copy. -/
theorem Geometry.searchable_iff (hg : Geometry g) {a : Allocation} (htwo : 2 ≤ a.start)
    (hstart : a.start < 2 ^ 24) :
    Searchable g a disk ↔
      (∃ c, a.start ≤ c ∧ (c = a.start ∨ c * g.secPerClus < g.diskSize) ∧ FreeData g disk c) ∨
        (∀ x, a.start ≤ x → (x = a.start ∨ x * g.secPerClus < g.diskSize) →
          x * 4 + 4 ≤ g.fatSz32 * 512 ∧ fatEntry g disk x ≠ 0) ∧ ∀ c, ¬ FreeData g disk c := by
  have hsmall : ∀ {x}, x = a.start ∨ x * g.secPerClus < g.diskSize → x < 2 ^ 24 := by
    rintro x (rfl | hbound)
    · exact hstart
    · exact hg.lt_of_bound hbound
  constructor
  · rintro ⟨hinside, ⟨c, hc, hfree⟩ | ⟨-, hused, hnone⟩⟩
    · obtain ⟨hle, hbound, -⟩ := (hg.comes_iff hstart).mp hc
      exact .inl ⟨c, hle, hbound, hfree⟩
    · -- no zero entry is met, so the search comes to every number within the bound
      have hall : ∀ x, a.start ≤ x → (x = a.start ∨ x * g.secPerClus < g.diskSize) →
          Comes g disk a.start x := by
        intro x
        induction x using Nat.strong_induction_on with
        | _ x ih =>
            intro hle hbound
            exact hg.comes_of_used hstart hle hbound fun y hy hyb hyx =>
              hused y (ih y hyx hy hyb)
      refine .inr ⟨?_, hnone⟩
      intro x hle hbound
      have hcomes := hall x hle hbound
      exact ⟨(hg.readInside_iff ((hsmall hbound).trans (by decide))).mp (hinside x hcomes),
        hused x hcomes⟩
  · rintro (⟨c, hle, hbound, hfree⟩ | ⟨hall, hnone⟩)
    · obtain ⟨hvalid, hzero⟩ := hg.freeData_iff.mp hfree
      -- the first zero entry from the start on
      have hex : ∃ m, a.start ≤ m ∧ fatEntry g disk m = 0 := ⟨c, hle, hzero⟩
      obtain ⟨hm, hmzero⟩ := Nat.find_spec hex
      have hmin : ∀ y, a.start ≤ y → y < Nat.find hex → fatEntry g disk y ≠ 0 := by
        intro y hy hlt hyzero
        exact Nat.find_min hex hlt ⟨hy, hyzero⟩
      have hmc : Nat.find hex ≤ c := Nat.find_min' hex ⟨hle, hzero⟩
      have hclt := hvalid.lt_limit
      have hmbound : Nat.find hex = a.start ∨ Nat.find hex * g.secPerClus < g.diskSize := by
        rcases hbound with heq | hbound
        · exact .inl (by omega)
        · exact .inr (lt_of_le_of_lt (Nat.mul_le_mul_right _ hmc) hbound)
      refine ⟨?_, .inl ⟨_, (hg.comes_iff hstart).mpr ⟨hm, hmbound, hmin⟩,
        hg.freeData_iff.mpr ⟨⟨by omega, by omega⟩, hmzero⟩⟩⟩
      intro x hx
      obtain ⟨-, hxbound, hused⟩ := (hg.comes_iff hstart).mp hx
      have hxm : x ≤ Nat.find hex := not_lt.mp fun hlt => hused _ hm hlt hmzero
      have hend := hg.fatEntry_end (c := x) (by omega)
      exact (hg.readInside_iff ((hsmall hxbound).trans (by decide))).mpr (by omega)
    · have hcomes : ∀ x, a.start ≤ x → (x = a.start ∨ x * g.secPerClus < g.diskSize) →
          Comes g disk a.start x := fun x hle hbound =>
        hg.comes_of_used hstart hle hbound fun y hy hyb _ => (hall y hy hyb).2
      have hrange : ∀ x, Comes g disk a.start x →
          x * 4 + 4 ≤ g.fatSz32 * 512 ∧ fatEntry g disk x ≠ 0 := by
        intro x hx
        obtain ⟨hle, hbound, -⟩ := (hg.comes_iff hstart).mp hx
        exact hall x hle hbound
      refine ⟨?_, .inr ⟨?_, fun x hx => (hrange x hx).2, hnone⟩⟩
      · intro x hx
        obtain ⟨-, hbound, -⟩ := (hg.comes_iff hstart).mp hx
        exact (hg.readInside_iff ((hsmall hbound).trans (by decide))).mpr (hrange x hx).1
      · have hspc := hg.secPerClus_pos
        have hend : ∀ {x}, x < 2 ^ 24 → g.diskSize ≤ (x + 1) * g.secPerClus →
            g.diskSize ≤ u32 (u32 (x + 1) * g.secPerClus) := by
          intro x hlt hge
          have hle := Nat.mul_le_mul (show x + 1 ≤ 2 ^ 24 by omega)
            (show g.secPerClus ≤ 255 by have := hg.secPerClus_lt; omega)
          rwa [u32_of_lt (n := x + 1) (by omega), u32_of_lt (by omega)]
        by_cases hfirst : g.diskSize ≤ (a.start + 1) * g.secPerClus
        · exact ⟨_, .refl, hend hstart hfirst⟩
        · -- the last number the bound admits
          have hlast : (g.diskSize - 1) / g.secPerClus * g.secPerClus < g.diskSize := by
            have := Nat.div_mul_le_self (g.diskSize - 1) g.secPerClus
            omega
          have hover : g.diskSize ≤ ((g.diskSize - 1) / g.secPerClus + 1) * g.secPerClus := by
            have := Nat.lt_div_mul_add hspc (a := g.diskSize - 1)
            rw [Nat.succ_mul]
            omega
          have hge : a.start ≤ (g.diskSize - 1) / g.secPerClus := by
            rw [Nat.le_div_iff_mul_le hspc]
            rw [Nat.succ_mul] at hfirst
            omega
          exact ⟨_, hcomes _ hge (.inr hlast), hend (hg.lt_of_bound hlast) hover⟩

end

/-! ## A cluster in front of the file -/

/-- A volume of ten sectors with clusters of one sector each: every FAT entry is
used but that of cluster `2`. -/
def frontDisk : ℕ → UInt8 := fun i =>
  if i < 64 then
    ([0xEB, 0, 0, 0, 0, 0, 0, 0, 0, 0, 0, 0, 2, 1, 1, 0, 2, 0, 0, 10, 0, 0, 0, 0, 0, 0, 0, 0, 0, 0,
      0, 0, 0, 0, 0, 0, 1] : List UInt8).getD i 0
  else if 520 ≤ i ∧ i < 524 then 0 else 0xFF

/-- `fat_init` accepts the volume, and a file that ends in cluster `3` is not
extended. -/
theorem extend_misses_front :
    (fatInit frontDisk []).map Prod.fst = some (Bpb.ofDisk frontDisk) ∧
      FreeData (Bpb.ofDisk frontDisk) frontDisk 2 ∧
      ((Allocation.extend 3).search (Bpb.ofDisk frontDisk) ⟨frontDisk, fun _ => 0, 0, [], []⟩).map
        Prod.fst = some none ∧
      ¬ Allocates (Bpb.ofDisk frontDisk) (.extend 3) ⟨frontDisk, fun _ => 0, 0, [], []⟩ := by
  have hfree : FreeData (Bpb.ofDisk frontDisk) frontDisk 2 :=
    ⟨by decide, by decide +kernel, by decide +kernel⟩
  have hsearch : ((Allocation.extend 3).search (Bpb.ofDisk frontDisk)
      ⟨frontDisk, fun _ => 0, 0, [], []⟩).map Prod.fst = some none := by decide +kernel
  refine ⟨by decide +kernel, hfree, hsearch, ?_⟩
  rintro ⟨⟨r, hr, hiff, -⟩, -⟩
  rw [hr, Option.map_some, Option.some_inj] at hsearch
  exact hiff.mpr ⟨2, hfree⟩ hsearch

end Neos.Fat
