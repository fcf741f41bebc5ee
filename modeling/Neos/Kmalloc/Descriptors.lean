import Neos.Kmalloc.Crowded

/-!
# Accesses through level descriptors

Along any run of calls a call reads and writes elements of the tree only, unless it marks
segments or takes the whole tree for one block: `areafull_buddify` always ends one level
above the root, and `full_buddify` starts there when it is entered at the root.
-/

namespace Neos.Kmalloc

open BitMemory BuddyTree Relation

/-! ## Runs -/

/-- A call of the allocator. -/
inductive Operation
  | kset (size offset : ℕ)
  | kmres (pointer size : ℕ)
  | kmalloc (size : ℕ)
  | kfree (pointer : ℕ)
  | krealloc (pointer size : ℕ)
deriving DecidableEq

/-- Requests for as many segments as the tree has leaves, at most. -/
def Allocator.Fits (s : Allocator) (size : ℕ) : Prop :=
  size < 2 ^ 32 ∧ segmentCount size ≤ (s.treeLevels 0).size

/-- The elements on which a call uses `gettreeelement` and `settreeelement`. -/
def Operation.accesses (frames : ℕ) (s : Allocator) : Operation → List Node
  | .kset size offset => ksetAccesses s size offset
  | .kmres pointer size => kmresAccesses s pointer size
  | .kmalloc size => kmallocAccesses frames s size
  | .kfree pointer => kfreeAccesses s pointer
  | .krealloc pointer size => kreallocAccesses frames s pointer size

/-- The allocator whose descriptors a call uses. -/
def Operation.arena (s : Allocator) : Operation → Allocator
  | .kset size offset => Kmalloc.kset s size offset
  | _ => s

/-- Arenas in the address space, pointers into live blocks and requests that fit. -/
def Operation.Proper (h : Heap) : Operation → Prop
  | .kset size offset => size < 2 ^ 32 ∧ offset + size ≤ 2 ^ 32
  | .kmres _ _ => True
  | .kmalloc size => h.alloc.Fits size
  | .kfree pointer => ∃ b ∈ h.live, pointer ∈ b.range
  | .krealloc pointer size => (∃ b ∈ h.live, b.start = pointer) ∧ h.alloc.Fits size

/-- The call marks no segments, and takes the whole tree only if it is refused. -/
def Operation.Stays (s : Allocator) : Operation → Prop
  | .kset size _ => Unmarked size
  | .kmres _ _ => False
  | .kmalloc size => requestLevel size < s.maxTreeLevel ∨ s.Refuses size
  | .kfree _ => True
  | .krealloc pointer size => requestLevel size < s.maxTreeLevel ∨
      (∃ z, kmsz s pointer = some z ∧ 2 ^ requestLevel size * blockSize ≤ z) ∨
      s.RefusesMove pointer size

/-- What a call does to the arena and its blocks. -/
inductive Operation.Performs (frames : ℕ) (h : Heap) : Operation → Heap → Prop
  | kset (size offset : ℕ) : Performs frames h (.kset size offset)
      ⟨Kmalloc.kset h.alloc size offset, []⟩
  | kmres (pointer size : ℕ) : Performs frames h (.kmres pointer size)
      ⟨Kmalloc.kmres h.alloc pointer size, h.live⟩
  | kmalloc {size r : ℕ} {s' : Allocator} (hroom : ¬ h.alloc.Refuses size)
      (hcall : Kmalloc.kmalloc frames h.alloc size = some (r, s')) :
      Performs frames h (.kmalloc size) ⟨s', ⟨r, 2 ^ requestLevel size * blockSize⟩ :: h.live⟩
  | kmallocRefused {size r : ℕ} {s' : Allocator} (hfull : h.alloc.Refuses size)
      (hcall : Kmalloc.kmalloc frames h.alloc size = some (r, s')) :
      Performs frames h (.kmalloc size) ⟨s', h.live⟩
  | kfree {b : Block} {pointer : ℕ} (hb : b ∈ h.live) (hp : pointer ∈ b.range) :
      Performs frames h (.kfree pointer) ⟨Kmalloc.kfree h.alloc pointer, h.live.erase b⟩
  | kreallocKeep {b : Block} {size r z : ℕ} {s' : Allocator} (hb : b ∈ h.live)
      (hz : kmsz h.alloc b.start = some z) (hfit : 2 ^ requestLevel size * blockSize ≤ z)
      (hcall : Kmalloc.krealloc frames h.alloc b.start size = some (r, s')) :
      Performs frames h (.krealloc b.start size) ⟨s', ⟨r, b.size⟩ :: h.live.erase b⟩
  | kreallocMove {b : Block} {size r z : ℕ} {s' : Allocator} (hb : b ∈ h.live)
      (hz : kmsz h.alloc b.start = some z) (hfit : z < 2 ^ requestLevel size * blockSize)
      (hroom : ¬ h.alloc.RefusesMove b.start size)
      (hcall : Kmalloc.krealloc frames h.alloc b.start size = some (r, s')) :
      Performs frames h (.krealloc b.start size)
        ⟨s', ⟨r, 2 ^ requestLevel size * blockSize⟩ :: h.live.erase b⟩
  | kreallocRefused {b : Block} {size r z : ℕ} {s' : Allocator} (hb : b ∈ h.live)
      (hz : kmsz h.alloc b.start = some z) (hfit : z < 2 ^ requestLevel size * blockSize)
      (hfull : h.alloc.RefusesMove b.start size)
      (hcall : Kmalloc.krealloc frames h.alloc b.start size = some (r, s')) :
      Performs frames h (.krealloc b.start size) ⟨s', h.live.erase b⟩

/-- A call that stays in the tree, or a write of a client to its own block. -/
inductive Proceeds (frames : ℕ) : Heap → Heap → Prop
  | call {h h' : Heap} (op : Operation) (hproper : op.Proper h) (hstays : op.Stays h.alloc)
      (hperforms : op.Performs frames h h') : Proceeds frames h h'
  | write {h : Heap} {b : Block} {a v : ℕ} (hb : b ∈ h.live) (ha : a ∈ b.range) :
      Proceeds frames h ⟨{ h.alloc with mem := store h.alloc.mem a v }, h.live⟩

/-! ## One call -/

/-- What the accesses of a call depend on: the shape of the tree, the segments of the
blocks and the masks above them. -/
structure Traced (h : Heap) : Prop where
  shaped : Shaped h.alloc
  segment : ∀ b ∈ h.live, ∀ pointer ∈ b.range,
    (⟨0, segmentOf h.alloc pointer⟩ : Node) ≤ h.alloc.root
  start : ∀ b ∈ h.live, b.start ∈ b.range
  level : ∀ b ∈ h.live, ∃ l ≤ h.alloc.maxTreeLevel,
    areaLevel h.alloc (segmentOf h.alloc b.start) = some l

section

variable {h h' : Heap} {s s' : Allocator} {frames size pointer offset r l : ℕ}

theorem Shaped.requestLevel_le (hs : Shaped s) (hfits : s.Fits size) :
    requestLevel size ≤ s.maxTreeLevel := by
  rw [requestLevel_eq_clog]
  refine Nat.clog_le_of_le_pow ?_
  have hleaves := hs.size_eq 0 (Nat.zero_le _)
  rw [Nat.sub_zero] at hleaves
  exact hleaves ▸ hfits.2

theorem levelLoop_frame :
    ∀ (fuel : ℕ) (s : Allocator) (ecx edi eax ebx : ℕ), 1 ≤ eax →
      (levelLoop fuel s ecx edi eax ebx).end_ = s.end_ ∧
        (levelLoop fuel s ecx edi eax ebx).treeLevels 0 = s.treeLevels 0
  | 0, _, _, _, _, _, _ => ⟨rfl, rfl⟩
  | fuel + 1, s, ecx, edi, eax, ebx, heax => by
      rw [levelLoop]
      split
      · obtain ⟨hend, hzero⟩ := levelLoop_frame fuel
          { s with treeLevels := Function.update s.treeLevels eax ⟨ecx, edi⟩, maxTreeLevel := eax }
          (ecx >>> 1) (edi + ((ecx * ebx - 1) >>> 3 + 1)) (eax + 1) (ebx + 1) (by omega)
        refine ⟨hend, hzero.trans ?_⟩
        exact Function.update_of_ne (by omega) _ _
      · exact ⟨rfl, Function.update_of_ne (by omega) _ _⟩

/-- The end of the segments and the number of leaves of an arena. -/
theorem kset_descriptors (s : Allocator) (size offset : ℕ) :
    (kset s size offset).end_ =
        (size + 2 ^ 32 - ((leafLoop 32 1 (size / blockSize) - 1) >>> 1 + 1)) % 2 ^ 32 ∧
      ((kset s size offset).treeLevels 0).size = leafLoop 32 1 (size / blockSize) := by
  unfold kset initializeTree
  simp only [Function.update_self]
  split
  · obtain ⟨hend, hzero⟩ := levelLoop_frame 32 _ _ _ _ _ le_rfl
    rw [hend, hzero]
    dsimp only
    rw [Function.update_self]
    exact ⟨rfl, rfl⟩
  · obtain ⟨hend, hzero⟩ := levelLoop_frame 32 _ _ _ _ _ le_rfl
    obtain ⟨m, hm⟩ := takeSegments_same _ _ _
    rw [takeSegments] at hm
    rw [hm]
    dsimp only
    rw [hend, hzero]
    dsimp only
    rw [Function.update_self]
    exact ⟨rfl, rfl⟩

/-- The comparison of `initializetree`. -/
theorem kset_marks_iff (s : Allocator) (offset : ℕ) (hlt : size < 2 ^ 32) :
    (kset s size offset).end_ / blockSize > ((kset s size offset).treeLevels 0).size - 1 ↔
      Unmarked size := by
  obtain ⟨m, hpos, -, hm, -, hlow⟩ := exists_leaves hlt
  obtain ⟨hhalf, hiff⟩ := end_of_leaves hlt hm hpos hlow
  obtain ⟨hend, hleaves⟩ := kset_descriptors s size offset
  have hone := Nat.two_pow_pos m
  rw [hend, hleaves, hm, hhalf, ← hiff]
  omega

/-- `kset` goes through a descriptor that it has not filled in exactly if it marks
segments. -/
theorem ksetAccesses_described (s : Allocator) (offset : ℕ) (hlt : size < 2 ^ 32) :
    (Unmarked size → ∀ z ∈ ksetAccesses s size offset, (kset s size offset).Describes z) ∧
      (¬ Unmarked size → ∃ z ∈ ksetAccesses s size offset, ¬ (kset s size offset).Describes z) := by
  rw [← kset_marks_iff s offset hlt]
  unfold ksetAccesses
  dsimp only
  split
  · next hskip => exact ⟨fun _ => by simp, fun hmark => absurd hskip hmark⟩
  · next hmark =>
      exact ⟨fun hskip => absurd hskip hmark, fun _ => exists_takeSegmentsAccesses_beyond _ _ _⟩

theorem kreallocAccesses_eq (hl : areaLevel s (segmentOf s pointer) = some l) :
    kreallocAccesses frames s pointer size =
      areaLevelLoopAccesses s 32 0 (segmentOf s pointer) ++
        if l ≥ requestLevel size then [] else moveAccesses frames s pointer size := by
  unfold kreallocAccesses
  dsimp only
  rw [hl]

/-- Every access of a call stays in the tree exactly if the call does. -/
theorem Traced.accesses_described (ht : Traced h) {op : Operation} (hproper : op.Proper h) :
    (op.Stays h.alloc → ∀ z ∈ op.accesses frames h.alloc, (op.arena h.alloc).Describes z) ∧
      (0 < frames → ¬ op.Stays h.alloc →
        ∃ z ∈ op.accesses frames h.alloc, ¬ (op.arena h.alloc).Describes z) := by
  have hshaped := ht.shaped
  cases op with
  | kset size offset =>
      have hkset := ksetAccesses_described h.alloc offset hproper.1
      exact ⟨hkset.1, fun _ => hkset.2⟩
  | kmres pointer size =>
      exact ⟨False.elim, fun _ _ => exists_takeSegmentsAccesses_beyond _ _ _⟩
  | kmalloc size =>
      refine ⟨fun hstays z hz => ?_, fun hframes hleaves => ?_⟩
      · exact hshaped.describes_iff.mpr (hshaped.kmallocAccesses_le_root frames hstays z hz)
      · obtain ⟨hlevel, hroom⟩ := not_or.mp hleaves
        have hle := hshaped.requestLevel_le hproper
        exact exists_kmallocAccesses_beyond hframes (by omega) hroom
  | kfree pointer =>
      obtain ⟨b, hb, hp⟩ := hproper
      refine ⟨fun _ z hz => ?_, fun _ hleaves => absurd trivial hleaves⟩
      exact hshaped.describes_iff.mpr
        (hshaped.kfreeAccesses_le_root (ht.segment b hb pointer hp) z hz)
  | krealloc pointer size =>
      obtain ⟨⟨b, hb, rfl⟩, hfits⟩ := hproper
      have hroot := ht.segment b hb _ (ht.start b hb)
      have hle := hshaped.requestLevel_le hfits
      obtain ⟨l, hlmax, hl⟩ := ht.level b hb
      have hkmsz : kmsz h.alloc b.start = some (2 ^ l * blockSize) := by rw [kmsz, hl]; rfl
      have hcover : (∃ z, kmsz h.alloc b.start = some z ∧
          2 ^ requestLevel size * blockSize ≤ z) ↔ requestLevel size ≤ l := by
        rw [hkmsz]
        simp only [Option.some.injEq, exists_eq_left', Nat.mul_le_mul_right_iff (by decide :
          0 < blockSize), Nat.pow_le_pow_iff_right (by decide : 1 < 2)]
      simp only [Operation.Stays, hcover, Operation.accesses, Operation.arena]
      rw [kreallocAccesses_eq hl]
      have hup := areaLevelLoopAccesses_le_root 32 0 _ hl hlmax hroot
      refine ⟨fun hstays z hz => ?_, fun hframes hleaves => ?_⟩
      · rw [hshaped.describes_iff]
        rcases List.mem_append.mp hz with hz | hz
        · exact hup z hz
        split at hz
        · cases hz
        · next hsmall =>
            have hcond := hstays.imp_right fun hrest => hrest.resolve_left hsmall
            exact hshaped.moveAccesses_le_root frames hroot hle hcond z hz
      · obtain ⟨hlevel, hsmall, hroom⟩ := (not_or.trans (and_congr_right' not_or)).mp hleaves
        obtain ⟨z, hz, hbeyond⟩ : ∃ z ∈ moveAccesses frames h.alloc b.start size,
            ¬ h.alloc.Describes z := exists_moveAccesses_beyond hframes (by omega) hroom
        refine ⟨z, List.mem_append_right _ ?_, hbeyond⟩
        rwa [if_neg hsmall]

end

/-! ## The arenas of a run -/

/-- The descriptors that `kset` has filled in, and zero ones behind them. -/
def Allocator.initialised (s : Allocator) (l : ℕ) : LevelDescriptor :=
  if l ≤ s.maxTreeLevel then s.treeLevels l else ⟨0, 0⟩

/-- The arena without the descriptors that an earlier one left behind. -/
def Allocator.trim (s : Allocator) : Allocator := s.withLevels s.initialised

/-- The arenas between the calls of a run: none yet, one with overlapping tables, or one
whose tree records the blocks. -/
inductive Orderly (h : Heap) : Prop
  | unset (hlive : h.live = []) (hnone : (h.alloc.treeLevels 0).size = 0)
  | crowded {nodes : List Node} (hc : Crowded h nodes)
  | charted {s : Allocator} {a : Holding} (hc : Charted s [] ⟨h.alloc.trim, h.live⟩ a)

section

variable {h h' : Heap} {a : Holding} {nodes : List Node} {s s' s₀ : Allocator} {op : Operation}
  {frames size pointer offset r l : ℕ}

theorem agrees_initialised (hl : l ≤ s.maxTreeLevel) : Agrees s.initialised s l :=
  congrArg LevelDescriptor.pointer (if_pos hl)

theorem agrees_of_le_root {z : Node} (hz : z ≤ s.root) : Agrees s.initialised s z.level :=
  agrees_initialised (le_root_iff.mp hz).1

theorem trim_treeLevels (hl : l ≤ s.maxTreeLevel) : s.trim.treeLevels l = s.treeLevels l :=
  if_pos hl

theorem Same.trim_eq (hs : Same s s') : s'.withLevels s.initialised = s'.trim := by
  obtain ⟨m, rfl⟩ := hs
  rfl

/-- The masks above a segment are those of the trimmed arena. -/
theorem areaLevel_of_trim {q : ℕ} (hl : areaLevel s.trim q = some l) (hle : l ≤ s.maxTreeLevel)
    (hq : (⟨0, q⟩ : Node) ≤ s.root) : areaLevel s q = some l := by
  have hup := areaLevelLoopAccesses_le_root (s := s.trim) 32 0 q hl hle hq
  calc areaLevel s q
    _ = areaLevelLoop (s.trim.withLevels s.treeLevels) 32 0 q := rfl
    _ = areaLevelLoop s.trim 32 0 q :=
        areaLevelLoop_withLevels 32 0 q fun z hz =>
          (agrees_of_le_root (s := s) (hup z hz)).symm
    _ = some l := hl

theorem Crowded.traced (hc : Crowded h nodes) : Traced h where
  shaped := hc.overlapping.shaped
  segment b hb pointer hp := by
    obtain ⟨x, hx, rfl⟩ := hc.exists_node hb
    exact (hc.segmentOf_le hx hp).trans (hc.small x hx).2
  start b hb := by
    obtain ⟨x, -, rfl⟩ := hc.exists_node hb
    exact start_mem_range _ x
  level b hb := by
    obtain ⟨x, hx, rfl⟩ := hc.exists_node hb
    obtain ⟨l, hle, hl⟩ := hc.areaLevel_le hx
    exact ⟨l, hle.trans hc.overlapping.one_le, hl⟩

theorem Charted.shaped_of_trim (hc : Charted s [] ⟨h.alloc.trim, h.live⟩ a) :
    Shaped h.alloc := by
  have hlayout := hc.invariant.layout.shaped
  refine ⟨hlayout.one_le, hlayout.le_twentyTwo, fun l hl => ?_⟩
  have hsize := hlayout.size_eq l hl
  dsimp only at hsize
  rw [trim_treeLevels hl] at hsize
  exact hsize

theorem Charted.traced (hc : Charted s [] ⟨h.alloc.trim, h.live⟩ a) : Traced h where
  shaped := hc.shaped_of_trim
  segment b hb pointer hp := by
    obtain ⟨x, hx, rfl⟩ := hc.exists_node hb
    exact (hc.invariant.segmentOf_le hx hp).trans (hc.invariant.held_le_root hx)
  start b hb := by
    obtain ⟨x, -, rfl⟩ := hc.exists_node hb
    exact start_mem_range _ x
  level b hb := by
    obtain ⟨x, hx, rfl⟩ := hc.exists_node hb
    obtain ⟨l, hle, hl⟩ := hc.areaLevel_le hx
    have hroot := hc.invariant.held_le_root hx
    have hlmax : l ≤ h.alloc.trim.maxTreeLevel := hle.trans (le_root_iff.mp hroot).1
    have hleaf := (hc.invariant.segmentOf_le hx (start_mem_range _ x)).trans hroot
    exact ⟨l, hlmax, areaLevel_of_trim hl hlmax hleaf⟩

/-- A fresh arena records its system segments. -/
theorem Ready.charted (hready : Ready s) (hexact : s.offset + s.size < 2 ^ 32 →
    Exact s.tree s.root (systemSegments s)) : Charted s [] ⟨s, []⟩ ⟨s.tree, []⟩ := by
  have hfixed : s.fixed [] = systemSegments s := by simp [Allocator.fixed]
  refine ⟨Same.refl s, ?_, List.Perm.refl _, fun hlt => ?_⟩
  · rw [hfixed]
    exact Invariant.start hready.layout subset_rfl (systemSegments_le_root s) hready.settled
  · rw [taken_nil, hfixed]
    exact hexact hlt

/-- Without the descriptors an earlier arena left behind, a fresh arena is the first one. -/
theorem trim_kset (s₀ : Allocator) (offset : ℕ) (hsize : 5120 ≤ size) (hlt : size < 2 ^ 32)
    (hunmarked : Unmarked size) :
    (kset s₀ size offset).trim = kset (boot (fun _ => ⟨0, 0⟩) s₀.mem) size offset := by
  obtain ⟨m, h₃, -, hlow, -, hm, heq⟩ := kset_eq s₀ offset hsize hlt
  obtain ⟨m', -, -, -, -, hm', heq'⟩ := kset_eq (boot (fun _ => ⟨0, 0⟩) s₀.mem) offset hsize hlt
  obtain rfl : m = m' := Nat.pow_right_injective le_rfl (hm.symm.trans hm')
  have hmarks : (size - 2 ^ (m - 1)) / blockSize > 2 ^ m - 1 := by
    have hleaves := (end_of_leaves hlt hm (by omega) (Or.inr hlow)).2.mpr hunmarked
    have hle : 2 ^ (m - 1) ≤ size := hlow.le.trans (Nat.div_le_self _ _)
    have hpos := Nat.two_pow_pos (m - 1)
    have hend : (size + 2 ^ 32 - 2 ^ (m - 1)) % 2 ^ 32 = size - 2 ^ (m - 1) := by omega
    have hone := Nat.two_pow_pos m
    rw [hend] at hleaves
    omega
  rw [heq, heq', if_pos hmarks, if_pos hmarks]
  unfold Allocator.trim Allocator.withLevels laidOut boot
  congr 1
  funext k
  by_cases hk : k ≤ m
  · simp [Allocator.initialised, hk]
  · simp [Allocator.initialised, hk]

/-- `kset` over the segments of a tree sets up an arena, whatever was there before. -/
theorem orderly_kset (s₀ : Allocator) (hlt : size < 2 ^ 32) (hfits : offset + size ≤ 2 ^ 32)
    (hunmarked : Unmarked size) : Orderly ⟨kset s₀ size offset, []⟩ := by
  obtain ⟨m, hpos, -, hm, hhigh, hlow⟩ := exists_leaves hlt
  rcases Nat.lt_or_ge 2 m with hlarge | hsmall
  · have hsize : 5120 ≤ size := by
      have hblocks := hlow.resolve_left (by omega)
      have hfour : 2 ^ 2 ≤ 2 ^ (m - 1) := Nat.pow_le_pow_right (by decide) (by omega)
      unfold blockSize at hblocks
      omega
    obtain ⟨hready, hoffset, hsize', hexact⟩ := kset_ready (fun _ => ⟨0, 0⟩) s₀.mem hsize hlt hfits
    have hcharted := hready.charted (by rwa [hoffset, hsize'])
    rw [← trim_kset s₀ offset hsize hlt hunmarked] at hcharted
    exact .charted hcharted
  · rw [kset_overlaid s₀ offset hlt hm hpos hsmall hlow hunmarked]
    exact .crowded (crowded_overlaid s₀ hlt hm hpos hsmall hlow hunmarked)

/-! ## One step -/

theorem kmalloc_same (hcall : kmalloc frames s size = some (r, s')) : Same s s' := by
  unfold kmalloc at hcall
  dsimp only at hcall
  split at hcall
  · cases hcall
    exact Same.refl s
  split at hcall
  · cases hcall
  · cases hcall
    exact reserve_same _ _ _

theorem krealloc_same (hl : areaLevel s (segmentOf s pointer) = some l)
    (hcall : krealloc frames s pointer size = some (r, s')) : Same s s' := by
  have hfree := kfree_same s pointer
  rcases krealloc_cases hl hcall with ⟨-, -, rfl⟩ | ⟨-, ⟨-, -, rfl⟩ | ⟨-, -, hmalloc⟩ |
    ⟨-, -, s₂, hmalloc, rfl⟩⟩
  · exact Same.refl s'
  · exact (hfree.trans (reserve_same _ _ _)).trans ⟨_, rfl⟩
  · exact hfree.trans (kmalloc_same hmalloc)
  · exact (hfree.trans (kmalloc_same hmalloc)).trans ⟨_, rfl⟩

/-- The block covers the request exactly if its level does. -/
theorem covers_iff :
    2 ^ requestLevel size * blockSize ≤ 2 ^ l * blockSize ↔ requestLevel size ≤ l := by
  rw [Nat.mul_le_mul_right_iff (by decide), Nat.pow_le_pow_iff_right (by decide)]

theorem uncovered_iff :
    2 ^ l * blockSize < 2 ^ requestLevel size * blockSize ↔ l < requestLevel size := by
  rw [← not_le, covers_iff, not_le]

/-- A block is moved only below the level of the root. -/
theorem requestLevel_lt_of_moves (hstays : (Operation.krealloc pointer size).Stays s)
    (hz : kmsz s pointer = some (2 ^ l * blockSize)) (hlt : l < requestLevel size)
    (hroom : ¬ s.RefusesMove pointer size) : requestLevel size < s.maxTreeLevel := by
  refine hstays.resolve_right fun hrest => ?_
  obtain ⟨z, hz', hcover⟩ := hrest.resolve_right hroom
  obtain rfl := Option.some.inj (hz.symm.trans hz')
  exact Nat.not_le_of_lt hlt (covers_iff.mp hcover)

theorem Crowded.performs (hc : Crowded h nodes) (hproper : op.Proper h) (hstays : op.Stays h.alloc)
    (hperforms : op.Performs frames h h') : Orderly h' := by
  cases hperforms with
  | kset size offset => exact orderly_kset h.alloc hproper.1 hproper.2 hstays
  | kmres => exact hstays.elim
  | kmalloc hroom hcall =>
      obtain ⟨y, -, hblock, -, htake⟩ := hc.malloc (hstays.resolve_right hroom) hroom hcall
      exact .crowded (hblock ▸ htake)
  | kmallocRefused hfull hcall =>
      rw [kmalloc_of_refuses hfull] at hcall
      cases hcall
      exact .crowded hc
  | kfree hb hp =>
      obtain ⟨x, hx, rfl⟩ := hc.exists_node hb
      exact .crowded (hc.free hx hp)
  | kreallocKeep hb hz hfit hcall =>
      obtain ⟨l, hl, rfl⟩ := kmsz_eq_some hz
      obtain ⟨rfl, rfl⟩ := krealloc_keep hl (covers_iff.mp hfit) hcall
      exact .crowded (hc.perm (List.perm_cons_erase hb))
  | kreallocMove hb hz hfit hroom hcall =>
      obtain ⟨l, hl, rfl⟩ := kmsz_eq_some hz
      obtain ⟨x, hx, rfl⟩ := hc.exists_node hb
      have hlt := uncovered_iff.mp hfit
      obtain ⟨nodes', hmoved⟩ := hc.reallocMove hx hl hlt
        (requestLevel_lt_of_moves hstays hz hlt hroom) hroom hcall
      exact .crowded hmoved
  | kreallocRefused hb hz hfit hfull hcall =>
      obtain ⟨l, hl, rfl⟩ := kmsz_eq_some hz
      obtain ⟨x, hx, rfl⟩ := hc.exists_node hb
      have hlt := uncovered_iff.mp hfit
      rw [krealloc_refused hl hlt hfull hcall]
      exact .crowded (hc.free hx (start_mem_range _ x))

/-! The calls of the trimmed arena are those of the arena itself. -/

theorem trim_refuses_iff (s : Allocator) (size : ℕ) : s.trim.Refuses size ↔ s.Refuses size := by
  have hroot : getTreeElement s.trim s.maxTreeLevel 0 = getTreeElement s s.maxTreeLevel 0 :=
    getTreeElement_withLevels (agrees_initialised le_rfl)
  rw [Allocator.Refuses, Allocator.Refuses]
  change getTreeElement s.trim s.maxTreeLevel 0 &&& _ ≠ 0 ↔ _
  rw [hroot]

theorem Shaped.trim_kfree (hs : Shaped s) (hq : (⟨0, segmentOf s pointer⟩ : Node) ≤ s.root) :
    kfree s.trim pointer = (kfree s pointer).trim := by
  rw [← (kfree_same s pointer).trim_eq]
  exact kfree_withLevels fun z hz => agrees_of_le_root (hs.kfreeAccesses_le_root hq z hz)

theorem Shaped.trim_refusesMove_iff (hs : Shaped s)
    (hq : (⟨0, segmentOf s pointer⟩ : Node) ≤ s.root) (hle : requestLevel size ≤ s.maxTreeLevel) :
    s.trim.RefusesMove pointer size ↔ s.RefusesMove pointer size := by
  have hsame := kfree_same s pointer
  have hnode : getTreeElement (kfree s pointer).trim (requestLevel size)
      (segmentOf s pointer >>> requestLevel size) =
        getTreeElement (kfree s pointer) (requestLevel size)
          (segmentOf s pointer >>> requestLevel size) := by
    rw [← hsame.trim_eq]
    exact getTreeElement_withLevels (hsame.agrees (agrees_initialised hle))
  rw [Allocator.RefusesMove, Allocator.RefusesMove, hs.trim_kfree hq, trim_refuses_iff,
    show segmentOf s.trim pointer = segmentOf s pointer from rfl, hnode]

theorem areaLevel_trim (hl : areaLevel s (segmentOf s pointer) = some l) (hle : l ≤ s.maxTreeLevel)
    (hq : (⟨0, segmentOf s pointer⟩ : Node) ≤ s.root) :
    areaLevel s.trim (segmentOf s.trim pointer) = some l := by
  have hup := areaLevelLoopAccesses_le_root 32 0 _ hl hle hq
  exact (areaLevelLoop_withLevels 32 0 _ fun z hz => agrees_of_le_root (hup z hz)).trans hl

theorem Shaped.trim_kmalloc (hs : Shaped s) (hlt : requestLevel size < s.maxTreeLevel)
    (hcall : kmalloc frames s size = some (r, s')) :
    kmalloc frames s.trim size = some (r, s'.trim) := by
  have haccesses := hs.kmallocAccesses_le_root frames (Or.inl hlt)
  have hcall' : kmalloc frames s.trim size =
      (kmalloc frames s size).map fun p => (p.1, p.2.withLevels s.initialised) :=
    kmalloc_withLevels fun z hz => agrees_of_le_root (haccesses z hz)
  rw [hcall', hcall, Option.map_some, (kmalloc_same hcall).trim_eq]

theorem Shaped.trim_krealloc (hs : Shaped s) (hl : areaLevel s (segmentOf s pointer) = some l)
    (hle : l ≤ s.maxTreeLevel) (hq : (⟨0, segmentOf s pointer⟩ : Node) ≤ s.root)
    (hlt : requestLevel size < s.maxTreeLevel)
    (hcall : krealloc frames s pointer size = some (r, s')) :
    krealloc frames s.trim pointer size = some (r, s'.trim) := by
  have haccesses : ∀ z ∈ kreallocAccesses frames s pointer size, z ≤ s.root := by
    rw [kreallocAccesses_eq hl, List.forall_mem_append]
    refine ⟨areaLevelLoopAccesses_le_root 32 0 _ hl hle hq, ?_⟩
    split
    · simp
    · exact hs.moveAccesses_le_root frames hq hlt.le (Or.inl hlt)
  have hcall' : krealloc frames s.trim pointer size =
      (krealloc frames s pointer size).map fun p => (p.1, p.2.withLevels s.initialised) :=
    krealloc_withLevels fun z hz => agrees_of_le_root (haccesses z hz)
  rw [hcall', hcall, Option.map_some, (krealloc_same hl hcall).trim_eq]

theorem Shaped.trim_serves (hs : Shaped s) (hfits : s.Fits size)
    (hlt : requestLevel size < s.maxTreeLevel) : s.trim.Serves size := by
  have hsome : 1 ≤ size := by
    by_contra hzero
    obtain rfl : size = 0 := by omega
    rw [requestLevel_zero] at hlt
    exact absurd hs.le_twentyTwo (Nat.not_le_of_lt hlt)
  obtain ⟨hword, hcount⟩ := hfits
  refine ⟨hsome, hword, ?_⟩
  rw [trim_treeLevels (Nat.zero_le _)]
  unfold segmentCount at hcount
  have hbytes : size ≤ ((size + 2 ^ 32 - 1) % 2 ^ 32 / blockSize + 1) * blockSize := by
    unfold blockSize
    omega
  exact hbytes.trans (Nat.mul_le_mul_right _ hcount)

theorem Charted.performs (hc : Charted s [] ⟨h.alloc.trim, h.live⟩ a) (hproper : op.Proper h)
    (hstays : op.Stays h.alloc) (hperforms : op.Performs frames h h') : Orderly h' := by
  have ht := hc.traced
  have hshaped := ht.shaped
  cases hperforms with
  | kset size offset => exact orderly_kset h.alloc hproper.1 hproper.2 hstays
  | kmres => exact hstays.elim
  | @kmalloc size r s' hroom hcall =>
      have hlt := hstays.resolve_right hroom
      have hserves := hshaped.trim_serves hproper hlt
      obtain ⟨a', hmalloc⟩ := hc.malloc hserves (mt (trim_refuses_iff _ _).mp hroom)
        (hshaped.trim_kmalloc hlt hcall)
      rw [hserves.level_eq]
      exact .charted hmalloc
  | kmallocRefused hfull hcall =>
      rw [kmalloc_of_refuses hfull] at hcall
      cases hcall
      exact .charted hc
  | @kfree b pointer hb hp =>
      have hroot := ht.segment b hb pointer hp
      obtain ⟨x, hx, rfl⟩ := hc.exists_node hb
      have hfree := hc.free hx hp
      rw [hshaped.trim_kfree hroot] at hfree
      exact .charted hfree
  | @kreallocKeep b size r z s' hb hz hfit hcall =>
      obtain ⟨l, hl, rfl⟩ := kmsz_eq_some hz
      obtain ⟨rfl, rfl⟩ := krealloc_keep hl (covers_iff.mp hfit) hcall
      exact .charted (hc.advance (Advances.refl hc.invariant)
        (hc.blocks.trans (List.perm_cons_erase hb)))
  | @kreallocMove b size r z s' hb hz hfit hroom hcall =>
      obtain ⟨l, hl, rfl⟩ := kmsz_eq_some hz
      have hlt := uncovered_iff.mp hfit
      have hlevel := requestLevel_lt_of_moves hstays hz hlt hroom
      have hroot := ht.segment b hb b.start (ht.start b hb)
      have hroom' := mt (hshaped.trim_refusesMove_iff hroot hlevel.le).mp hroom
      have hserves := hshaped.trim_serves hproper.2 hlevel
      have hcall' := hshaped.trim_krealloc hl (hlt.le.trans hlevel.le) hroot hlevel hcall
      have hl' := areaLevel_trim hl (hlt.le.trans hlevel.le) hroot
      obtain ⟨x, hx, rfl⟩ := hc.exists_node hb
      obtain ⟨a', hmoved⟩ := hc.reallocMove hx hserves hl' (hserves.level_eq ▸ hlt) hroom' hcall'
      rw [hserves.level_eq]
      exact .charted hmoved
  | @kreallocRefused b size r z s' hb hz hfit hfull hcall =>
      obtain ⟨l, hl, rfl⟩ := kmsz_eq_some hz
      have hroot := ht.segment b hb b.start (ht.start b hb)
      obtain ⟨x, hx, rfl⟩ := hc.exists_node hb
      have hfree := hc.free hx (start_mem_range _ x)
      rw [krealloc_refused hl (uncovered_iff.mp hfit) hfull hcall]
      rw [hshaped.trim_kfree hroot] at hfree
      exact .charted hfree

theorem not_fits (hnone : (s.treeLevels 0).size = 0) : ¬ s.Fits size := by
  rintro ⟨-, hcount⟩
  rw [hnone] at hcount
  exact absurd hcount (Nat.not_succ_le_zero _)

/-- Before the first `kset` no other call is proper that stays in the tree. -/
theorem performs_of_unset (hlive : h.live = []) (hnone : (h.alloc.treeLevels 0).size = 0)
    (hproper : op.Proper h) (hstays : op.Stays h.alloc) (hperforms : op.Performs frames h h') :
    Orderly h' := by
  have hempty : ∀ b, b ∉ h.live := by simp [hlive]
  cases hperforms with
  | kset size offset => exact orderly_kset h.alloc hproper.1 hproper.2 hstays
  | kmres => exact hstays.elim
  | kmalloc => exact absurd hproper (not_fits hnone)
  | kmallocRefused => exact absurd hproper (not_fits hnone)
  | kfree hb => exact absurd hb (hempty _)
  | kreallocKeep hb => exact absurd hb (hempty _)
  | kreallocMove hb => exact absurd hb (hempty _)
  | kreallocRefused hb => exact absurd hb (hempty _)

/-- A call keeps the arena in order. -/
theorem Orderly.performs (ho : Orderly h) (hproper : op.Proper h) (hstays : op.Stays h.alloc)
    (hperforms : op.Performs frames h h') : Orderly h' := by
  cases ho with
  | unset hlive hnone => exact performs_of_unset hlive hnone hproper hstays hperforms
  | crowded hc => exact hc.performs hproper hstays hperforms
  | charted hc => exact hc.performs hproper hstays hperforms

/-- A client that writes to its own block leaves the arena in order. -/
theorem Orderly.write (ho : Orderly h) {b : Block} (hb : b ∈ h.live) {w : ℕ} (hw : w ∈ b.range)
    (v : ℕ) : Orderly ⟨{ h.alloc with mem := store h.alloc.mem w v }, h.live⟩ := by
  cases ho with
  | unset hlive hnone =>
      rw [hlive] at hb
      cases hb
  | crowded hc =>
      obtain ⟨x, hx, rfl⟩ := hc.exists_node hb
      exact .crowded (hc.write hx hw v)
  | charted hc =>
      obtain ⟨x, hx, rfl⟩ := hc.exists_node hb
      obtain ⟨a', hwritten⟩ := hc.write hx hw v
      exact .charted hwritten

/-- A step keeps the arena in order. -/
theorem Orderly.step (ho : Orderly h) (hstep : Proceeds frames h h') : Orderly h' := by
  cases hstep with
  | call op hproper hstays hperforms => exact ho.performs hproper hstays hperforms
  | write hb hw => exact ho.write hb hw _

/-- Along a run the arena stays in order. -/
theorem Orderly.run (ho : Orderly h) (hrun : ReflTransGen (Proceeds frames) h h') : Orderly h' := by
  induction hrun with
  | refl => exact ho
  | tail _ hstep ih => exact ih.step hstep

theorem Orderly.accesses_described (ho : Orderly h) (hproper : op.Proper h) :
    (op.Stays h.alloc → ∀ z ∈ op.accesses frames h.alloc, (op.arena h.alloc).Describes z) ∧
      (0 < frames → ¬ op.Stays h.alloc →
        ∃ z ∈ op.accesses frames h.alloc, ¬ (op.arena h.alloc).Describes z) := by
  cases ho with
  | unset hlive hnone =>
      have hempty : ∀ b, b ∉ h.live := by simp [hlive]
      cases op with
      | kset size offset =>
          have hkset := ksetAccesses_described h.alloc offset hproper.1
          exact ⟨hkset.1, fun _ => hkset.2⟩
      | kmres pointer size =>
          exact ⟨False.elim, fun _ _ => exists_takeSegmentsAccesses_beyond _ _ _⟩
      | kmalloc size => exact absurd hproper (not_fits hnone)
      | kfree pointer =>
          obtain ⟨b, hb, -⟩ := hproper
          exact absurd hb (hempty b)
      | krealloc pointer size => exact absurd hproper.2 (not_fits hnone)
  | crowded hc => exact hc.traced.accesses_described hproper
  | charted hc => exact hc.traced.accesses_described hproper

end

/-- Along every run of calls that stay in the tree, the elements of the next call have
descriptors if it stays in the tree as well, and some element has none if it does not. -/
theorem described_along_run {beyond : ℕ → LevelDescriptor} {mem : Memory} {frames : ℕ} {h : Heap}
    (hrun : ReflTransGen (Proceeds frames) ⟨boot beyond mem, []⟩ h) {op : Operation}
    (hproper : op.Proper h) :
    (op.Stays h.alloc → ∀ z ∈ op.accesses frames h.alloc, (op.arena h.alloc).Describes z) ∧
      (0 < frames → ¬ op.Stays h.alloc →
        ∃ z ∈ op.accesses frames h.alloc, ¬ (op.arena h.alloc).Describes z) := by
  have hstart : Orderly ⟨boot beyond mem, []⟩ := .unset rfl rfl
  exact (hstart.run hrun).accesses_described hproper

/-- A segment requested from a fresh arena. -/
theorem described_along_run_fresh :
    ¬ ∃ z ∈ kmallocAccesses 8 (kset (boot (fun _ => ⟨0, 0⟩) fun _ => 0) 9000 4096) 1000,
      ¬ (kset (boot (fun _ => ⟨0, 0⟩) fun _ => 0) 9000 4096).Describes z := by
  have hunmarked : Unmarked 9000 := Or.inr (by decide)
  have hrun : ReflTransGen (Proceeds 8) ⟨boot (fun _ => ⟨0, 0⟩) fun _ => 0, []⟩
      ⟨kset (boot (fun _ => ⟨0, 0⟩) fun _ => 0) 9000 4096, []⟩ :=
    .single (.call (.kset 9000 4096) ⟨by decide, by decide⟩ hunmarked (.kset 9000 4096))
  have hproper : (Operation.kmalloc 1000).Proper
      ⟨kset (boot (fun _ => ⟨0, 0⟩) fun _ => 0) 9000 4096, []⟩ :=
    ⟨by decide, by decide +kernel⟩
  rintro ⟨z, hz, hbeyond⟩
  exact hbeyond ((described_along_run hrun hproper).1 (Or.inl (by decide +kernel)) z hz)

/-- `kset` marks the last segment of an arena of eight, and its loop goes on to level 4. -/
theorem kset_undescribed :
    (Operation.kset 8192 4096).Proper ⟨boot (fun _ => ⟨0, 0⟩) fun _ => 0, []⟩ ∧
      (⟨4, 0⟩ : Node) ∈
        (Operation.kset 8192 4096).accesses 8 (boot (fun _ => ⟨0, 0⟩) fun _ => 0) ∧
      ¬ ((Operation.kset 8192 4096).arena (boot (fun _ => ⟨0, 0⟩) fun _ => 0)).Describes ⟨4, 0⟩ :=
  ⟨⟨by decide, by decide⟩, by decide +kernel, by decide +kernel⟩

end Neos.Kmalloc
