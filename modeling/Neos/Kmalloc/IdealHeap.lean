import Neos.Kmalloc.Marking
import Neos.Kmalloc.Realloc
import Neos.Library.ByteFiles
import Neos.Library.Simulation

/-!
# The heap a program sees

A program knows its buffers by the pointers it keeps.  As long as it stays inside its
buffers, it cannot tell the allocator from an ideal heap, in which every buffer is a list
of bytes of its own and a request may be refused at any time.
-/

namespace Neos.Kmalloc

open BitMemory BuddyTree ByteRange Relation

/-! ## Programs -/

/-- What a program does with the buffer that it keeps under a name: the calls of the
allocator, and the accesses to a byte. -/
inductive HeapCall (ι : Type)
  | malloc (i : ι) (size : ℕ)
  | free (i : ι) (k : ℕ)
  | realloc (i : ι) (size : ℕ)
  | sizeOf (i : ι) (k : ℕ)
  | read (i : ι) (k : ℕ)
  | write (i : ι) (k v : ℕ)

/-- The allocator, and the pointers that the program keeps. -/
structure Pointers (ι : Type) where
  alloc : Allocator
  pointer : ι → ℕ

variable {ι : Type} [DecidableEq ι]

/-- A call with a pointer.  A request tells whether it was granted. -/
def Pointers.call (frames : ℕ) (c : Pointers ι) : HeapCall ι → Option (ℕ × Pointers ι)
  | .malloc i size => do
      let (r, s) ← kmalloc frames c.alloc size
      return (if r = 0 then 0 else 1, ⟨s, Function.update c.pointer i r⟩)
  | .free i k => some (0, ⟨kfree c.alloc (c.pointer i + k), Function.update c.pointer i 0⟩)
  | .realloc i size => do
      let (r, s) ← krealloc frames c.alloc (c.pointer i) size
      return (if r = 0 then 0 else 1, ⟨s, Function.update c.pointer i r⟩)
  | .sizeOf i k => (kmsz c.alloc (c.pointer i + k)).map fun z => (z, c)
  | .read i k => some (load c.alloc.mem (c.pointer i + k), c)
  | .write i k v =>
      some (0, { c with alloc :=
        { c.alloc with mem := store c.alloc.mem (c.pointer i + k) v } })

/-! ## The ideal heap -/

/-- The buffers that a program has. -/
abbrev IdealHeap (ι : Type) := ι → Option (List UInt8)

/-- What a call does in the ideal heap, with the answers that it may give.  A buffer that
is granted has arbitrary bytes, and one that grows keeps those that it has; when it cannot
grow, it is gone. -/
inductive IdealHeap.Step (t : IdealHeap ι) : HeapCall ι → ℕ → IdealHeap ι → Prop
  | refused {i : ι} {size : ℕ} : Step t (.malloc i size) 0 (Function.update t i none)
  | granted {i : ι} {size : ℕ} {bs : List UInt8} (hsize : size ≤ bs.length) :
      Step t (.malloc i size) 1 (Function.update t i (some bs))
  | freed {i : ι} {k : ℕ} : Step t (.free i k) 0 (Function.update t i none)
  | dropped {i : ι} {size : ℕ} {bs : List UInt8} (h : t i = some bs) (hsize : bs.length < size) :
      Step t (.realloc i size) 0 (Function.update t i none)
  | grown {i : ι} {size : ℕ} {bs more : List UInt8} (h : t i = some bs)
      (hsize : size ≤ (bs ++ more).length) (hstay : size ≤ bs.length → more = []) :
      Step t (.realloc i size) 1 (Function.update t i (some (bs ++ more)))
  | sized {i : ι} {k : ℕ} {bs : List UInt8} (h : t i = some bs) : Step t (.sizeOf i k) bs.length t
  | read {i : ι} {k : ℕ} {bs : List UInt8} (h : t i = some bs) :
      Step t (.read i k) (bs.getD k 0).toNat t
  | written {i : ι} {k v : ℕ} {bs : List UInt8} (h : t i = some bs) :
      Step t (.write i k v) 0 (Function.update t i (some (bs.set k (UInt8.ofNat v))))

/-- A program requests between one byte and the capacity of the arena, and uses addresses
inside its buffers. -/
def IdealHeap.Needs (capacity : ℕ) (t : IdealHeap ι) : HeapCall ι → Prop
  | .malloc _ size => 1 ≤ size ∧ size < 2 ^ 32 ∧ size ≤ capacity
  | .realloc i size => (∃ bs, t i = some bs) ∧ 1 ≤ size ∧ size < 2 ^ 32 ∧ size ≤ capacity
  | .free i k | .sizeOf i k | .read i k | .write i k _ => ∃ bs, t i = some bs ∧ k < bs.length

/-! ## Buffers in the memory -/

/-- Every buffer is a live block with its bytes.  Other live blocks may belong to
others. -/
structure Represents (fixed : Set Node) (s : Allocator) (c : Pointers ι) (t : IdealHeap ι)
    (live : List Block) (a : Holding) : Prop where
  same : Same s c.alloc
  tracked : Tracked fixed ⟨c.alloc, live⟩ a
  live : ∀ i bs, t i = some bs → ⟨c.pointer i, bs.length⟩ ∈ live
  apart : ∀ i j bs bs', i ≠ j → t i = some bs → t j = some bs' → c.pointer i ≠ c.pointer j
  bytes : ∀ i bs, t i = some bs → bs = readBytes c.alloc.mem (c.pointer i) bs.length

section

variable {fixed : Set Node} {s s' : Allocator} {h : Heap} {a a' : Holding} {c : Pointers ι}
  {t : IdealHeap ι} {live live' : List Block} {frames r : ℕ} {i : ι} {b b' : Block}
  {bs : List UInt8}

theorem Tracked.start_mem (ht : Tracked fixed h a) (hb : b ∈ h.live) : b.start ∈ b.range := by
  obtain ⟨x, -, rfl⟩ := ht.invariant.simulates.exists_node hb
  exact start_mem_range h.alloc x

/-- Live blocks that begin at the same address are the same. -/
theorem Tracked.eq_of_start (ht : Tracked fixed h a) (hb : b ∈ h.live) (hb' : b' ∈ h.live)
    (heq : b.start = b'.start) : b = b' := by
  have hz := ht.kmsz_eq hb (ht.start_mem hb)
  have hz' := ht.kmsz_eq hb' (ht.start_mem hb')
  rw [heq, hz'] at hz
  exact Block.ext heq (Option.some_inj.mp hz).symm

theorem Tracked.inside (ht : Tracked fixed h a) (hb : b ∈ h.live) {q : ℕ} (hq : q ∈ b.range) :
    lowEnd ≤ q ∧ q < h.alloc.offset + h.alloc.end_ ∧ q < 2 ^ 32 := by
  obtain ⟨x, hx, rfl⟩ := ht.invariant.simulates.exists_node hb
  obtain ⟨hlow, hhigh⟩ := ht.block_inside hx hq
  have hfits := ht.invariant.layout.fits
  have hend := ht.invariant.layout.end_eq
  have hpos := Nat.two_pow_pos (h.alloc.maxTreeLevel - 1)
  exact ⟨hlow, hhigh, by omega⟩

/-- A live block that is freed leaves the bytes of the arena alone. -/
theorem Tracked.free_confined (ht : Tracked fixed h a) (hb : b ∈ h.live) {q : ℕ}
    (hq : q ∈ b.range) : Confined h.alloc (kfree h.alloc q) := by
  obtain ⟨x, hx, rfl⟩ := ht.invariant.simulates.exists_node hb
  exact ht.invariant.layout.kfree_confined
    ((ht.invariant.segmentOf_le hx hq).trans (ht.invariant.held_le_root hx))

/-- A step of the clients keeps track. -/
theorem Tracked.step (ht : Tracked fixed h a) {h' : Heap} (hs : Step frames h h') :
    ∃ a', Tracked fixed h' a' ∧ Same h.alloc h'.alloc := by
  obtain ⟨a', ha'⟩ := ht.invariant.step hs
  exact ⟨a', ht.advance ha', ha'.same⟩

/-- `krealloc` of a live block returns. -/
theorem Tracked.krealloc (ht : Tracked fixed h a) (hdeep : h.alloc.maxTreeLevel < frames)
    (hb : b ∈ h.live) {n : ℕ} (hsize : h.alloc.Serves n) :
    ∃ r s', Kmalloc.krealloc frames h.alloc b.start n = some (r, s') ∧
      Reallocated frames h b n r s' := by
  obtain ⟨x, hx, hxb⟩ := ht.invariant.simulates.exists_node hb
  have hl := ht.areaLevel_eq hx (start_mem_range h.alloc x)
  have hconf := ht.free_confined hb (ht.start_mem hb)
  have hmalloc := (ht.invariant.layout.same hconf.same).kmalloc_returns
    (hconf.same.maxTreeLevel_eq.trans_lt hdeep) (hconf.same.serves hsize)
  rw [hxb] at hl
  obtain ⟨r, s', hcall⟩ := krealloc_returns hl hmalloc
  refine ⟨r, s', hcall, ?_⟩
  rcases Nat.lt_or_ge b.size (reservedSize n) with hfit | hfit
  · exact ht.krealloc_moves hb hsize hfit hcall
  · exact ht.krealloc_stays hb hsize hfit hcall

/-- A call on one buffer leaves the others what they are. -/
theorem Represents.update (h : Represents fixed s c t live a) (hsame : Same c.alloc s')
    (ht : Tracked fixed ⟨s', live'⟩ a') {own : Option (List UInt8)}
    (hothers : ∀ j bs, j ≠ i → t j = some bs → ⟨c.pointer j, bs.length⟩ ∈ live' ∧
      ∀ q ∈ (⟨c.pointer j, bs.length⟩ : Block).range, s'.mem q = c.alloc.mem q)
    (hown : ∀ bs, own = some bs → ⟨r, bs.length⟩ ∈ live' ∧ bs = readBytes s'.mem r bs.length ∧
      ∀ j bs', j ≠ i → t j = some bs' → r ≠ c.pointer j) :
    Represents fixed s ⟨s', Function.update c.pointer i r⟩ (Function.update t i own) live' a' := by
  refine ⟨h.same.trans hsame, ht, ?_, ?_, ?_⟩
  · intro j bs hj
    dsimp only
    by_cases hji : j = i
    · subst hji
      rw [Function.update_self] at hj ⊢
      exact (hown bs hj).1
    · rw [Function.update_of_ne hji] at hj ⊢
      exact (hothers j bs hji hj).1
  · intro j k bs bs' hjk hj hk
    dsimp only
    by_cases hji : j = i
    · subst hji
      rw [Function.update_self] at hj
      rw [Function.update_of_ne (Ne.symm hjk)] at hk
      rw [Function.update_self, Function.update_of_ne (Ne.symm hjk)]
      exact (hown bs hj).2.2 k bs' (Ne.symm hjk) hk
    · rw [Function.update_of_ne hji] at hj ⊢
      by_cases hki : k = i
      · subst hki
        rw [Function.update_self] at hk ⊢
        exact ((hown bs' hk).2.2 j bs hji hj).symm
      · rw [Function.update_of_ne hki] at hk ⊢
        exact h.apart j k bs bs' hjk hj hk
  · intro j bs hj
    dsimp only
    by_cases hji : j = i
    · subst hji
      rw [Function.update_self] at hj ⊢
      exact (hown bs hj).2.1
    · rw [Function.update_of_ne hji] at hj ⊢
      have hbytes := h.bytes j bs hj
      have hsame := (hothers j bs hji hj).2
      have hcongr : readBytes s'.mem (c.pointer j) bs.length =
          readBytes c.alloc.mem (c.pointer j) bs.length := by
        apply readBytes_congr
        intro k hk
        exact hsame _ ⟨Nat.le_add_right _ _, Nat.add_lt_add_left hk _⟩
      rw [hcongr]
      exact hbytes

theorem Tracked.mem_eq (ht : Tracked fixed h a) (hc : Confined h.alloc s') (hb : b ∈ h.live) {q : ℕ}
    (hq : q ∈ b.range) : s'.mem q = h.alloc.mem q := by
  obtain ⟨hlow, hhigh, -⟩ := ht.inside hb hq
  exact hc.mem_eq q hlow hhigh

omit [DecidableEq ι] in
/-- Without the block of one buffer, the blocks of the others are there. -/
theorem Represents.mem_erase (h : Represents fixed s c t live a) (hi : t i = some bs) {j : ι}
    {bs' : List UInt8} (hji : j ≠ i) (hj : t j = some bs') :
    ⟨c.pointer j, bs'.length⟩ ∈ live.erase ⟨c.pointer i, bs.length⟩ := by
  have hne : (⟨c.pointer j, bs'.length⟩ : Block) ≠ ⟨c.pointer i, bs.length⟩ := fun heq =>
    h.apart j i bs' bs hji hj hi (congrArg Block.start heq)
  exact (List.mem_erase_of_ne hne).mpr (h.live j bs' hj)

theorem Tracked.disjoint (ht : Tracked fixed h a) (hb : b ∈ h.live) (hb' : b' ∈ h.live)
    (hne : b ≠ b') : Disjoint b.range b'.range := by
  have hsymm : Std.Symm fun b c : Block => Disjoint b.range c.range := ⟨fun _ _ h => h.symm⟩
  exact ht.invariant.separated.disjoint.forall hb hb' hne

/-- A new block begins where no other live block begins. -/
theorem Tracked.start_ne (ht : Tracked fixed ⟨s', b :: live⟩ a) (hb' : b' ∈ live) :
    b.start ≠ b'.start := by
  intro heq
  have hdisj := (List.pairwise_cons.mp ht.invariant.separated.disjoint).1 b' hb'
  have hstart := ht.start_mem (List.mem_cons_self (a := b))
  have hstart' := ht.start_mem (List.mem_cons_of_mem b hb')
  exact Set.disjoint_left.mp hdisj (heq ▸ hstart) hstart'

/-! ## The calls -/

theorem Represents.malloc (h : Represents fixed s c t live a) (hdeep : s.maxTreeLevel < frames)
    {n : ℕ} (hsize : s.Serves n) :
    ∃ answer c' t' live' a', c.call frames (.malloc i n) = some (answer, c') ∧
      IdealHeap.Step t (.malloc i n) answer t' ∧ Represents fixed s c' t' live' a' := by
  have hserves := h.same.serves hsize
  have hmax := h.same.maxTreeLevel_eq.trans_lt hdeep
  obtain ⟨r, s', hcall⟩ := h.tracked.invariant.layout.kmalloc_returns hmax hserves
  have hconf := h.tracked.invariant.layout.kmalloc_confined hserves hcall
  obtain ⟨a', ht', -⟩ := h.tracked.step (.malloc hserves hcall)
  have hkept : ∀ j bs, j ≠ i → t j = some bs → ∀ q ∈ (⟨c.pointer j, bs.length⟩ : Block).range,
      s'.mem q = c.alloc.mem q :=
    fun j bs _ hj q hq => h.tracked.mem_eq hconf (h.live j bs hj) hq
  have hperform : c.call frames (.malloc i n) =
      some (if r = 0 then 0 else 1, ⟨s', Function.update c.pointer i r⟩) := by
    rw [Pointers.call, hcall]
    rfl
  by_cases hr : r = 0
  · rw [if_pos hr] at hperform
    rw [grant, if_pos hr] at ht'
    refine ⟨_, _, _, live, a', hperform, .refused, h.update hconf.same ht' ?_ ?_⟩
    · exact fun j bs hji hj => ⟨h.live j bs hj, hkept j bs hji hj⟩
    · exact fun bs hnone => absurd hnone.symm (Option.some_ne_none bs)
  · rw [if_neg hr] at hperform
    rw [grant, if_neg hr] at ht'
    have hlen : (readBytes s'.mem r (reservedSize n)).length = reservedSize n :=
      length_readBytes _ _ _
    refine ⟨_, _, _, _, a', hperform, .granted (hlen ▸ le_reservedSize n),
      h.update hconf.same ht' ?_ ?_⟩
    · exact fun j bs hji hj => ⟨List.mem_cons_of_mem _ (h.live j bs hj), hkept j bs hji hj⟩
    · rintro bs ⟨⟩
      rw [hlen]
      refine ⟨List.mem_cons_self, rfl, ?_⟩
      exact fun j bs' _ hj => ht'.start_ne (h.live j bs' hj)

theorem Represents.free (h : Represents fixed s c t live a) {k : ℕ} (hi : t i = some bs)
    (hk : k < bs.length) :
    ∃ answer c' t' live' a', c.call frames (.free i k) = some (answer, c') ∧
      IdealHeap.Step t (.free i k) answer t' ∧ Represents fixed s c' t' live' a' := by
  have hmem : c.pointer i + k ∈ (⟨c.pointer i, bs.length⟩ : Block).range :=
    ⟨Nat.le_add_right _ _, Nat.add_lt_add_left hk _⟩
  have hb := h.live i bs hi
  have hconf := h.tracked.free_confined hb hmem
  have hstep : Step frames ⟨c.alloc, live⟩ ⟨kfree c.alloc (c.pointer i + k), _⟩ := .free hb hmem
  obtain ⟨a', ht', -⟩ := h.tracked.step hstep
  refine ⟨0, _, _, _, a', rfl, .freed, h.update hconf.same ht' ?_ ?_⟩
  · intro j bs' hji hj
    exact ⟨h.mem_erase hi hji hj, fun q hq => h.tracked.mem_eq hconf (h.live j bs' hj) hq⟩
  · exact fun bs hnone => absurd hnone.symm (Option.some_ne_none bs)

theorem Represents.sizeOf (h : Represents fixed s c t live a) {k : ℕ} (hi : t i = some bs)
    (hk : k < bs.length) : c.call frames (.sizeOf i k) = some (bs.length, c) := by
  have hmem : c.pointer i + k ∈ (⟨c.pointer i, bs.length⟩ : Block).range :=
    ⟨Nat.le_add_right _ _, Nat.add_lt_add_left hk _⟩
  rw [Pointers.call, h.tracked.kmsz_eq (h.live i bs hi) hmem]
  rfl

theorem Represents.read (h : Represents fixed s c t live a) {k : ℕ} (hi : t i = some bs)
    (hk : k < bs.length) : c.call frames (.read i k) = some ((bs.getD k 0).toNat, c) := by
  have hmem : c.pointer i + k ∈ (⟨c.pointer i, bs.length⟩ : Block).range :=
    ⟨Nat.le_add_right _ _, Nat.add_lt_add_left hk _⟩
  obtain ⟨-, -, hlt⟩ := h.tracked.inside (h.live i bs hi) hmem
  rw [Pointers.call, load, wrap_of_lt hlt, h.bytes i bs hi, getD_readBytes _ _ hk]

omit [DecidableEq ι] in
/-- A byte that is stored in a range replaces one in the list. -/
theorem readBytes_store (m : Memory) {p n k : ℕ} (hk : k < n) (hfits : p + n ≤ 2 ^ 32) (v : ℕ) :
    readBytes (store m (p + k) v) p n = (readBytes m p n).set k (UInt8.ofNat v) := by
  apply List.ext_getElem?
  intro j
  rw [List.getElem?_set, ByteFile.getElem?_readBytes, ByteFile.getElem?_readBytes,
    length_readBytes, if_pos hk]
  by_cases hj : j < n
  · rw [if_pos hj, store, wrap_of_lt (by omega)]
    by_cases hkj : k = j
    · rw [if_pos (by omega), if_pos hkj]
    · rw [if_neg (by omega), if_neg hkj, if_pos hj]
  · rw [if_neg hj, if_neg (by omega), if_neg hj]

theorem Represents.write (h : Represents fixed s c t live a) {k : ℕ} (v : ℕ) (hi : t i = some bs)
    (hk : k < bs.length) :
    ∃ answer c' t' live' a', c.call frames (.write i k v) = some (answer, c') ∧
      IdealHeap.Step t (.write i k v) answer t' ∧ Represents fixed s c' t' live' a' := by
  have hmem : c.pointer i + k ∈ (⟨c.pointer i, bs.length⟩ : Block).range :=
    ⟨Nat.le_add_right _ _, Nat.add_lt_add_left hk _⟩
  have hlast : c.pointer i + (bs.length - 1) ∈ (⟨c.pointer i, bs.length⟩ : Block).range :=
    ⟨Nat.le_add_right _ _, Nat.add_lt_add_left (show bs.length - 1 < bs.length by omega) _⟩
  have hb := h.live i bs hi
  obtain ⟨-, -, hlt⟩ := h.tracked.inside hb hmem
  have hfits : c.pointer i + bs.length ≤ 2 ^ 32 := by
    obtain ⟨-, -, hend⟩ := h.tracked.inside hb hlast
    omega
  have hstep : Step frames ⟨c.alloc, live⟩
      ⟨{ c.alloc with mem := store c.alloc.mem (c.pointer i + k) v }, live⟩ := .write hb hmem
  obtain ⟨a', ht', -⟩ := h.tracked.step hstep
  have hrepr : Represents fixed s
      ⟨{ c.alloc with mem := store c.alloc.mem (c.pointer i + k) v },
        Function.update c.pointer i (c.pointer i)⟩
      (Function.update t i (some (bs.set k (UInt8.ofNat v)))) live a' := by
    refine h.update ⟨_, rfl⟩ ht' ?_ ?_
    · intro j bs' hji hj
      refine ⟨h.live j bs' hj, fun q hq => store_of_ne ?_⟩
      have hne : (⟨c.pointer j, bs'.length⟩ : Block) ≠ ⟨c.pointer i, bs.length⟩ := fun heq =>
        h.apart j i bs' bs hji hj hi (congrArg Block.start heq)
      rintro rfl
      rw [wrap_of_lt hlt] at hq
      exact Set.disjoint_left.mp (h.tracked.disjoint (h.live j bs' hj) hb hne) hq hmem
    · rintro _ ⟨⟩
      rw [List.length_set]
      refine ⟨hb, ?_, fun j bs' hji hj => h.apart i j bs bs' (Ne.symm hji) hi hj⟩
      dsimp only
      rw [readBytes_store _ hk hfits, ← h.bytes i bs hi]
  rw [Function.update_eq_self] at hrepr
  exact ⟨0, _, _, live, a', rfl, .written hi, hrepr⟩

/-- Growing a block. -/
theorem Represents.realloc (h : Represents fixed s c t live a) (hdeep : s.maxTreeLevel < frames)
    {n : ℕ} (hi : t i = some bs) (hsize : s.Serves n) :
    ∃ answer c' t' live' a', c.call frames (.realloc i n) = some (answer, c') ∧
      IdealHeap.Step t (.realloc i n) answer t' ∧ Represents fixed s c' t' live' a' := by
  have hb := h.live i bs hi
  have hserves := h.same.serves hsize
  obtain ⟨r, s', hcall, hspec⟩ :=
    h.tracked.krealloc (h.same.maxTreeLevel_eq.trans_lt hdeep) hb hserves
  have hothers : ∀ j bs', j ≠ i → t j = some bs' → ⟨c.pointer j, bs'.length⟩ ∈
      live.erase ⟨c.pointer i, bs.length⟩ := fun j bs' hji hj => h.mem_erase hi hji hj
  have hkept : ∀ j bs', j ≠ i → t j = some bs' →
      ∀ q ∈ (⟨c.pointer j, bs'.length⟩ : Block).range, s'.mem q = c.alloc.mem q :=
    fun j bs' hji hj => hspec.others _ (hothers j bs' hji hj)
  have hperform : c.call frames (.realloc i n) =
      some (if r = 0 then 0 else 1, ⟨s', Function.update c.pointer i r⟩) := by
    rw [Pointers.call, hcall]
    rfl
  rcases hspec.outcome with ⟨hr, -, hstep, -⟩ | ⟨hr, size, hle, hstep, -, hbytes⟩
  · rw [if_pos hr] at hperform
    obtain ⟨a', ht', hsame⟩ := h.tracked.step hstep
    have hlt : bs.length < n := by
      by_contra hge
      have hstart := (hspec.stays (Nat.le_of_not_lt hge)).1
      have hlow := (h.tracked.inside hb (h.tracked.start_mem hb)).1
      rw [← hstart, hr] at hlow
      exact absurd hlow (by decide)
    refine ⟨_, _, _, _, a', hperform, .dropped hi hlt, h.update hsame ht' ?_ ?_⟩
    · exact fun j bs' hji hj => ⟨hothers j bs' hji hj, hkept j bs' hji hj⟩
    · exact fun bs hnone => absurd hnone.symm (Option.some_ne_none bs)
  · rw [if_neg hr] at hperform
    obtain ⟨a', ht', hsame⟩ := h.tracked.step hstep
    have hmem : (⟨r, size⟩ : Block) ∈ (⟨r, size⟩ : Block) :: live.erase ⟨c.pointer i, bs.length⟩ :=
      List.mem_cons_self
    -- a block that suffices is the same block
    have hstays : n ≤ bs.length → size = bs.length := by
      intro hn
      obtain ⟨rfl, rfl⟩ := hspec.stays hn
      have hz := h.tracked.kmsz_eq hb (h.tracked.start_mem hb)
      have hz' := ht'.kmsz_eq hmem (ht'.start_mem hmem)
      exact Option.some_inj.mp (hz'.symm.trans hz)
    have hgrown : bs.length ≤ size := by
      by_cases hn : n ≤ bs.length
      · exact (hstays hn).ge
      · omega
    obtain ⟨more, hsplit, hstay⟩ : ∃ more, readBytes s'.mem r size = bs ++ more ∧
        (n ≤ bs.length → more = []) := by
      have hprefix : readBytes s'.mem r bs.length = bs := by
        rw [readBytes_congr hbytes]
        exact (h.bytes i bs hi).symm
      refine ⟨readBytes s'.mem (r + bs.length) (size - bs.length), ?_, fun hn => ?_⟩
      · conv_lhs => rw [← Nat.add_sub_cancel' hgrown, readBytes_add, hprefix]
      · rw [hstays hn, Nat.sub_self]
        rfl
    have hlen : (bs ++ more).length = size := by rw [← hsplit, length_readBytes]
    refine ⟨_, _, _, _, a', hperform, .grown hi (hlen ▸ hle) hstay, h.update hsame ht' ?_ ?_⟩
    · exact fun j bs' hji hj => ⟨List.mem_cons_of_mem _ (hothers j bs' hji hj), hkept j bs' hji hj⟩
    · rintro _ ⟨⟩
      rw [hlen]
      exact ⟨hmem, hsplit.symm, fun j bs' hji hj => ht'.start_ne (hothers j bs' hji hj)⟩

/-! ## Whole programs -/

/-- The allocator is an ideal heap for a program that stays inside its buffers. -/
theorem conforms (hdeep : s.maxTreeLevel < frames) :
    Simulation.Conforms (Pointers.call frames) IdealHeap.Step
      (IdealHeap.Needs ((s.treeLevels 0).size * blockSize))
      fun (c : Pointers ι) t => ∃ live a, Represents fixed s c t live a := by
  rintro c t call ⟨live, a, h⟩ hneeds
  have hresult : ∃ answer c' t' live' a', c.call frames call = some (answer, c') ∧
      IdealHeap.Step t call answer t' ∧ Represents fixed s c' t' live' a' := by
    cases call with
    | malloc i n => exact h.malloc hdeep hneeds
    | free i k =>
        obtain ⟨bs, hi, hk⟩ := hneeds
        exact h.free hi hk
    | realloc i n =>
        obtain ⟨⟨bs, hi⟩, hsize⟩ := hneeds
        exact h.realloc hdeep hi hsize
    | sizeOf i k =>
        obtain ⟨bs, hi, hk⟩ := hneeds
        exact ⟨_, c, t, live, a, h.sizeOf hi hk, .sized hi, h⟩
    | read i k =>
        obtain ⟨bs, hi, hk⟩ := hneeds
        exact ⟨_, c, t, live, a, h.read hi hk, .read hi, h⟩
    | write i k v =>
        obtain ⟨bs, hi, hk⟩ := hneeds
        exact h.write v hi hk
  obtain ⟨answer, c', t', live', a', hcall, hstep, hrepr⟩ := hresult
  exact ⟨answer, c', t', hcall, hstep, live', a', hrepr⟩

omit [DecidableEq ι] in
/-- A program begins without buffers. -/
theorem Prepared.represents (hp : Prepared s) :
    ∃ fixed a, Represents fixed s (⟨s, fun _ => 0⟩ : Pointers ι) (fun _ => none) [] a := by
  obtain ⟨fixed, a, ht⟩ := hp.tracked (.refl : ReflTransGen (Step 0) ⟨s, []⟩ ⟨s, []⟩)
  exact ⟨fixed, a, Same.refl s, ht, nofun, nofun, nofun⟩

/-- On every prepared arena a program runs to its end and ensures what it ensures on the
ideal heap, if it stays inside its buffers there. -/
theorem perform_ensures (hp : Prepared s) (hdeep : s.maxTreeLevel < frames) {δ : Type}
    {Post : δ → IdealHeap ι → Prop} {program : Simulation.Plan (HeapCall ι) ℕ δ}
    (hprogram : program.Ensures IdealHeap.Step
      (IdealHeap.Needs ((s.treeLevels 0).size * blockSize)) Post fun _ => none) :
    ∃ d c t, program.perform (Pointers.call frames) ⟨s, fun _ => 0⟩ = some (d, c) ∧ Post d t ∧
      ∀ i bs, t i = some bs → bs = readBytes c.alloc.mem (c.pointer i) bs.length := by
  obtain ⟨fixed, a, hstart⟩ := hp.represents (ι := ι)
  obtain ⟨d, c, t, hperform, hpost, live, a', h⟩ :=
    (conforms hdeep).perform program ⟨[], a, hstart⟩ hprogram
  exact ⟨d, c, t, hperform, hpost, h.bytes⟩

end

/-- A program that writes a byte, grows its buffer and reads the byte. -/
def growing : Simulation.Plan (HeapCall Unit) ℕ ℕ :=
  .call (.malloc () 100) fun granted =>
    if granted = 0 then .answer 0
    else .call (.write () 3 65) fun _ =>
      .call (.realloc () 2000) fun granted =>
        if granted = 0 then .answer 0 else .call (.read () 3) .answer

/-- The byte is still there. -/
theorem perform_ensures_growing : ∃ d c, ∃ t : IdealHeap Unit,
    growing.perform (Pointers.call 64) ⟨smallArena, fun _ => 0⟩ = some (d, c) ∧
      (d = 0 ∨ d = 65) ∧
      ∀ i bs, t i = some bs → bs = readBytes c.alloc.mem (c.pointer i) bs.length := by
  have hcapacity : (smallArena.treeLevels 0).size * blockSize = 8192 := by decide +kernel
  apply perform_ensures smallArena_prepared (by decide +kernel)
  rw [hcapacity]
  refine ⟨⟨by decide, by decide, by decide⟩, ?_⟩
  intro b₁ t₁ h₁
  cases h₁ with
  | refused => exact .inl rfl
  | granted hsize =>
      refine ⟨⟨_, rfl, by omega⟩, ?_⟩
      intro b₂ t₂ h₂
      cases h₂ with
      | written hbs =>
          refine ⟨⟨⟨_, rfl⟩, by decide, by decide, by decide⟩, ?_⟩
          intro b₃ t₃ h₃
          cases h₃ with
          | dropped => exact .inl rfl
          | @grown _ _ bs more hbs' hsize' hstay =>
              cases hbs
              cases hbs'
              refine ⟨⟨_, rfl, by omega⟩, ?_⟩
              intro b₄ t₄ h₄
              cases h₄ with
              | read hread =>
                  cases hread
                  right
                  rw [List.getD_append _ _ _ _ (by rw [List.length_set]; omega), List.getD_eq_getElem?_getD,
                    List.getElem?_set_self (by omega)]
                  rfl

end Neos.Kmalloc
