import Neos.Procfs.Listing
import Neos.Procfs.Names

/-!
# The position in a node

`procfs_seek` sets the position of an open node to any value; `procfs_read` and
`procfs_list` go on from it.  The number of bytes left is a difference of signed
numbers.  Behind the end it is negative, and so is the number of bytes copied:
nothing reaches the buffer, the position goes back, and the caller is told a
negative count or, where it is divided by the size of an entry, a huge one.
-/

namespace Neos.Procfs

open Vfs Scheduler Syscall

variable {E : Type}

/-! ## The calls -/

/-- How a listing lies in memory, and the sixteen characters into which an id is
printed; what is not written keeps what the memory held. -/
structure Images (E : Type) where
  entries : E → List VEntry → List UInt8
  number : E → ℤ → List UInt8
  length_entries : ∀ rest listed, (entries rest listed).length = vEntrySize * listed.length
  length_number : ∀ rest pid, (number rest pid).length = 16
  number_prefix : ∀ rest pid, pidName pid ++ [0] <+: number rest pid

/-- What the driver is given: the heap, the images, the mount tree for tracing a
path, and a descriptor no one has written to. -/
structure Context (E : Type) where
  heap : Surroundings E
  images : Images E
  mounts : Mounts (ProcWorld E)
  lookup : Lookup (ProcWorld E)
  descriptor : ProcessDescriptor

/-- What a call leaves behind: its result, the bytes in the buffer and the world. -/
structure Copied (E : Type) where
  result : ℤ
  bytes : List UInt8
  world : ProcWorld E

/-- `proc_sread` with the bytes it copies. -/
def sread (outputSize fileSize : ℤ) (data : List UInt8) (vref : VRef) (w : ProcWorld E) : Copied E :=
  let state := w.states vref.state
  let copied := procSread outputSize fileSize state
  { result := copied.1
    bytes := (data.drop (readOffset state).toNat).take copied.1.toNat
    world := w.put vref.state copied.2 }

/-- `vfs_trace` of the reference in a process, into a buffer of the given size. -/
def readPath (c : Context E) (ref : ProcessDescriptor → VRef) (vref : VRef) (size : ℕ)
    (w : ProcWorld E) : Option (Copied E) := do
  let process := (schedulerLoadProcessInfo w.table c.descriptor (w.states vref.state).pid).2
  let traced ← vfsTrace c.mounts c.lookup (ref process) (toInt size).toNat w
  some ⟨0, traced.1 ++ [0], traced.2⟩

/-- `procfs_read`. -/
def procfsRead (c : Context E) (vref : VRef) (size : ℕ) (w : ProcWorld E) : Option (Copied E) :=
  match (w.states vref.state).node with
  | .cwd => readPath c ProcessDescriptor.cwd vref size w
  | .exe => readPath c ProcessDescriptor.exe vref size w
  | .self => some (sread (toInt size) 16 (c.images.number w.rest (w.states vref.state).pid) vref w)
  | _ => some ⟨-linuxEinval, [], w⟩

/-- `SEEK_SET`. -/
def seekSet : ℤ := 0

/-- `SEEK_CUR`. -/
def seekCur : ℤ := 1

/-- `procfs_seek`. -/
def procfsSeekWhence (vref : VRef) (offset whence : ℤ) (w : ProcWorld E) : Copied E :=
  let state := w.states vref.state
  if whence = seekSet then ⟨offset, [], w.put vref.state { state with offset := offset }⟩
  else if whence = seekCur then
    let moved := wrapInt (state.offset + offset)
    ⟨moved, [], w.put vref.state { state with offset := moved }⟩
  else ⟨-linuxEinval, [], w⟩

/-- Copy entries out of a listing; the quotient is unsigned. -/
def listEntries (c : Context E) (entries : List VEntry) (vref : VRef) (max : ℤ) (w : ProcWorld E) :
    Copied E :=
  let copied := sread (wrapInt (max * vEntrySize)) (wrapInt (vEntrySize * entries.length))
    (c.images.entries w.rest entries) vref w
  { copied with result := toInt (toWord copied.result / vEntrySize) }

/-- `procfs_list` with room for `max` entries. -/
def procfsListMax (c : Context E) (vref : VRef) (max : ℤ) (w : ProcWorld E) : Copied E :=
  match (w.states vref.state).node with
  | .root =>
      let block := c.heap.kmalloc w.rest
      let listed := listEntries c (rootEntries w.table) vref max { w with rest := block.2 }
      { listed with world := { listed.world with rest := c.heap.kfree block.1 listed.world.rest } }
  | .proc => listEntries c procEntries vref max w
  | .fd => listEntries c fdEntries vref max w
  | _ => ⟨linuxEio, [], w⟩

/-- A call on an open node. -/
inductive NodeCall
  | seek (offset whence : ℤ)
  | read (size : ℕ)
  | list (max : ℤ)

/-- The effect of a call. -/
def NodeCall.run (c : Context E) (vref : VRef) (w : ProcWorld E) : NodeCall → Option (Copied E)
  | .seek offset whence => some (procfsSeekWhence vref offset whence w)
  | .read size => procfsRead c vref size w
  | .list max => some (procfsListMax c vref max w)

/-! ## What a call should do -/

/-- The memory a listing is built in: that of the root is allocated first. -/
def listingRest (c : Context E) (vref : VRef) (w : ProcWorld E) : E :=
  if (w.states vref.state).node = .root then (c.heap.kmalloc w.rest).2 else w.rest

/-- The path of a reference in a process. -/
def pathBytes (c : Context E) (ref : ProcessDescriptor → VRef) (vref : VRef) (w : ProcWorld E) :
    Option (List UInt8) :=
  let process := (schedulerLoadProcessInfo w.table c.descriptor (w.states vref.state).pid).2
  (vfsTrace c.mounts c.lookup (ref process) traceRoom w).map (·.1)

/-- The content of a node that a call reads: a link has characters, a directory
has entries. -/
def nodeContent (c : Context E) (vref : VRef) (w : ProcWorld E) : NodeCall → Option (List UInt8)
  | .seek _ _ => none
  | .read _ =>
      match (w.states vref.state).node with
      | .cwd => pathBytes c ProcessDescriptor.cwd vref w
      | .exe => pathBytes c ProcessDescriptor.exe vref w
      | .self => some (c.images.number w.rest (w.states vref.state).pid)
      | _ => none
  | .list _ =>
      (listing w.table (w.states vref.state).node).map (c.images.entries (listingRest c vref w))

/-- A call that asks for an amount, in units of some bytes, of the data of a node
returns a count within it, copies the bytes at the position and moves the
position behind them.  A negative position is the start. -/
structure Served (unit : ℕ) (requested : ℤ) (data : List UInt8) (state after : ProcState)
    (done : Copied E) : Prop where
  count : done.result = (done.bytes.length / unit : ℕ)
  bounded : done.result ≤ requested
  room : (done.bytes.length : ℤ) ≤ requested * unit
  copied : done.bytes <+: data.drop (readOffset state).toNat
  advanced : after = { state with offset := readOffset state + done.bytes.length }
  ended : (data.length : ℤ) ≤ readOffset state → done.result = 0 ∧ done.bytes = []

/-- A call that a node does not offer returns a negative error and has no effect. -/
structure Refused (state after : ProcState) (done : Copied E) : Prop where
  error : done.result < 0
  nothing : done.bytes = []
  kept : after = state

/-- What a call on a node should do; a seek may do as it likes. -/
def NodeCall.Sound (c : Context E) (vref : VRef) (w : ProcWorld E) (done : Copied E)
    (call : NodeCall) : Prop :=
  let state := w.states vref.state
  let after := done.world.states vref.state
  match call, nodeContent c vref w call with
  | .seek _ _, _ => True
  | .read size, some data => Served 1 size data state after done
  | .list max, some data => Served vEntrySize max data state after done
  | _, none => Refused state after done

/-- The calls that go well: the position is not behind the end, the size of the
buffer is not negative as a number of bytes, and the node is neither a path nor,
for a listing, a link. -/
def NodeCall.Regular (vref : VRef) (w : ProcWorld E) : NodeCall → Prop
  | .seek _ _ => True
  | .read size =>
      match (w.states vref.state).node with
      | .cwd => False
      | .exe => False
      | .self => 0 ≤ toInt size ∧ readOffset (w.states vref.state) ≤ 16
      | _ => True
  | .list max =>
      match listing w.table (w.states vref.state).node with
      | some entries =>
          0 ≤ max ∧ 0 ≤ wrapInt (max * vEntrySize) ∧
            readOffset (w.states vref.state) ≤ wrapInt (vEntrySize * entries.length)
      | none => False

section Calls

variable {c : Context E} {vref : VRef} {w : ProcWorld E}

/-! ## Copying from a position -/

theorem readOffset_nonneg (state : ProcState) : 0 ≤ readOffset state := by
  unfold readOffset
  split <;> omega

/-- The number of bytes `proc_sread` copies, when nothing is negative. -/
theorem sread_length {outputSize fileSize : ℤ} {data : List UInt8} (hdata : fileSize ≤ data.length)
    (hsize : 0 ≤ outputSize) (hpos : readOffset (w.states vref.state) ≤ fileSize) :
    ((sread outputSize fileSize data vref w).bytes.length : ℤ) =
      (sread outputSize fileSize data vref w).result := by
  have hzero := readOffset_nonneg (w.states vref.state)
  unfold sread procSread cMin
  dsimp only
  rw [List.length_take, List.length_drop]
  split <;> omega

/-- From a position up to the end, `proc_sread` copies what is there and moves
the position behind it. -/
theorem sread_served {outputSize fileSize requested : ℤ} {data : List UInt8} {unit : ℕ}
    {result : ℤ} (hdata : fileSize ≤ data.length) (hsize : 0 ≤ outputSize)
    (hpos : readOffset (w.states vref.state) ≤ fileSize)
    (hresult : result =
      ((sread outputSize fileSize data vref w).bytes.length / unit : ℕ))
    (hrequested : outputSize ≤ requested * unit) (hbounded : result ≤ requested) :
    Served unit requested data (w.states vref.state)
      ((sread outputSize fileSize data vref w).world.states vref.state)
      { sread outputSize fileSize data vref w with result := result } := by
  have hlen := sread_length hdata hsize hpos
  have hleft : (sread outputSize fileSize data vref w).result ≤ outputSize ∧
      (sread outputSize fileSize data vref w).result ≤
        fileSize - readOffset (w.states vref.state) := by
    unfold sread procSread cMin
    dsimp only
    split <;> omega
  refine ⟨hresult, hbounded, ?_, List.take_prefix _ _, ?_, fun hend => ?_⟩
  · dsimp only
    omega
  · dsimp only
    rw [hlen]
    exact ProcWorld.put_states_self _ _ _
  · have hnone : (sread outputSize fileSize data vref w).bytes.length = 0 := by omega
    dsimp only
    refine ⟨?_, List.eq_nil_of_length_eq_zero hnone⟩
    rw [hresult, hnone, Nat.zero_div]
    rfl

/-- Where the position is kept or moved forward by the bytes copied, nothing was
negative. -/
theorem sread_regular {outputSize fileSize : ℤ} {data : List UInt8}
    (hmoved : ((sread outputSize fileSize data vref w).world.states vref.state).offset =
      readOffset (w.states vref.state) + (sread outputSize fileSize data vref w).bytes.length) :
    0 ≤ outputSize ∧ readOffset (w.states vref.state) ≤ fileSize := by
  have hput : ((sread outputSize fileSize data vref w).world.states vref.state).offset =
      readOffset (w.states vref.state) +
        cMin (fileSize - readOffset (w.states vref.state)) outputSize := by
    unfold sread
    dsimp only
    rw [ProcWorld.put_states_self]
    rfl
  rw [hput] at hmoved
  unfold cMin at hmoved
  split at hmoved <;> omega

/-! ## One call -/

theorem wrapInt_le {z : ℤ} (h : 0 ≤ z) : wrapInt z ≤ z := by
  rw [wrapInt_eq]
  split <;> omega

/-- A regular listing is served. -/
theorem listEntries_served {entries : List VEntry} {max : ℤ} (hmax : 0 ≤ max)
    (hsize : 0 ≤ wrapInt (max * vEntrySize))
    (hpos : readOffset (w.states vref.state) ≤ wrapInt (vEntrySize * entries.length)) :
    Served vEntrySize max (c.images.entries w.rest entries) (w.states vref.state)
      ((listEntries c entries vref max w).world.states vref.state)
      (listEntries c entries vref max w) := by
  have hdata : wrapInt (vEntrySize * entries.length) ≤
      (c.images.entries w.rest entries).length := by
    rw [c.images.length_entries]
    exact wrapInt_le (Int.mul_nonneg (by decide) (Int.natCast_nonneg _))
  have hlen := sread_length hdata hsize hpos
  have hrange := wrapInt_range (max * vEntrySize)
  have hwithin : wrapInt (max * vEntrySize) ≤ max * vEntrySize :=
    wrapInt_le (Int.mul_nonneg hmax (by decide))
  have hleft : (sread (wrapInt (max * vEntrySize)) (wrapInt (vEntrySize * entries.length))
      (c.images.entries w.rest entries) vref w).result ≤ wrapInt (max * vEntrySize) := by
    unfold sread procSread cMin
    dsimp only
    split <;> omega
  have hquotient : toInt (toWord (sread (wrapInt (max * vEntrySize))
      (wrapInt (vEntrySize * entries.length)) (c.images.entries w.rest entries) vref w).result /
        vEntrySize) = ((sread (wrapInt (max * vEntrySize)) (wrapInt (vEntrySize * entries.length))
          (c.images.entries w.rest entries) vref w).bytes.length / vEntrySize : ℕ) := by
    rw [← hlen, toWord, Int.emod_eq_of_lt (by omega) (by omega), Int.toNat_natCast, toInt_of_lt]
    exact Nat.lt_of_le_of_lt (Nat.div_le_self _ _) (by omega)
  unfold listEntries
  refine sread_served hdata hsize hpos hquotient hwithin ?_
  rw [hquotient]
  unfold vEntrySize at *
  omega

/-- A listing is sound only if it is regular. -/
theorem listEntries_regular {entries : List VEntry} {max : ℤ}
    (h : Served vEntrySize max (c.images.entries w.rest entries) (w.states vref.state)
      ((listEntries c entries vref max w).world.states vref.state)
      (listEntries c entries vref max w)) :
    0 ≤ max ∧ 0 ≤ wrapInt (max * vEntrySize) ∧
      readOffset (w.states vref.state) ≤ wrapInt (vEntrySize * entries.length) := by
  have hnonneg := Int.natCast_nonneg ((listEntries c entries vref max w).bytes.length / vEntrySize)
  rw [← h.count] at hnonneg
  exact ⟨Int.le_trans hnonneg h.bounded, sread_regular (congrArg ProcState.offset h.advanced)⟩

/-- Allocating the listing of the root leaves the state blocks alone. -/
theorem procfsListMax_eq {entries : List VEntry} (max : ℤ)
    (hlisting : listing w.table (w.states vref.state).node = some entries) :
    ∃ rest, procfsListMax c vref max w =
      { listEntries c entries vref max { w with rest := listingRest c vref w } with
        world := { (listEntries c entries vref max
          { w with rest := listingRest c vref w }).world with rest := rest } } := by
  unfold procfsListMax listingRest
  cases hnode : (w.states vref.state).node with
  | root =>
      rw [hnode] at hlisting
      obtain rfl := Option.some.inj hlisting
      exact ⟨_, rfl⟩
  | proc =>
      rw [hnode] at hlisting
      obtain rfl := Option.some.inj hlisting
      exact ⟨(listEntries c procEntries vref max w).world.rest, rfl⟩
  | fd =>
      rw [hnode] at hlisting
      obtain rfl := Option.some.inj hlisting
      exact ⟨(listEntries c fdEntries vref max w).world.rest, rfl⟩
  | exe => rw [hnode] at hlisting; cases hlisting
  | cwd => rw [hnode] at hlisting; cases hlisting
  | self => rw [hnode] at hlisting; cases hlisting

/-- With room for one entry it is the listing the directory calls work with. -/
theorem procfsListMax_one (hfit : ProcessesFit w.table) :
    (procfsListMax c vref 1 w).result = (procfsList c.heap vref w).1 ∧
      (procfsListMax c vref 1 w).world = (procfsList c.heap vref w).2.2 := by
  have hone : ∀ (entries : List VEntry) (w : ProcWorld E), entries.length * vEntrySize < 2 ^ 31 →
      (listEntries c entries vref 1 w).result = (readEntry c.heap entries vref w).1 ∧
        (listEntries c entries vref 1 w).world = (readEntry c.heap entries vref w).2.2 := by
    intro entries w hlength
    have hsize : wrapInt (1 * vEntrySize) = vEntrySize := by decide
    have htotal : wrapInt (vEntrySize * entries.length) = vEntrySize * entries.length := by
      apply wrapInt_of_fits
      · unfold vEntrySize
        omega
      · unfold vEntrySize at hlength ⊢
        omega
    unfold listEntries
    rw [hsize, htotal]
    exact ⟨rfl, rfl⟩
  have hlength : ∀ {entries : List VEntry},
      listing w.table (w.states vref.state).node = some entries →
        entries.length * vEntrySize < 2 ^ 31 := by
    intro entries hlisting
    have := listing_length hfit hlisting
    unfold vEntrySize
    omega
  unfold procfsListMax procfsList
  cases hnode : (w.states vref.state).node with
  | root =>
      rw [hnode] at hlength
      obtain ⟨hresult, hworld⟩ := hone (rootEntries w.table)
        { w with rest := (c.heap.kmalloc w.rest).2 } (hlength rfl)
      exact ⟨hresult, by dsimp only; rw [hworld]⟩
  | proc => exact hone _ w (by rw [hnode] at hlength; exact hlength rfl)
  | fd => exact hone _ w (by rw [hnode] at hlength; exact hlength rfl)
  | exe => exact ⟨rfl, rfl⟩
  | cwd => exact ⟨rfl, rfl⟩
  | self => exact ⟨rfl, rfl⟩

/-- A listing call is sound exactly when it is regular. -/
theorem list_sound_iff (max : ℤ) :
    (NodeCall.list max).Sound c vref w (procfsListMax c vref max w) ↔
      (NodeCall.list max).Regular vref w := by
  unfold NodeCall.Sound NodeCall.Regular nodeContent
  cases hlisting : listing w.table (w.states vref.state).node with
  | none =>
      have hrefused : (procfsListMax c vref max w).result = linuxEio := by
        unfold procfsListMax
        cases hnode : (w.states vref.state).node with
        | root => rw [hnode] at hlisting; cases hlisting
        | proc => rw [hnode] at hlisting; cases hlisting
        | fd => rw [hnode] at hlisting; cases hlisting
        | exe => rfl
        | cwd => rfl
        | self => rfl
      simp only [Option.map_none, iff_false]
      intro h
      have herror := h.error
      rw [hrefused] at herror
      exact absurd herror (by decide)
  | some entries =>
      obtain ⟨rest, heq⟩ := procfsListMax_eq (c := c) max hlisting
      simp only [Option.map_some]
      rw [heq]
      constructor
      · intro h
        exact listEntries_regular (c := c) (w := { w with rest := listingRest c vref w })
          ⟨h.count, h.bounded, h.room, h.copied, h.advanced, h.ended⟩
      · rintro ⟨hmax, hsize, hpos⟩
        obtain ⟨hcount, hbounded, hroom, hcopied, hadvanced, hended⟩ :=
          listEntries_served (c := c) (w := { w with rest := listingRest c vref w }) hmax hsize hpos
        exact ⟨hcount, hbounded, hroom, hcopied, hadvanced, hended⟩

/-- A regular reading call is sound. -/
theorem read_sound {size : ℕ} (hregular : (NodeCall.read size).Regular vref w) {done : Copied E}
    (hdone : procfsRead c vref size w = some done) :
    (NodeCall.read size).Sound c vref w done := by
  unfold NodeCall.Sound nodeContent
  unfold NodeCall.Regular at hregular
  unfold procfsRead at hdone
  cases hnode : (w.states vref.state).node with
  | root =>
      rw [hnode] at hdone
      obtain rfl := Option.some.inj hdone
      exact ⟨show -linuxEinval < 0 by decide, rfl, rfl⟩
  | proc =>
      rw [hnode] at hdone
      obtain rfl := Option.some.inj hdone
      exact ⟨show -linuxEinval < 0 by decide, rfl, rfl⟩
  | fd =>
      rw [hnode] at hdone
      obtain rfl := Option.some.inj hdone
      exact ⟨show -linuxEinval < 0 by decide, rfl, rfl⟩
  | exe => rw [hnode] at hregular; exact absurd hregular not_false
  | cwd => rw [hnode] at hregular; exact absurd hregular not_false
  | self =>
      rw [hnode] at hregular hdone
      obtain ⟨hsize, hpos⟩ := hregular
      obtain rfl := Option.some.inj hdone
      have hdata : (16 : ℤ) ≤ (c.images.number w.rest (w.states vref.state).pid).length := by
        rw [c.images.length_number]
        decide
      have hlen := sread_length hdata hsize hpos
      have hword : toInt size ≤ size := by
        unfold toInt
        split <;> omega
      refine sread_served hdata hsize hpos ?_ (by simpa using hword) ?_
      · rw [Nat.div_one]
        exact hlen.symm
      · refine Int.le_trans ?_ hword
        unfold procSread cMin
        dsimp only
        split <;> omega

end Calls

/-! ## A whole run -/

/-- A call, and what the process table and the memory outside of the state blocks
are when it is made. -/
structure Request (E : Type) where
  table : ProcessTable
  rest : E
  call : NodeCall

/-- Between two calls others may change everything but the state block. -/
def ProcWorld.meanwhile (w : ProcWorld E) (request : Request E) : ProcWorld E :=
  { w with table := request.table, rest := request.rest }

/-- Every call of a run is regular where it is made. -/
def RegularRun (c : Context E) (vref : VRef) : ProcWorld E → List (Request E) → Prop
  | _, [] => True
  | w, request :: requests =>
      request.call.Regular vref (w.meanwhile request) ∧
        ∀ done, request.call.run c vref (w.meanwhile request) = some done →
          RegularRun c vref done.world requests

/-- Every call of a run does what it should do. -/
def SoundRun (c : Context E) (vref : VRef) : ProcWorld E → List (Request E) → Prop
  | _, [] => True
  | w, request :: requests =>
      ∀ done, request.call.run c vref (w.meanwhile request) = some done →
        request.call.Sound c vref (w.meanwhile request) done ∧
          SoundRun c vref done.world requests

theorem call_sound {c : Context E} {vref : VRef} {w : ProcWorld E} {call : NodeCall}
    (hregular : call.Regular vref w) {done : Copied E} (hdone : call.run c vref w = some done) :
    call.Sound c vref w done := by
  cases call with
  | seek offset whence => exact trivial
  | read size => exact read_sound hregular hdone
  | list max =>
      obtain rfl := Option.some.inj hdone
      exact (list_sound_iff max).mpr hregular

/-- Seeks, reads and listings in any order, while the process table changes, are
sound as long as each call is regular. -/
theorem procfs_run_sound (c : Context E) (vref : VRef) (requests : List (Request E)) :
    ∀ w : ProcWorld E, RegularRun c vref w requests → SoundRun c vref w requests := by
  induction requests with
  | nil => exact fun _ _ => trivial
  | cons request requests ih =>
      rintro w ⟨hregular, hrest⟩ done hdone
      exact ⟨call_sound hregular hdone, ih _ (hrest done hdone)⟩

/-- Images that are zero where nothing is written. -/
def clearedImages : Images Unit where
  entries _ listed := List.replicate (vEntrySize * listed.length) 0
  number _ pid := pidName pid ++ List.replicate (16 - (pidName pid).length) 0
  length_entries _ _ := List.length_replicate
  length_number _ pid := by
    have := (pidName_digits pid).2
    rw [List.length_append, List.length_replicate]
    omega
  number_prefix _ pid := by
    have hroom : 16 - (pidName pid).length = (15 - (pidName pid).length) + 1 := by
      have := (pidName_digits pid).2
      omega
    rw [hroom, List.replicate_succ]
    exact ⟨List.replicate (15 - (pidName pid).length) 0, by simp⟩

/-- No process, and nothing mounted. -/
def quietContext : Context Unit where
  heap := ⟨fun rest => (1, rest), fun _ rest => rest, fun _ _ => ⟨0, 0, [], .unknown⟩⟩
  images := clearedImages
  mounts := ⟨[], fun _ => procfs ⟨fun rest => (1, rest), fun _ rest => rest,
    fun _ _ => ⟨0, 0, [], .unknown⟩⟩⟩
  lookup _ _ _ := (-1, [])
  descriptor := ⟨false, 0, 0, .runnable, 0, 0, 0, vfsRoot, vfsRoot, 0, 0⟩

/-- The link `self`, opened by process 1. -/
def selfWorld : ProcWorld Unit where
  states _ := ⟨1, .self, 0⟩
  table := schedulerInit (fun _ => quietContext.descriptor) (fun _ _ => vfsRoot)
    (fun _ _ => false)
  rest := ()

/-- A call while nothing else happens. -/
def alone (call : NodeCall) : Request Unit := ⟨selfWorld.table, (), call⟩

/-- Reading the last two of the sixteen characters, and then nothing. -/
theorem procfs_run_sound_self :
    SoundRun quietContext vfsRoot selfWorld
      [alone (.seek 14 seekSet), alone (.read 16), alone (.read 16)] := by
  refine procfs_run_sound _ _ _ _ ⟨trivial, fun _ h₁ => ?_⟩
  obtain rfl := Option.some.inj h₁
  refine ⟨show 0 ≤ toInt 16 ∧ (14 : ℤ) ≤ 16 by decide, fun _ h₂ => ?_⟩
  obtain rfl := Option.some.inj h₂
  exact ⟨show 0 ≤ toInt 16 ∧ (16 : ℤ) ≤ 16 by decide, fun _ _ => trivial⟩

/-- Behind the end a read returns the negative number of characters left. -/
theorem procfs_read_behind_end :
    ¬ SoundRun quietContext vfsRoot selfWorld [alone (.seek 100 seekSet), alone (.read 16)] := by
  intro hsound
  obtain ⟨-, hrest⟩ := hsound _ rfl
  obtain ⟨hserved, -⟩ := hrest _ rfl
  have hcount := hserved.count
  exact absurd hcount (by decide)

end Neos.Procfs
