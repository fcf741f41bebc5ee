import Neos.Vfs.Components
import Neos.Vfs.Trace
import Neos.Vfs.Walk

/-!
# The memory of `vfs_trace`

`vfs_trace` collects the names of a path in buffers of their own and then
copies them to the output, each followed by a slash, and releases them.  Here
the output is memory of the given size, where a store outside has no result,
and the buffers are numbered in the order of their allocation.

The test before a name is copied does not count the slash behind it.  When the
whole path fills the output exactly, the terminator is stored behind its end;
when it is longer, the names that did not fit are never released.
-/

namespace Neos.Vfs

variable {W : Type} {m : Mounts W} {lookup : Lookup W}

/-! ## The two loops on memory -/

/-- A buffer for a name. -/
structure NameBuffer where
  number : ℕ
  name : CString

/-- The first loop of `vfs_trace` with the buffers it allocates. -/
def traceBuffers (m : Mounts W) (lookup : Lookup W) :
    ℕ → VRef → W → List NameBuffer → Option (List NameBuffer × VRef × W)
  | 0, vref, w, path => some (path, vref, w)
  | room + 1, vref, w, path =>
      if vref.node = 0 ∧ vref.offset = 0 then some (path, vref, w)
      else do
        let node ← m.nodes[vref.node]?
        let entered ← vfsEnter m vref [46, 46] 0 w
        traceBuffers m lookup room entered.vref entered.world
          (⟨path.length, traceName lookup node vref w⟩ :: path)

/-- `memcpy` to an index of a buffer. -/
def putBytes (buffer : List UInt8) (i : ℕ) (bytes : List UInt8) : Option (List UInt8) :=
  if i + bytes.length ≤ buffer.length then
    some (buffer.take i ++ bytes ++ buffer.drop (i + bytes.length))
  else none

/-- The second loop of `vfs_trace`: the index into the output, the output and
the buffers released so far. -/
def outputLoop (size : ℕ) :
    List NameBuffer → ℕ → List UInt8 → List ℕ → Option (ℕ × List UInt8 × List ℕ)
  | [], k, output, freed => some (k, output, freed)
  | buffer :: path, k, output, freed =>
      if k + buffer.name.length ≥ size then some (k, output, freed)
      else do
        let copied ← putBytes output k buffer.name
        let closed ← putAt copied (k + buffer.name.length) slash
        outputLoop size path (k + buffer.name.length + 1) closed (buffer.number :: freed)

/-- What a call leaves behind: the output, the buffers it allocated and those it
released. -/
structure Traced (W : Type) where
  output : List UInt8
  allocated : List ℕ
  freed : List ℕ
  world : W

/-- `vfs_trace` with the memory it uses. -/
def vfsTraceInto (m : Mounts W) (lookup : Lookup W) (vref : VRef) (size : ℕ)
    (output : List UInt8) (w : W) : Option (Traced W) := do
  let copied := vfsRefcpy m vref w
  let updated ← vfsUpdate m copied.1 copied.2
  let traced ← traceBuffers m lookup pathMaxResolves updated.vref updated.world []
  let started ← putAt output 0 slash
  let (k, written, freed) ← outputLoop size traced.1 1 started []
  let ended ← putAt written k 0
  some ⟨ended, traced.1.map (·.number), freed, (vfsClose m traced.2.1 traced.2.2).world⟩

/-! ## The names above a reference -/

/-- The names on the way from a reference up to the root of the mount tree,
lowest first and at most as many as the number says. -/
inductive NamesAbove (m : Mounts W) (lookup : Lookup W) : ℕ → VRef → W → List CString → Prop
  | full (vref : VRef) (w : W) : NamesAbove m lookup 0 vref w []
  | root {room : ℕ} {vref : VRef} (w : W) (h : vref.node = 0 ∧ vref.offset = 0) :
      NamesAbove m lookup (room + 1) vref w []
  | above {room : ℕ} {vref : VRef} {w : W} {node : VNode} {entered : Outcome W}
      {names : List CString} (h : ¬ (vref.node = 0 ∧ vref.offset = 0))
      (hnode : m.nodes[vref.node]? = some node)
      (hentered : vfsEnter m vref [46, 46] 0 w = some entered)
      (hnames : NamesAbove m lookup room entered.vref entered.world names) :
      NamesAbove m lookup (room + 1) vref w (traceName lookup node vref w :: names)

/-- The number of characters some names and their slashes take. -/
def namesLength (names : List CString) : ℕ := (names.flatMap (· ++ [slash])).length

@[simp] theorem namesLength_nil : namesLength [] = 0 := rfl

@[simp] theorem namesLength_cons (name : CString) (names : List CString) :
    namesLength (name :: names) = name.length + 1 + namesLength names := by
  rw [namesLength, List.flatMap_cons, List.length_append, List.length_append,
    List.length_singleton, namesLength]

theorem namesLength_reverse (names : List CString) :
    namesLength names.reverse = namesLength names := by
  have hperm : (names.reverse.flatMap (· ++ [slash])).Perm (names.flatMap (· ++ [slash])) :=
    (List.reverse_perm names).flatMap_right _
  exact hperm.length_eq

/-- The first loop finds the names above its reference. -/
theorem traceBuffers_of_namesAbove {room : ℕ} {vref : VRef} {w : W} {names : List CString}
    (h : NamesAbove m lookup room vref w names) :
    ∀ path : List NameBuffer, ∃ buffers vref' w',
      traceBuffers m lookup room vref w path = some (buffers, vref', w') ∧
        buffers.map (·.name) = names.reverse ++ path.map (·.name) := by
  induction h with
  | full vref w => exact fun path => ⟨path, vref, w, rfl, rfl⟩
  | root w hroot => exact fun path => ⟨path, _, w, if_pos hroot, rfl⟩
  | above hgo hnode hentered _ ih =>
      intro path
      obtain ⟨buffers, vref', w', hloop, hnames⟩ := ih (⟨path.length, traceName lookup _ _ _⟩ :: path)
      refine ⟨buffers, vref', w', ?_, ?_⟩
      · rw [traceBuffers, if_neg hgo, hnode, Option.bind_eq_bind, Option.bind_some, hentered,
          Option.bind_eq_bind, Option.bind_some]
        exact hloop
      · rw [hnames, List.map_cons, List.reverse_cons, List.append_assoc]
        rfl

/-! ## Copying the names -/

theorem putBytes_of_le {buffer : List UInt8} {i : ℕ} {bytes : List UInt8}
    (h : i + bytes.length ≤ buffer.length) :
    putBytes buffer i bytes =
      some (buffer.take i ++ bytes ++ buffer.drop (i + bytes.length)) :=
  if_pos h

theorem putBytes_some {buffer result : List UInt8} {i : ℕ} {bytes : List UInt8}
    (h : putBytes buffer i bytes = some result) : result.length = buffer.length := by
  rw [putBytes] at h
  split at h
  · cases h
    rw [List.length_append, List.length_append, List.length_take, List.length_drop]
    omega
  · cases h

theorem putAt_of_lt {buffer : List UInt8} {i : ℕ} (chr : UInt8) (h : i < buffer.length) :
    putAt buffer i chr = some (buffer.set i chr) := if_pos h

theorem putAt_some {buffer result : List UInt8} {i : ℕ} {chr : UInt8}
    (h : putAt buffer i chr = some result) :
    i < buffer.length ∧ result = buffer.set i chr := by
  rw [putAt] at h
  split at h
  · next hlt => exact ⟨hlt, (Option.some.inj h).symm⟩
  · cases h

/-- With room for all names and one byte more, every name is copied and every
buffer is released. -/
theorem outputLoop_fits {size : ℕ} :
    ∀ (path : List NameBuffer) (k : ℕ) (output written : List UInt8) (freed : List ℕ),
      output.length = size → output.take k = written → written.length = k →
      k + namesLength (path.map (·.name)) < size →
      ∃ output', outputLoop size path k output freed =
          some (k + namesLength (path.map (·.name)), output',
            (path.map (·.number)).reverse ++ freed) ∧
        output'.length = size ∧
        output'.take (k + namesLength (path.map (·.name))) =
          written ++ (path.map (·.name)).flatMap (· ++ [slash])
  | [], k, output, written, freed, hlen, htake, _, _ =>
      ⟨output, rfl, hlen, by rw [List.map_nil, namesLength_nil, Nat.add_zero, htake]; simp⟩
  | buffer :: path, k, output, written, freed, hlen, htake, hk, hroom => by
      rw [List.map_cons, namesLength_cons] at hroom
      have hgo : ¬ (k + buffer.name.length ≥ size) := by omega
      have hfill : k + buffer.name.length ≤ output.length := by omega
      have hcopied : (output.take k ++ buffer.name ++
          output.drop (k + buffer.name.length)).length = size := by
        rw [List.length_append, List.length_append, List.length_take, List.length_drop]
        omega
      have hput := putAt_of_lt slash (hcopied.symm ▸ Nat.lt_of_not_le hgo)
      have hclosed : ((output.take k ++ buffer.name ++ output.drop (k + buffer.name.length)).set
          (k + buffer.name.length) slash).take (k + buffer.name.length + 1) =
            written ++ (buffer.name ++ [slash]) := by
        have hlast : k + buffer.name.length = (output.take k ++ buffer.name).length := by
          rw [List.length_append, htake, hk]
        rw [List.take_add_one, List.take_set_of_le (Nat.le_refl _),
          List.getElem?_set_self (by omega), hlast, List.take_left, htake, List.append_assoc]
        rfl
      obtain ⟨output', hloop, hlen', htake'⟩ := outputLoop_fits path _ _ _
        (buffer.number :: freed) (by rw [List.length_set, hcopied]) hclosed
        (by rw [List.length_append, List.length_append, hk, List.length_singleton]; omega)
        (by omega)
      refine ⟨output', ?_, hlen', ?_⟩
      · rw [outputLoop, if_neg hgo, putBytes_of_le hfill]
        dsimp only [Option.bind_eq_bind, Option.bind_some]
        rw [hput]
        dsimp only [Option.bind_some]
        rw [hloop, List.map_cons, namesLength_cons, List.map_cons, List.reverse_cons,
          List.append_assoc]
        congr 2
        omega
      · rw [List.map_cons, namesLength_cons, List.flatMap_cons, ← List.append_assoc, ← htake']
        congr 1
        omega

/-- The loop releases every buffer only if it copies every name. -/
theorem outputLoop_freed {size : ℕ} :
    ∀ (path : List NameBuffer) (k : ℕ) (output : List UInt8) (freed : List ℕ)
      {k' : ℕ} {output' : List UInt8} {freed' : List ℕ},
      outputLoop size path k output freed = some (k', output', freed') →
        output'.length = output.length ∧ freed'.length ≤ freed.length + path.length ∧
          (freed'.length = freed.length + path.length →
            k' = k + namesLength (path.map (·.name)))
  | [], k, output, freed, k', output', freed', h => by
      cases h
      exact ⟨rfl, Nat.le_refl _, fun _ => rfl⟩
  | buffer :: path, k, output, freed, k', output', freed', h => by
      rw [outputLoop] at h
      split at h
      · cases h
        refine ⟨rfl, Nat.le_add_right _ _, fun hall => ?_⟩
        rw [List.length_cons] at hall
        omega
      · obtain ⟨copied, hcopied, h⟩ := Option.bind_eq_some_iff.mp h
        obtain ⟨closed, hclosed, h⟩ := Option.bind_eq_some_iff.mp h
        obtain ⟨hlen, hle, hall⟩ := outputLoop_freed path _ _ _ h
        have hlen₁ := putBytes_some hcopied
        have hlen₂ : closed.length = copied.length := by
          rw [(putAt_some hclosed).2, List.length_set]
        rw [List.length_cons] at hle hall
        refine ⟨by rw [hlen, hlen₂, hlen₁], by rw [List.length_cons]; omega, fun heq => ?_⟩
        rw [List.length_cons] at heq
        rw [hall (by omega), List.map_cons, namesLength_cons]
        omega

/-! ## When a trace is safe -/

/-- A call stores only inside the output, leaves a terminated string there and
releases every buffer it allocated. -/
def TracesSafely (m : Mounts W) (lookup : Lookup W) (vref : VRef) (size : ℕ) (w : W) : Prop :=
  ∀ output : List UInt8, output.length = size → ∃ traced,
    vfsTraceInto m lookup vref size output w = some traced ∧
      traced.output.length = size ∧ 0 ∈ traced.output ∧ traced.freed.Perm traced.allocated

variable {vref : VRef} {w : W} {updated : Outcome W} {names : List CString} {size : ℕ}

/-- Whatever is left in the output when all names fit: the path and its
terminator. -/
theorem vfsTraceInto_fits
    (hupdate : vfsUpdate m (vfsRefcpy m vref w).1 (vfsRefcpy m vref w).2 = some updated)
    (hnames : NamesAbove m lookup pathMaxResolves updated.vref updated.world names)
    (hroom : 1 + namesLength names < size) {output : List UInt8} (hlen : output.length = size) :
    ∃ traced, vfsTraceInto m lookup vref size output w = some traced ∧
      traced.output.length = size ∧ render names.reverse ++ [0] <+: traced.output ∧
      traced.freed.Perm traced.allocated := by
  obtain ⟨buffers, vref', w', hbuffers, hmap⟩ := traceBuffers_of_namesAbove hnames []
  rw [List.map_nil, List.append_nil] at hmap
  have hstart : putAt output 0 slash = some (output.set 0 slash) :=
    putAt_of_lt slash (by omega)
  have htake : (output.set 0 slash).take 1 = [slash] := by
    cases output with
    | nil => rw [List.length_nil] at hlen; omega
    | cons c rest => rfl
  have htotal : namesLength (buffers.map (·.name)) = namesLength names := by
    rw [hmap, namesLength_reverse]
  obtain ⟨written, hloop, hwritten, hpath⟩ := outputLoop_fits buffers 1 (output.set 0 slash)
    [slash] [] (by rw [List.length_set, hlen]) htake rfl (by rwa [htotal])
  rw [htotal] at hloop hpath
  have hend : putAt written (1 + namesLength names) 0 =
      some (written.set (1 + namesLength names) 0) := putAt_of_lt 0 (by omega)
  refine ⟨⟨written.set (1 + namesLength names) 0, buffers.map (·.number),
    (buffers.map (·.number)).reverse ++ [], (vfsClose m vref' w').world⟩, ?_, ?_, ?_, ?_⟩
  · rw [vfsTraceInto]
    dsimp only [Option.bind_eq_bind, Option.bind_some]
    rw [hupdate]
    dsimp only [Option.bind_some]
    rw [hbuffers]
    dsimp only [Option.bind_some]
    rw [hstart]
    dsimp only [Option.bind_some]
    rw [hloop]
    dsimp only [Option.bind_some]
    rw [hend]
    rfl
  · rw [List.length_set, hwritten]
  · have hprefix : (written.set (1 + namesLength names) 0).take (1 + namesLength names + 1) =
        render names.reverse ++ [0] := by
      rw [List.take_add_one, List.take_set_of_le (Nat.le_refl _),
        List.getElem?_set_self (by omega), hpath, hmap]
      rfl
    rw [← hprefix]
    exact List.take_prefix _ _
  · rw [List.append_nil]
    exact List.reverse_perm _

/-- A trace is safe exactly when the whole path and its terminator fit. -/
theorem vfsTrace_safe_iff
    (hupdate : vfsUpdate m (vfsRefcpy m vref w).1 (vfsRefcpy m vref w).2 = some updated)
    (hnames : NamesAbove m lookup pathMaxResolves updated.vref updated.world names) :
    TracesSafely m lookup vref size w ↔ 1 + namesLength names < size := by
  constructor
  · intro hsafe
    have hlen : (List.replicate size (0 : UInt8)).length = size := List.length_replicate
    obtain ⟨traced, htraced, -, -, hfreed⟩ := hsafe _ hlen
    obtain ⟨buffers, vref', w', hbuffers, hmap⟩ := traceBuffers_of_namesAbove hnames []
    rw [List.map_nil, List.append_nil] at hmap
    rw [vfsTraceInto] at htraced
    dsimp only [Option.bind_eq_bind, Option.bind_some] at htraced
    rw [hupdate] at htraced
    dsimp only [Option.bind_some] at htraced
    rw [hbuffers] at htraced
    dsimp only [Option.bind_some] at htraced
    obtain ⟨started, hstart, htraced⟩ := Option.bind_eq_some_iff.mp htraced
    obtain ⟨⟨k, written, freed⟩, hloop, htraced⟩ := Option.bind_eq_some_iff.mp htraced
    obtain ⟨ended, hend, htraced⟩ := Option.bind_eq_some_iff.mp htraced
    obtain rfl := Option.some.inj htraced
    obtain ⟨hwritten, -, hall⟩ := outputLoop_freed buffers 1 started [] hloop
    have hcount : freed.length = buffers.length := by
      rw [hfreed.length_eq, List.length_map]
    -- all names were copied, and the terminator was stored behind them
    have hk : k = 1 + namesLength (buffers.map (·.name)) := hall (by rw [hcount]; simp)
    have hinside : k < written.length := (putAt_some hend).1
    have hstarted : started.length = size := by
      rw [(putAt_some hstart).2, List.length_set, hlen]
    rw [hmap, namesLength_reverse] at hk
    omega
  · intro hroom output hlen
    obtain ⟨traced, htraced, hlength, hpath, hfreed⟩ :=
      vfsTraceInto_fits hupdate hnames hroom hlen
    have hend : 0 ∈ render names.reverse ++ [0] :=
      List.mem_append_right _ (List.mem_singleton.mpr rfl)
    exact ⟨traced, htraced, hlength, hpath.subset hend, hfreed⟩

/-- A reference to the name `ab` below the root. -/
def fileAb : VRef := ⟨0, 1, some 0, 0⟩

/-- A driver that calls everything `ab`. -/
def lookupAb : Lookup Unit := fun _ _ _ => (0, [97, 98])

theorem fileAb_namesAbove :
    NamesAbove obliging lookupAb pathMaxResolves fileAb () [[97, 98]] := by
  have hnode : obliging.nodes[fileAb.node]? =
      some ⟨none, some 1, 0, some 0, [114, 111, 111, 116]⟩ := rfl
  have hup : vfsEnter obliging fileAb [46, 46] 0 () = some ⟨0, ⟨0, 0, some 0, 0⟩, ()⟩ := rfl
  exact .above (by decide) hnode hup (.root () ⟨rfl, rfl⟩)

/-- The reference in a buffer of five bytes, for `/ab/` and the terminator. -/
theorem vfsTrace_safe_ab :
    vfsUpdate obliging (vfsRefcpy obliging fileAb ()).1 (vfsRefcpy obliging fileAb ()).2 =
        some ⟨0, fileAb, ()⟩ ∧
      TracesSafely obliging lookupAb fileAb 5 () :=
  ⟨rfl, (vfsTrace_safe_iff rfl fileAb_namesAbove).mpr (by decide)⟩

/-- In a buffer of four bytes the terminator of `/ab/` is stored behind the end. -/
theorem vfsTrace_overruns : ¬ TracesSafely obliging lookupAb fileAb 4 () := by
  intro hsafe
  obtain ⟨traced, htraced, -⟩ := hsafe [1, 1, 1, 1] rfl
  have hnone : vfsTraceInto obliging lookupAb fileAb 4 [1, 1, 1, 1] () = none := rfl
  rw [hnone] at htraced
  cases htraced

end Neos.Vfs
