import Neos.Procfs.Model
import Neos.Vfs.Guarded
import Mathlib.Logic.Relation

/-!
# Depth

The virtual file system counts how deep a reference is below its mount node, and
the process file system keeps the node in the state block.  The two agree after
every sequence of steps, except where a link is opened to be followed: `fd` and
`exe` of a process are then accepted, but the node stays where it was.
-/

namespace Neos.Procfs

open Vfs Scheduler

variable {E : Type}

/-- How deep a node lies in the tree. -/
def ProcNode.depth : ProcNode → ℤ
  | .root => 0
  | .proc => 1
  | .self => 1
  | .fd => 2
  | .exe => 2
  | .cwd => 2

/-- A name that is a link which is opened to be followed, but is not. -/
def Unfollowed (state : ProcState) (part : CString) (flags : ℕ) : Prop :=
  state.node = .proc ∧ (part = fdName ∨ part = exeName) ∧ nofollow flags = false

/-! ## One call of `procfs_open` -/

/-- What `procfs_open` does when it accepts a name. -/
theorem openState_accepts {table : ProcessTable} {state : ProcState} {part : CString} {flags : ℕ}
    (h : (openState table state part flags).1 = 0) :
    (state.node = .root ∧ ∃ pid node, (openState table state part flags).2 = ⟨pid, node, 0⟩ ∧
      (node = .proc ∨ node = .self)) ∨
    (part = upName ∧ ((state.node = .proc ∧
        (openState table state part flags).2 = { state with node := .root, offset := 0 }) ∨
      (state.node = .fd ∧
        (openState table state part flags).2 = { state with node := .proc, offset := 0 }))) ∨
    (part ≠ upName ∧ state.node = .proc ∧ ∃ node,
      (openState table state part flags).2 = { state with node := node, offset := 0 } ∧
      (Unfollowed state part flags ∧ node = .proc ∨
        ¬ Unfollowed state part flags ∧ node.depth = 2)) := by
  cases hnode : state.node with
  | root =>
      left
      refine ⟨rfl, ?_⟩
      rw [openState, hnode] at h ⊢
      dsimp only at h ⊢
      split
      · exact ⟨_, _, rfl, by split <;> simp⟩
      · next hself =>
          rw [if_neg hself] at h
          split
          · exact ⟨_, _, rfl, Or.inl rfl⟩
          · next hlisted =>
              rw [if_neg hlisted] at h
              exact absurd h (show -linuxEnoent ≠ 0 by decide)
  | proc =>
      right
      rw [openState, hnode] at h ⊢
      dsimp only at h ⊢
      by_cases hup : part = upName
      · subst hup
        exact Or.inl ⟨rfl, Or.inl ⟨rfl, by rw [if_pos rfl]⟩⟩
      refine Or.inr ⟨hup, rfl, ?_⟩
      rw [if_neg hup] at h ⊢
      by_cases hfd : part = fdName
      · rw [if_pos hfd]
        cases hflag : nofollow flags with
        | false => exact ⟨_, rfl, Or.inl ⟨⟨hnode, Or.inl hfd, hflag⟩, rfl⟩⟩
        | true =>
            refine ⟨_, rfl, Or.inr ⟨?_, rfl⟩⟩
            rintro ⟨_, _, hoff⟩
            rw [hflag] at hoff
            cases hoff
      rw [if_neg hfd] at h ⊢
      by_cases hexe : part = exeName
      · rw [if_pos hexe]
        cases hflag : nofollow flags with
        | false => exact ⟨_, rfl, Or.inl ⟨⟨hnode, Or.inr hexe, hflag⟩, rfl⟩⟩
        | true =>
            refine ⟨_, rfl, Or.inr ⟨?_, rfl⟩⟩
            rintro ⟨_, _, hoff⟩
            rw [hflag] at hoff
            cases hoff
      rw [if_neg hexe] at h ⊢
      by_cases hcwd : part = cwdName
      · rw [if_pos hcwd]
        refine ⟨_, rfl, Or.inr ⟨?_, rfl⟩⟩
        rintro ⟨_, hname | hname, _⟩
        · exact hfd hname
        · exact hexe hname
      · rw [if_neg hcwd] at h
        exact absurd h (show -linuxEnoent ≠ 0 by decide)
  | fd =>
      right
      rw [openState, hnode] at h ⊢
      dsimp only at h ⊢
      by_cases hup : part = upName
      · exact Or.inl ⟨hup, Or.inr ⟨rfl, by rw [if_pos hup]⟩⟩
      · rw [if_neg hup] at h
        exact absurd h (show -linuxEnoent ≠ 0 by decide)
  | exe =>
      rw [openState, hnode] at h
      exact absurd h (show -linuxEio ≠ 0 by decide)
  | cwd =>
      rw [openState, hnode] at h
      exact absurd h (show -linuxEio ≠ 0 by decide)
  | self =>
      rw [openState, hnode] at h
      exact absurd h (show -linuxEio ≠ 0 by decide)

/-! ## References -/

section Steps

variable {h : Surroundings E} {m : Mounts (ProcWorld E)} {proc : ℕ}

/-- A reference has the driver of its node, and inside the process file system
its offset is the depth of the node in its state block. -/
structure Placed (m : Mounts (ProcWorld E)) (proc : ℕ) (vref : VRef) (w : ProcWorld E) : Prop where
  driver : ∃ driver, driverOf m.nodes vref.node = some driver ∧ vref.driver = some driver
  nonneg : 0 ≤ vref.offset
  depth : vref.driver = some proc → vref.offset = (w.states vref.state).node.depth

/-- An update that succeeded at depth zero leaves the reference placed. -/
theorem placed_of_vfsUpdate (hproc : m.drivers proc = procfs h) {vref : VRef} {w : ProcWorld E}
    {o : Outcome (ProcWorld E)} (ho : vfsUpdate m vref w = some o) (hres : o.res = 0)
    (hoffset : vref.offset = 0)
    (hkept : vref.driver = some proc → (w.states vref.state).node = .root) :
    Placed m proc o.vref o.world := by
  obtain ⟨driver, hnode, hdriver, hn, hoff, hkeep⟩ := vfsUpdate_success ho hres
  refine ⟨⟨driver, by rw [hn]; exact hnode, hdriver⟩, Int.le_of_eq (hoff.trans hoffset).symm, ?_⟩
  intro hp
  rw [hdriver] at hp
  cases hp
  rw [hoff, hoffset]
  rcases hkeep with ⟨hold, hstate, hworld⟩ | ⟨_, v, w', _, hroot⟩
  · rw [hstate, hworld, hkept hold]
    rfl
  · rw [hproc] at hroot
    have hstate : o.vref.state = (h.kmalloc w'.rest).1 :=
      (congrArg (fun r => r.2.1) hroot).symm
    have hworld : o.world = ({ w' with rest := (h.kmalloc w'.rest).2 } : ProcWorld E).put
        (h.kmalloc w'.rest).1 ⟨0, .root, 0⟩ := (congrArg (fun r => r.2.2) hroot).symm
    rw [hstate, hworld, ProcWorld.put_states_self]
    rfl

theorem ProcNode.eq_root_of_depth {node : ProcNode} (h : node.depth = 0) : node = .root := by
  cases node with
  | root => rfl
  | proc => exact absurd h (by decide)
  | fd => exact absurd h (by decide)
  | exe => exact absurd h (by decide)
  | cwd => exact absurd h (by decide)
  | self => exact absurd h (by decide)

theorem Placed.root_of_offset {vref : VRef} {w : ProcWorld E} (hplaced : Placed m proc vref w)
    (hoffset : vref.offset = 0) (hdriver : vref.driver = some proc) :
    (w.states vref.state).node = .root :=
  ProcNode.eq_root_of_depth ((hplaced.depth hdriver).symm.trans hoffset)

/-- A step to another node of the tree starts at depth zero. -/
theorem Placed.offset_of_crosses {vref : VRef} {w : ProcWorld E} (hplaced : Placed m proc vref w)
    {part : CString} {n : ℕ} (hcross : Crosses m.nodes vref part n) : vref.offset = 0 := by
  rcases hcross with ⟨_, hle, _⟩ | ⟨_, _, hzero, _⟩
  · exact Int.le_antisymm hle hplaced.nonneg
  · exact hzero

/-- A step within the process file system is one call of `procfs_open`. -/
theorem descend_procfs (hproc : m.drivers proc = procfs h) {vref : VRef} {w : ProcWorld E}
    (hplaced : Placed m proc vref w) (hdriver : vref.driver = some proc) {offset : ℤ}
    {part : CString} {flags : ℕ} {o : Outcome (ProcWorld E)}
    (ho : updateAndOpen m { vref with offset := offset } part flags w = some o) :
    o.res = (openState w.table (w.states vref.state) part flags).1 ∧
      o.vref = { vref with offset := offset } ∧ o.world.table = w.table ∧
      o.world.states vref.state = (openState w.table (w.states vref.state) part flags).2 := by
  obtain ⟨driver, hnode, hv⟩ := hplaced.driver
  rw [hdriver] at hv
  cases hv
  rw [updateAndOpen_same { vref with offset := offset } part flags w hdriver hnode, hproc] at ho
  cases ho
  refine ⟨rfl, rfl, rfl, ?_⟩
  exact ProcWorld.put_states_self _ _ _

/-- A step that succeeds leaves the reference placed, unless a link was to be
followed and was not. -/
theorem Placed.step {paths : List (List CString)} {children : ℕ → List ℕ}
    (htrie : Trie m.nodes paths children) (hproc : m.drivers proc = procfs h) {vref : VRef}
    {w : ProcWorld E} (hplaced : Placed m proc vref w) {part : CString} {flags : ℕ}
    (hlink : ¬ (vref.driver = some proc ∧ Unfollowed (w.states vref.state) part flags))
    {o : Outcome (ProcWorld E)} (ho : vfsEnterGuarded m vref part flags w = some o)
    (hres : o.res = 0) : Placed m proc o.vref o.world := by
  rcases vfsEnterGuarded_cases htrie ho with ⟨_, rfl⟩ | ⟨n, hcross, hupdate⟩ | ⟨offset, hdesc, hopen⟩
  · exact hplaced
  · have hoffset := hplaced.offset_of_crosses hcross
    exact placed_of_vfsUpdate (h := h) hproc hupdate hres hoffset
      fun hdriver => hplaced.root_of_offset hoffset hdriver
  · obtain ⟨driver, hnode, hdriver⟩ := hplaced.driver
    have hnonneg : 0 ≤ offset := by
      rcases hdesc with ⟨_, hpos, rfl⟩ | ⟨_, _, rfl, _⟩
      · exact Int.le_sub_one_of_lt hpos
      · exact Int.le_add_one hplaced.nonneg
    by_cases hp : driver = proc
    · subst hp
      obtain ⟨hcode, hvref, _, hstate⟩ := descend_procfs hproc hplaced hdriver hopen
      rw [hcode] at hres
      refine ⟨⟨driver, by rw [hvref]; exact hnode, by rw [hvref]; exact hdriver⟩, ?_, fun _ => ?_⟩
      · rw [hvref]
        exact hnonneg
      have hdepth := hplaced.depth hdriver
      rw [hvref]
      change offset = (o.world.states vref.state).node.depth
      rw [hstate]
      rcases openState_accepts hres with ⟨hroot, pid, node, hnew, hkind⟩ |
          ⟨hup, ⟨hold, hnew⟩ | ⟨hold, hnew⟩⟩ | ⟨hup, hold, node, hnew, hkind⟩
      · -- from the root down to a process
        rw [hroot] at hdepth
        have hzero : vref.offset = 0 := hdepth
        rcases hdesc with ⟨_, hpos, _⟩ | ⟨_, _, rfl, _⟩
        · rw [hzero] at hpos
          exact absurd hpos (Int.lt_irrefl 0)
        · rw [hnew, hzero]
          rcases hkind with rfl | rfl <;> rfl
      · -- up from a process
        rw [hold] at hdepth
        rcases hdesc with ⟨_, _, rfl⟩ | ⟨_, hne, _⟩
        · rw [hnew, hdepth]
          rfl
        · exact absurd hup hne
      · -- up from the descriptors
        rw [hold] at hdepth
        rcases hdesc with ⟨_, _, rfl⟩ | ⟨_, hne, _⟩
        · rw [hnew, hdepth]
          rfl
        · exact absurd hup hne
      · -- down from a process
        rw [hold] at hdepth
        have hleaf : node.depth = 2 := by
          rcases hkind with ⟨hslip, _⟩ | ⟨_, hleaf⟩
          · exact absurd ⟨hdriver, hslip⟩ hlink
          · exact hleaf
        rcases hdesc with ⟨hdots, _⟩ | ⟨_, _, rfl, _⟩
        · exact absurd hdots hup
        · rw [hnew, hdepth]
          exact hleaf.symm
    · have hsame := updateAndOpen_same { vref with offset := offset } part flags w hdriver hnode
      rw [hsame] at hopen
      cases hopen
      refine ⟨⟨driver, hnode, hdriver⟩, hnonneg, ?_⟩
      intro hbad
      rw [show vref.driver = some proc from hbad] at hdriver
      exact absurd (Option.some.inj hdriver).symm hp

/-! ## Down and up again -/

/-- An ordinary name and `..` lead back to the node, and to the process where
the node belongs to one. -/
theorem Placed.restore {paths : List (List CString)} {children : ℕ → List ℕ}
    (htrie : Trie m.nodes paths children) (hproc : m.drivers proc = procfs h) {vref : VRef}
    {w : ProcWorld E} (hplaced : Placed m proc vref w) (hdriver : vref.driver = some proc)
    {part : CString} {flags flags' : ℕ} (hdot : part ≠ [46]) (hdots : part ≠ upName)
    (hlink : ¬ Unfollowed (w.states vref.state) part flags) {o o' : Outcome (ProcWorld E)}
    (ho : vfsEnterGuarded m vref part flags w = some o) (hres : o.res = 0)
    (ho' : vfsEnterGuarded m o.vref upName flags' o.world = some o') (hres' : o'.res = 0) :
    o'.vref.node = vref.node ∧ o'.vref.driver = some proc ∧
      (o'.world.states o'.vref.state).node = (w.states vref.state).node ∧
      ((w.states vref.state).node ≠ .root →
        (o'.world.states o'.vref.state).pid = (w.states vref.state).pid) := by
  have hplaced' : Placed m proc o.vref o.world :=
    hplaced.step htrie hproc (fun hslip => hlink hslip.2) ho hres
  obtain ⟨_, hnode, hv⟩ := hplaced.driver
  rw [hdriver] at hv
  cases hv
  rcases vfsEnterGuarded_cases htrie ho with ⟨hbad, _⟩ | ⟨n, hcross, hupdate⟩ | ⟨offset, hdesc, hopen⟩
  · exact absurd hbad hdot
  · -- into a mounted child, and back from its root
    obtain ⟨hbad, _⟩ | ⟨_, _, hoffset, hbelow⟩ := hcross
    · exact absurd hbad hdots
    obtain ⟨_, _, _, hon, hooffset, _⟩ := vfsUpdate_success hupdate hres
    have hzero : o.vref.offset = 0 := hooffset.trans hoffset
    have hroot := hplaced.root_of_offset hoffset hdriver
    rcases vfsEnterGuarded_cases htrie ho' with ⟨hbad, _⟩ | ⟨n', hcross', hupdate'⟩ |
        ⟨_, hdesc', _⟩
    · exact absurd hbad (by decide)
    · have hparent : n' = vref.node := by
        rcases hcross' with ⟨_, _, hparent⟩ | ⟨_, hbad, _⟩
        · have hfound := List.find?_some hbelow
          simp only [decide_eq_true_eq] at hfound
          rw [hon] at hparent
          exact Option.some.inj (hparent.symm.trans hfound.2.1)
        · exact absurd rfl hbad
      obtain ⟨driver', hdriver', hv', hn', hoffset', _⟩ := vfsUpdate_success hupdate' hres'
      have hback : driver' = proc := by
        rw [show (({ o.vref with node := n' } : VRef)).node = vref.node from hparent] at hdriver'
        exact Option.some.inj (hdriver'.symm.trans hnode)
      have hplaced'' : Placed m proc o'.vref o'.world :=
        placed_of_vfsUpdate (h := h) hproc hupdate' hres' hzero
          fun hd => hplaced'.root_of_offset hzero hd
      rw [hback] at hv'
      refine ⟨hn'.trans hparent, hv', ?_, fun hne => absurd hroot hne⟩
      rw [hplaced''.root_of_offset (hoffset'.trans hzero) hv', hroot]
    · rcases hdesc' with ⟨_, hpos, _⟩ | ⟨_, hbad, _⟩
      · rw [hzero] at hpos
        exact absurd hpos (Int.lt_irrefl 0)
      · exact absurd rfl hbad
  · -- down within the process file system, and up again
    obtain ⟨hcode, hvref, htable, hstate⟩ := descend_procfs hproc hplaced hdriver hopen
    have hod : o.vref.driver = some proc := by
      rw [hvref]
      exact hdriver
    have hdown : offset = vref.offset + 1 := by
      rcases hdesc with ⟨hbad, _⟩ | ⟨_, _, hdown, _⟩
      · exact absurd hbad hdots
      · exact hdown
    have hpos : 0 < o.vref.offset := by
      rw [hvref]
      have := hplaced.nonneg
      change 0 < offset
      omega
    rcases vfsEnterGuarded_cases htrie ho' with ⟨hbad, _⟩ | ⟨_, hcross', _⟩ | ⟨_, hdesc', hopen'⟩
    · exact absurd hbad (by decide)
    · rw [hplaced'.offset_of_crosses hcross'] at hpos
      exact absurd hpos (Int.lt_irrefl 0)
    · obtain ⟨hcode', hvref', _, hstate'⟩ := descend_procfs hproc hplaced' hod hopen'
      rw [hcode] at hres
      rw [hcode'] at hres'
      have hsnode : o.vref.state = vref.state := by rw [hvref]
      rw [hsnode] at hres' hstate'
      rw [hstate] at hres' hstate'
      have hfinal : o'.vref.state = vref.state := by
        rw [hvref']
        exact hsnode
      rw [hfinal, hstate']
      refine ⟨by rw [hvref', hvref], by rw [hvref', hvref]; exact hdriver, ?_⟩
      -- where the second step came from
      have hup := openState_accepts hres'
      rcases openState_accepts hres with ⟨hroot, pid, node, hnew, hkind⟩ | ⟨hbad, _⟩ |
          ⟨_, hold, node, hnew, hkind⟩
      · rw [hnew] at hup hres'
        rcases hkind with rfl | rfl
        · rcases hup with ⟨hbad, _⟩ | ⟨_, ⟨_, hnew'⟩ | ⟨hbad, _⟩⟩ | ⟨hbad, _⟩
          · cases hbad
          · rw [hnew, hnew', hroot]
            exact ⟨rfl, fun hne => absurd rfl hne⟩
          · cases hbad
          · exact absurd rfl hbad
        · exact absurd hres' (show -linuxEio ≠ 0 by decide)
      · exact absurd hbad hdots
      · rw [hnew] at hup hres'
        have hleaf : node.depth = 2 := by
          rcases hkind with ⟨hslip, _⟩ | ⟨_, hleaf⟩
          · exact absurd hslip hlink
          · exact hleaf
        rcases hup with ⟨hbad, _⟩ | ⟨_, ⟨hbad, _⟩ | ⟨_, hnew'⟩⟩ | ⟨hbad, _⟩
        · rw [show node = .root from hbad] at hleaf
          exact absurd hleaf (by decide)
        · rw [show node = .proc from hbad] at hleaf
          exact absurd hleaf (by decide)
        · rw [hnew, hnew', hold]
          exact ⟨rfl, fun _ => rfl⟩
        · exact absurd rfl hbad

end Steps

/-! ## Whole runs -/

/-- The references that start at a mount node and follow names that are
accepted, and copies of them.  No step opens a link to be followed where it is
not. -/
inductive Walked (m : Mounts (ProcWorld E)) (proc : ℕ) : VRef → ProcWorld E → Prop
  | start {vref : VRef} {w : ProcWorld E} {o : Outcome (ProcWorld E)} (hnull : vref.driver = none)
      (hoffset : vref.offset = 0) (ho : vfsUpdate m vref w = some o) (hres : o.res = 0) :
      Walked m proc o.vref o.world
  | enter {vref : VRef} {w : ProcWorld E} {part : CString} {flags : ℕ} {o : Outcome (ProcWorld E)}
      (hwalk : Walked m proc vref w)
      (hlink : ¬ (vref.driver = some proc ∧ Unfollowed (w.states vref.state) part flags))
      (ho : vfsEnterGuarded m vref part flags w = some o) (hres : o.res = 0) :
      Walked m proc o.vref o.world
  | copy {vref : VRef} {w : ProcWorld E} (hwalk : Walked m proc vref w) :
      Walked m proc (vfsRefcpy m vref w).1 (vfsRefcpy m vref w).2

theorem Placed.copy {h : Surroundings E} {m : Mounts (ProcWorld E)} {proc : ℕ}
    (hproc : m.drivers proc = procfs h) {vref : VRef} {w : ProcWorld E}
    (hplaced : Placed m proc vref w) :
    Placed m proc (vfsRefcpy m vref w).1 (vfsRefcpy m vref w).2 := by
  obtain ⟨driver, hnode, hdriver⟩ := hplaced.driver
  have heq : vfsRefcpy m vref w =
      let cloned := (m.drivers driver).clone ⟨vref.node, vref.offset, some driver, 0⟩ vref w
      (⟨vref.node, vref.offset, some driver, cloned.2.1⟩, cloned.2.2) := by
    rw [vfsRefcpy, hdriver]
    rfl
  rw [heq]
  refine ⟨⟨driver, hnode, rfl⟩, hplaced.nonneg, ?_⟩
  intro hp
  cases hp
  rw [hproc]
  have hcopied : ((procfs h).clone ⟨vref.node, vref.offset, some proc, 0⟩ vref w).2.2.states
      ((procfs h).clone ⟨vref.node, vref.offset, some proc, 0⟩ vref w).2.1 =
        w.states vref.state := ProcWorld.put_states_self _ _ _
  dsimp only
  rw [hcopied]
  exact hplaced.depth hdriver

/-- Every reference that is walked is placed. -/
theorem Walked.placed {h : Surroundings E} {m : Mounts (ProcWorld E)} {proc : ℕ}
    (hproc : m.drivers proc = procfs h) {paths : List (List CString)} {children : ℕ → List ℕ}
    (htrie : Trie m.nodes paths children) {vref : VRef} {w : ProcWorld E}
    (hwalk : Walked m proc vref w) : Placed m proc vref w := by
  induction hwalk with
  | start hnull hoffset ho hres =>
      refine placed_of_vfsUpdate hproc ho hres hoffset ?_
      intro hbad
      rw [hnull] at hbad
      cases hbad
  | enter _ hlink ho hres ih => exact ih.step htrie hproc hlink ho hres
  | copy _ ih => exact ih.copy hproc

/-- A heap that returns one block, and nothing else. -/
def oneBlock : Surroundings Unit where
  kmalloc _ := (4, ())
  kfree _ _ := ()
  garbled _ _ := ⟨0, 0, [], .unknown⟩

/-- One live process, which is running. -/
def oneProcess : ProcessTable where
  generalProcessTable i := ⟨i = 0, 0, 0, .runnable, 0, 0, 0, vfsRoot, vfsRoot, 0, 0⟩
  processCount := 1
  processTableSize := 2
  processRunning := 0
  filesAt _ _ := vfsRoot
  fileExistsAt _ _ := false
  freed := []

/-- The state of the small system. -/
def smallWorld : ProcWorld Unit := ⟨fun _ => ⟨0, .root, 0⟩, oneProcess, ()⟩

/-- The process file system mounted at the root. -/
def smallTree : Mounts (ProcWorld Unit) where
  nodes := [⟨none, none, 0, some 1, [114, 111, 111, 116]⟩]
  drivers := fun _ => procfs oneBlock

theorem smallTree_built :
    vfsMountAll (vfsInit fun _ => procfs oneBlock) [([47], 1)] = some smallTree := rfl

/-- A reference to the root of the small system. -/
def smallRoot : VRef := ⟨0, 0, some 1, 4⟩

theorem smallRoot_walked :
    Walked smallTree 1 smallRoot (smallWorld.put 4 ⟨0, .root, 0⟩) :=
  @Walked.start Unit smallTree 1 vfsRoot smallWorld ⟨0, smallRoot, _⟩ rfl rfl rfl rfl

end Neos.Procfs
