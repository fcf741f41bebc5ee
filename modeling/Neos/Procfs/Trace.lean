import Neos.Procfs.Reference

/-!
# Tracing into the process file system

`vfs_trace` steps upwards through state machines that the open drove downwards,
and ignores what they answer.  The nodes `exe` and `cwd` do not let it up, and
links that were followed leave the node where it was.  The names that are traced
and opened again are determined here for every path into a mounted process file
system.
-/

namespace Neos.Procfs

open Vfs Scheduler

variable {E : Type}

/-- The lookups of all drivers. -/
def systemLookup (proc : ℕ) (lookups : Lookup E) : Lookup (ProcWorld E) :=
  fun d vref w => if d = proc then procfsLookup vref w else lookups d vref w.rest

/-- Other drivers have no names for their roots. -/
def Nameless (proc : ℕ) (lookups : Lookup E) : Prop :=
  ∀ d, d ≠ proc → ∀ vref e, vref.offset = 0 → (lookups d vref e).1 ≠ 0

/-- The names shown on the way up through the mount tree. -/
def climbNames (nodes : List VNode) : ℕ → ℕ → ProcState → List CString
  | 0, _, _ => []
  | count + 1, n, state =>
      match nodes[n]? with
      | none => []
      | some node =>
          climbNames nodes count node.parent
              (if driverOf nodes node.parent = driverOf nodes n then state else fresh) ++
            [shownName node.name state]

/-- Mount nodes at which the names of the path are shown although the state is
that of `self`: all of them are called `self`, up to the root or to where the
driver is another one. -/
inductive SelfUp (nodes : List VNode) (proc : ℕ) : ℕ → Prop
  | root : SelfUp nodes proc 0
  | left {n : ℕ} {node : VNode} (hnode : nodes[n]? = some node) (hname : node.name = selfName)
      (hdriver : driverOf nodes node.parent ≠ some proc) : SelfUp nodes proc n
  | up {n : ℕ} {node : VNode} (hnode : nodes[n]? = some node) (hname : node.name = selfName)
      (hup : SelfUp nodes proc node.parent) : SelfUp nodes proc n

section Climb

variable {nodes : List VNode} {proc : ℕ} {paths : List (List CString)} {children : ℕ → List ℕ}

theorem SelfUp.iff {n : ℕ} {node : VNode} (hroot : n ≠ 0) (hnode : nodes[n]? = some node) :
    SelfUp nodes proc n ↔ node.name = selfName ∧
      (driverOf nodes node.parent ≠ some proc ∨ SelfUp nodes proc node.parent) := by
  constructor
  · intro h
    cases h with
    | root => exact absurd rfl hroot
    | left hnode' hname hdriver =>
        rw [hnode] at hnode'
        cases hnode'
        exact ⟨hname, Or.inl hdriver⟩
    | up hnode' hname hup =>
        rw [hnode] at hnode'
        cases hnode'
        exact ⟨hname, Or.inr hup⟩
  · rintro ⟨hname, hdriver | hup⟩
    · exact .left hnode hname hdriver
    · exact .up hnode hname hup

theorem climbNames_snoc {n : ℕ} {node : VNode} (hnode : nodes[n]? = some node)
    (q : List CString) (name : CString) (state : ProcState) :
    climbNames nodes (q ++ [name]).length n state =
      climbNames nodes q.length node.parent
          (if driverOf nodes node.parent = driverOf nodes n then state else fresh) ++
        [shownName node.name state] := by
  rw [List.length_append, List.length_singleton, climbNames, hnode]

theorem length_climbNames (h : Trie nodes paths children) {q : List CString} :
    ∀ {n : ℕ} (state : ProcState), paths[n]? = some q →
      (climbNames nodes q.length n state).length = q.length := by
  induction q using List.reverseRecOn with
  | nil => exact fun _ _ => rfl
  | append_singleton q name ih =>
      intro n state hq
      obtain ⟨_, node, hnode, _, hparent⟩ := h.above hq
      rw [climbNames_snoc hnode, List.length_append, ih _ hparent, List.length_append]
      rfl

/-- From a root the names of the mount tree are shown. -/
theorem climbNames_root (h : Trie nodes paths children) {q : List CString} :
    ∀ {n : ℕ} {state : ProcState}, paths[n]? = some q → state.node = .root →
      climbNames nodes q.length n state = q := by
  induction q using List.reverseRecOn with
  | nil => exact fun _ _ => rfl
  | append_singleton q name ih =>
      intro n state hq hstate
      obtain ⟨_, node, hnode, rfl, hparent⟩ := h.above hq
      have hnext : (if driverOf nodes node.parent = driverOf nodes n then state
          else fresh).node = .root := by
        split
        · exact hstate
        · rfl
      rw [climbNames_snoc hnode, ih hparent hnext, shownName, hstate]

/-- From `self` they are shown where all nodes have that name. -/
theorem climbNames_self (h : Trie nodes paths children) {q : List CString} :
    ∀ {n : ℕ} {state : ProcState}, paths[n]? = some q → state.node = .self →
      driverOf nodes n = some proc →
      (climbNames nodes q.length n state = q ↔ SelfUp nodes proc n) := by
  induction q using List.reverseRecOn with
  | nil =>
      intro n state hq _ _
      rw [h.index_unique hq h.root]
      exact ⟨fun _ => .root, fun _ => rfl⟩
  | append_singleton q name ih =>
      intro n state hq hstate hp
      obtain ⟨hroot, node, hnode, rfl, hparent⟩ := h.above hq
      have hshown : shownName node.name state = selfName := by
        rw [shownName, hstate]
      rw [climbNames_snoc hnode, hshown, List.append_singleton_inj, hp]
      rw [SelfUp.iff hroot hnode]
      by_cases hsame : driverOf nodes node.parent = some proc
      · rw [if_pos hsame, ih hparent hstate hsame]
        constructor
        · rintro ⟨hup, hname⟩
          exact ⟨hname.symm, Or.inr hup⟩
        · rintro ⟨hname, hother | hup⟩
          · exact absurd hsame hother
          · exact ⟨hup, hname.symm⟩
      · rw [if_neg hsame, climbNames_root h hparent rfl]
        constructor
        · rintro ⟨_, hname⟩
          exact ⟨hname.symm, Or.inl hsame⟩
        · rintro ⟨hname, _⟩
          exact ⟨rfl, hname.symm⟩

/-! ## Names that fit -/

/-- A name that can stand in a path and fits the buffer for a name. -/
def Fits (name : CString) : Prop := Clean name ∧ name.length < fileMaxName

theorem pidName_fits (pid : ℤ) : Fits (pidName pid) :=
  ⟨(pidName_clean pid).1, (pidName_clean pid).2.trans_le (Nat.sub_le _ _)⟩

theorem shownName_fits {name : CString} (h : Fits name) (state : ProcState) :
    Fits (shownName name state) := by
  rw [shownName]
  cases state.node with
  | root => exact h
  | proc => exact pidName_fits state.pid
  | fd => exact show Fits fdName from ⟨⟨by decide, by decide⟩, by decide⟩
  | exe => exact show Fits exeName from ⟨⟨by decide, by decide⟩, by decide⟩
  | cwd => exact show Fits cwdName from ⟨⟨by decide, by decide⟩, by decide⟩
  | self => exact show Fits selfName from ⟨⟨by decide, by decide⟩, by decide⟩

theorem innerNames_fits {name : CString} (h : Fits name) :
    ∀ (depth : ℕ) (state : ProcState), ∀ shown ∈ innerNames name depth state, Fits shown
  | 0, _, _, hshown => absurd hshown List.not_mem_nil
  | depth + 1, state, shown, hshown => by
      rw [innerNames] at hshown
      rcases List.mem_append.mp hshown with hshown | hshown
      · exact innerNames_fits h depth state.up shown hshown
      · rw [List.mem_singleton.mp hshown]
        exact shownName_fits h state

theorem climbNames_fits (h : Trie nodes paths children) {q : List CString}
    (hfits : ∀ name ∈ q, Fits name) :
    ∀ {n : ℕ} (state : ProcState), paths[n]? = some q →
      ∀ shown ∈ climbNames nodes q.length n state, Fits shown := by
  induction q using List.reverseRecOn with
  | nil => exact fun _ _ _ hshown => absurd hshown List.not_mem_nil
  | append_singleton q name ih =>
      intro n state hq shown hshown
      obtain ⟨_, node, hnode, rfl, hparent⟩ := h.above hq
      rw [climbNames_snoc hnode] at hshown
      rcases List.mem_append.mp hshown with hshown | hshown
      · exact ih (fun r hr => hfits r (List.mem_append_left _ hr)) _ hparent shown hshown
      · rw [List.mem_singleton.mp hshown]
        exact shownName_fits (hfits _ (List.mem_append_right _ (List.mem_singleton_self _))) state

end Climb

section Loop

variable {m : Mounts (ProcWorld E)} {h : Surroundings E} {proc : ℕ}
  {others : ℕ → FilesystemDriver E} {lookups : Lookup E} {paths : List (List CString)}
  {children : ℕ → List ℕ} {table : ProcessTable} {vref : VRef} {w : ProcWorld E} {n depth : ℕ}
  {state : ProcState}

/-- A step of the trace takes the name of the state, or that of the node. -/
theorem Stands.traceName_eq (hst : Stands m.nodes proc table vref w n depth state)
    (hlookups : Nameless proc lookups) (hdepth : driverOf m.nodes n ≠ some proc → depth = 0)
    (node : VNode) :
    traceName (systemLookup proc lookups) node vref w = shownName node.name state := by
  obtain ⟨d, hdn, hdv⟩ := hst.driver
  rw [traceName, hdv]
  dsimp only
  by_cases hp : d = proc
  · subst hp
    have hstate : w.states vref.state = state := by
      have hcontent := hst.content
      rwa [Procfs.content, if_pos hdv] at hcontent
    have hlookup : systemLookup d lookups d vref w = procfsLookup vref w := if_pos rfl
    rw [hlookup, procfsLookup, hstate, shownName]
    cases state.node with
    | root => rfl
    | proc => rfl
    | fd => rfl
    | exe => rfl
    | cwd => rfl
    | self => rfl
  · have hlookup : systemLookup proc lookups d vref w = lookups d vref w.rest := if_neg hp
    have hzero : vref.offset = 0 := by
      rw [hst.offset, hdepth]
      · rfl
      · rw [hdn]
        exact fun heq => hp (Option.some.inj heq)
    have hfresh : state = fresh := by
      rw [← hst.content, Procfs.content, if_neg]
      rw [hdv]
      exact fun heq => hp (Option.some.inj heq)
    rw [hlookup, if_pos (hlookups d hp vref w.rest hzero), hfresh]
    rfl

/-- Below a mount node the trace goes up through the state machine. -/
theorem System.traceLoop_inner (hs : System m h proc others paths children)
    (hlookups : Nameless proc lookups) (hp : driverOf m.nodes n = some proc) {node : VNode}
    (hnode : m.nodes[n]? = some node) (room : ℕ) :
    ∀ (depth : ℕ) {vref : VRef} {w : ProcWorld E} {state : ProcState} (acc : List CString),
      Stands m.nodes proc table vref w n depth state →
      ∃ v' w', Stands m.nodes proc table v' w' n 0 (upBy depth state) ∧
        traceLoop m (systemLookup proc lookups) (room + depth) vref w acc =
          traceLoop m (systemLookup proc lookups) room v' w'
            (innerNames node.name depth state ++ acc)
  | 0, vref, w, state, acc, hst => ⟨vref, w, hst, rfl⟩
  | depth + 1, vref, w, state, acc, hst => by
      have hpos : vref.offset > 0 := by
        rw [hst.offset]
        exact Int.natCast_succ_pos depth
      have hdown : vref.offset - 1 = (depth : ℤ) := by
        rw [hst.offset]
        push_cast
        omega
      obtain ⟨o, ho, hproc, _⟩ := hs.within hst depth upName 0
      obtain ⟨_, hnext⟩ := hproc hp
      rw [openState_up] at hnext
      obtain ⟨v', w', hdone, hloop⟩ := hs.traceLoop_inner hlookups hp hnode room depth
        (shownName node.name state :: acc) hnext
      refine ⟨v', w', hdone, ?_⟩
      have henter : vfsEnter m vref [46, 46] 0 w = some o := by
        rw [vfsEnter_up 0 hpos, hdown]
        exact ho
      have hname := hst.traceName_eq hlookups (fun hne => absurd hp hne) node
      have hgo : ¬ (vref.node = 0 ∧ vref.offset = 0) := fun hstop => by
        rw [hstop.2] at hpos
        exact absurd hpos (Int.lt_irrefl 0)
      rw [← Nat.add_assoc, traceLoop, if_neg hgo, hst.node, hnode, Option.bind_eq_bind,
        Option.bind_some, henter, Option.bind_eq_bind, Option.bind_some, hname]
      refine hloop.trans ?_
      rw [innerNames, List.append_assoc]
      rfl

/-- From a mount node it goes up through the mount tree. -/
theorem System.traceLoop_outer (hs : System m h proc others paths children)
    (hlookups : Nameless proc lookups) (room : ℕ) (q : List CString) :
    ∀ {n : ℕ} {vref : VRef} {w : ProcWorld E} {state : ProcState} (acc : List CString),
      paths[n]? = some q → Driven m.nodes paths q → Stands m.nodes proc table vref w n 0 state →
      ∃ v' w', w'.table = table ∧
        traceLoop m (systemLookup proc lookups) (room + q.length) vref w acc =
          some (climbNames m.nodes q.length n state ++ acc, v', w') := by
  induction q using List.reverseRecOn with
  | nil =>
      intro n vref w state acc hq _ hst
      have hzero : n = 0 := hs.trie.index_unique hq hs.trie.root
      refine ⟨vref, w, hst.table, ?_⟩
      cases room with
      | zero => rfl
      | succ room =>
          have hstop : vref.node = 0 ∧ vref.offset = 0 := ⟨hst.node.trans hzero, hst.offset⟩
          exact if_pos hstop
  | append_singleton q name ih =>
      intro n vref w state acc hq hdriven hst
      obtain ⟨hroot, node, hnode, _, hparent⟩ := hs.trie.above hq
      have hdp : driverOf m.nodes node.parent ≠ none :=
        hdriven _ _ hparent (List.prefix_append _ _)
      obtain ⟨o, ho, _, hnext⟩ := hs.move hst hdp
      obtain ⟨v', w', htable, hloop⟩ := ih (shownName node.name state :: acc) hparent
        (fun i r hi hr => hdriven i r hi (hr.trans (List.prefix_append _ _))) hnext
      refine ⟨v', w', htable, ?_⟩
      have hnode' : m.nodes[vref.node]? = some node := by rwa [hst.node]
      have henter : vfsEnter m vref [46, 46] 0 w = some o := by
        rw [vfsEnter_out hnode' 0 (by rw [hst.offset]; exact Int.lt_irrefl 0)]
        exact ho
      have hname := hst.traceName_eq hlookups (fun _ => rfl) node
      have hgo : ¬ (vref.node = 0 ∧ vref.offset = 0) :=
        fun hstop => hroot (hst.node.symm.trans hstop.1)
      rw [List.length_append, List.length_singleton, ← Nat.add_assoc, traceLoop, if_neg hgo,
        hnode', Option.bind_eq_bind, Option.bind_some, henter, Option.bind_eq_bind, Option.bind_some,
        hname]
      refine hloop.trans ?_
      rw [climbNames, hnode, List.append_assoc]
      rfl

/-- A copy stands where the reference stands. -/
theorem System.copy (hs : System m h proc others paths children)
    (hst : Stands m.nodes proc table vref w n depth state) :
    Stands m.nodes proc table (vfsRefcpy m vref w).1 (vfsRefcpy m vref w).2 n depth state := by
  obtain ⟨d, hdn, hdv⟩ := hst.driver
  have heq : vfsRefcpy m vref w =
      let cloned := (m.drivers d).clone ⟨vref.node, vref.offset, some d, 0⟩ vref w
      (⟨vref.node, vref.offset, some d, cloned.2.1⟩, cloned.2.2) := by
    rw [vfsRefcpy, hdv]
    rfl
  rw [heq]
  by_cases hp : d = proc
  · subst hp
    rw [hs.driver_proc]
    refine ⟨hst.node, hst.offset, ⟨d, hdn, rfl⟩, ?_, hst.table⟩
    have hcontent := hst.content
    rw [content, if_pos hdv] at hcontent
    rw [← hcontent]
    exact (if_pos rfl).trans (ProcWorld.put_states_self _ _ _)
  · rw [hs.driver_other hp]
    refine ⟨hst.node, hst.offset, ⟨d, hdn, rfl⟩, ?_, hst.table⟩
    rw [← hst.content, content, content, hdv, if_neg fun heq => hp (Option.some.inj heq),
      if_neg fun heq => hp (Option.some.inj heq)]

/-- What `vfs_trace` writes, and that it leaves the process table alone. -/
theorem System.vfsTrace_eq (hs : System m h proc others paths children)
    (hlookups : Nameless proc lookups) (hp : driverOf m.nodes n = some proc) {node : VNode}
    (hnode : m.nodes[n]? = some node) {q : List CString} (hq : paths[n]? = some q)
    (hdriven : Driven m.nodes paths q) (hst : Stands m.nodes proc table vref w n depth state)
    (hcount : q.length + depth ≤ pathMaxResolves) (size : ℕ) :
    ∃ w', w'.table = table ∧ vfsTrace m (systemLookup proc lookups) vref size w =
      some (traceOutput size (climbNames m.nodes q.length n (upBy depth state) ++
        innerNames node.name depth state) [slash], w') := by
  have hcopy := hs.copy hst
  generalize hcopied : vfsRefcpy m vref w = copied at hcopy
  obtain ⟨d, hdn, hdv⟩ := hcopy.driver
  have hupdate : vfsUpdate m copied.1 copied.2 = some ⟨0, copied.1, copied.2⟩ :=
    vfsUpdate_same hdv (by rw [hcopy.node]; exact hdn)
  have hroom : pathMaxResolves = pathMaxResolves - (q.length + depth) + q.length + depth := by
    omega
  obtain ⟨v₁, w₁, hup, hinner⟩ := hs.traceLoop_inner hlookups hp hnode
    (pathMaxResolves - (q.length + depth) + q.length) depth [] hcopy
  obtain ⟨v₂, w₂, htable, houter⟩ := hs.traceLoop_outer hlookups
    (pathMaxResolves - (q.length + depth)) q (innerNames node.name depth state ++ []) hq hdriven hup
  refine ⟨(vfsClose m v₂ w₂).world, ?_, ?_⟩
  · rw [vfsClose]
    cases v₂.driver with
    | none => exact htable
    | some d => exact (hs.close_table d v₂ w₂).trans htable
  · rw [← hroom, houter, List.append_nil] at hinner
    rw [vfsTrace, hcopied]
    rw [hupdate, Option.bind_eq_bind, Option.bind_some, hinner]
    rfl

end Loop

/-! ## Opening an absolute path -/

theorem uniform_plan {flags : ℕ} {ns : List CString} (hns : ∀ name ∈ ns, Ordinary name) :
    Uniform flags (plan flags ns) := by
  intro step hstep
  constructor
  · apply hns
    rw [← plan_names flags ns]
    exact List.mem_map_of_mem hstep
  · rcases plan_flags flags ns step hstep with hflag | hflag
    · rw [hflag]
    · rw [hflag, nofollow_directoryFlags]

section Opening

variable {m : Mounts (ProcWorld E)} {h : Surroundings E} {proc : ℕ}
  {others : ℕ → FilesystemDriver E} {paths : List (List CString)} {children : ℕ → List ℕ}
  {relation : VRef} {path : CString} {flags : ℕ} {w : ProcWorld E} {n : ℕ}
  {rest : List CString}

theorem start_absolute (hpath : charAt path 0 = slash) :
    start m relation path w = vfsUpdate m vfsRoot w := by
  rw [start, if_pos hpath]
  rfl

/-- The root can only be updated where it has a driver. -/
theorem driverOf_root_ne_none {o : Outcome (ProcWorld E)} (ho : vfsUpdate m vfsRoot w = some o) :
    driverOf m.nodes 0 ≠ none := by
  rw [vfsUpdate] at ho
  obtain ⟨node, hnode, ho⟩ := Option.bind_eq_some_iff.mp ho
  obtain ⟨driver, hdriver, _⟩ := Option.bind_eq_some_iff.mp ho
  have hroot : m.nodes[0]? = some node := hnode
  rw [driverOf, hroot, Option.bind_some, hdriver]
  exact Option.some_ne_none driver

/-- A path that was opened into the process file system leads over nodes with
drivers and through the state machine. -/
theorem System.opened_inv (hs : System m h proc others paths children)
    (hpath : charAt path 0 = slash) (hns : ∀ name ∈ names path, Ordinary name)
    (hdescend : descend m.nodes 0 (names path) = (n, rest)) {o : Outcome (ProcWorld E)}
    (ho : vfsOpenGuarded m relation path flags w = some o) (hres : o.res = 0)
    (hdriver : o.vref.driver = some proc) :
    Acceptable (names path) ∧ driverOf m.nodes n = some proc ∧
      (∃ q, paths[n]? = some q ∧ names path = q ++ rest ∧ Driven m.nodes paths q) ∧
      ∃ final, openAll w.table flags fresh rest = some final ∧
        Stands m.nodes proc w.table o.vref o.world n rest.length final := by
  have hacceptable := acceptable_of_vfsOpenGuarded ho hres
  rw [vfsOpenGuarded_of_acceptable hacceptable, start_absolute hpath] at ho
  obtain ⟨o₀, hstart, ho⟩ := Option.bind_eq_some_iff.mp ho
  have hd₀ := driverOf_root_ne_none hstart
  obtain ⟨o₁, hbegin, _, hst⟩ := hs.begin hd₀ w
  rw [hstart] at hbegin
  cases hbegin
  have hdriven : Driven m.nodes paths [] := by
    intro i p hi hp
    rw [List.prefix_nil.mp hp] at hi
    rw [hs.trie.index_unique hi hs.trie.root]
    exact hd₀
  obtain ⟨hp, hq, hfinal⟩ :=
    hs.walk_inv (uniform_plan hns) hs.trie.root hdriven hst ho hres hdriver
  obtain ⟨q, hnames, hpathq⟩ := hs.trie.descend_spec (names path) hs.trie.root
  rw [plan_names, hdescend] at hp hq hfinal
  rw [hdescend] at hnames hpathq
  rw [List.nil_append] at hpathq
  exact ⟨hacceptable, hp, ⟨q, hpathq, hnames, hq q hpathq⟩, hfinal⟩

/-- Such a path can be opened. -/
theorem System.opened (hs : System m h proc others paths children)
    (hpath : charAt path 0 = slash) (hns : ∀ name ∈ names path, Ordinary name)
    (hacceptable : Acceptable (names path))
    (hdescend : descend m.nodes 0 (names path) = (n, rest)) {q : List CString}
    (hq : paths[n]? = some q) (hdriven : Driven m.nodes paths q)
    (hp : driverOf m.nodes n = some proc) {final : ProcState}
    (hall : openAll w.table flags fresh rest = some final) :
    ∃ o, vfsOpenGuarded m relation path flags w = some o ∧ o.res = 0 ∧
      Stands m.nodes proc w.table o.vref o.world n rest.length final := by
  have hd₀ := hdriven 0 [] hs.trie.root (List.nil_prefix)
  obtain ⟨o₁, hbegin, _, hst⟩ := hs.begin hd₀ w
  have hplan := plan_names flags (names path)
  have hwalk : ∃ o, enterAllGuarded m (plan flags (names path)) o₁.vref o₁.world = some o ∧
      o.res = 0 ∧ Stands m.nodes proc w.table o.vref o.world
        (descend m.nodes 0 ((plan flags (names path)).map Prod.fst)).1
        (descend m.nodes 0 ((plan flags (names path)).map Prod.fst)).2.length final := by
    refine hs.walk (uniform_plan hns) hs.trie.root ?_ hdriven ?_ hst ?_
    · rw [hplan, hdescend]
      exact hq
    · rw [hplan, hdescend]
      exact hp
    · rw [hplan, hdescend]
      exact hall
  rw [hplan, hdescend] at hwalk
  obtain ⟨o, ho, hres, hfinal⟩ := hwalk
  refine ⟨o, ?_, hres, hfinal⟩
  rw [vfsOpenGuarded_of_acceptable hacceptable, start_absolute hpath, hbegin, Option.bind_some]
  exact ho

end Opening

end Neos.Procfs
