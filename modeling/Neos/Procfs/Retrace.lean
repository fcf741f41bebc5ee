import Neos.Procfs.Trace
import Neos.Procfs.Depth

/-!
# Opening a trace again

A path that was opened is traced back exactly, and the trace opened again leads
back, for the root of a process file system, for processes that are named by
their number, for a followed `self` as far as the number of the current process
is not hidden, and for descriptors and `self` where links are not followed.
Everything else is traced differently.
-/

namespace Neos.Procfs

open Vfs Scheduler

variable {E : Type}

/-- Two references stand at the same node and depth of the mount tree, and at the
same node and process of the process file system. -/
structure SamePlace (vref : VRef) (w : ProcWorld E) (vref' : VRef) (w' : ProcWorld E) : Prop where
  node : vref'.node = vref.node
  offset : vref'.offset = vref.offset
  driver : vref'.driver = vref.driver
  procNode : (w'.states vref'.state).node = (w.states vref.state).node
  pid : (w'.states vref'.state).pid = (w.states vref.state).pid

/-- The trace of a reference consists of the names that were opened, and opening
it leads back to the reference. -/
def TracedBack (m : Mounts (ProcWorld E)) (lookup : Lookup (ProcWorld E)) (path : CString)
    (flags size : ℕ) (o : Outcome (ProcWorld E)) : Prop :=
  ∃ output w', vfsTrace m lookup o.vref size o.world = some (output, w') ∧
    (∃ front shown, names path = front ++ (descend m.nodes 0 (names path)).2 ∧
      Shown o.world.table flags (descend m.nodes 0 (names path)).2 shown ∧
      output = render (front ++ shown)) ∧
    ∀ relation, ∃ o', vfsOpenGuarded m relation output flags w' = some o' ∧ o'.res = 0 ∧
      SamePlace o.vref o.world o'.vref o'.world

/-- The names below a mount node of the process file system that are traced back:
none; a process by its number; a followed `self` when the current process is
listed and no mount hides its number; an unfollowed `self` where it is also the
name of the nodes above; and the descriptors of a process, where links are not
followed. -/
inductive Traceable (nodes : List VNode) (proc : ℕ) (table : ProcessTable) (flags n : ℕ) :
    List CString → Prop
  | root : Traceable nodes proc table flags n []
  | process {name : CString} (hname : Canonical name) : Traceable nodes proc table flags n [name]
  | current (hflag : nofollow flags = false)
      (hlisted : Listed table (schedulerGetCurrentPid table))
      (hword : toInt (toWord (schedulerGetCurrentPid table)) = schedulerGetCurrentPid table)
      (hbelow : nodeBelow nodes n (pidName (schedulerGetCurrentPid table)) = none) :
      Traceable nodes proc table flags n [selfName]
  | link (hflag : nofollow flags = true) (hself : SelfUp nodes proc n) :
      Traceable nodes proc table flags n [selfName]
  | descriptors {name : CString} (hname : Canonical name) (hflag : nofollow flags = true) :
      Traceable nodes proc table flags n [name, fdName]

section Retrace

variable {m : Mounts (ProcWorld E)} {h : Surroundings E} {proc : ℕ}
  {others : ℕ → FilesystemDriver E} {lookups : Lookup E} {paths : List (List CString)}
  {children : ℕ → List ℕ} {table : ProcessTable} {flags n depth : ℕ} {rest : List CString}
  {final : ProcState}

theorem Traceable.readable (h : Traceable m.nodes proc table flags n rest) :
    Readable flags rest := by
  cases h with
  | root => exact .root
  | process hname => exact .process hname
  | current _ _ _ _ => exact .self
  | link _ _ => exact .self
  | descriptors hname hflag => exact .descriptors hname hflag

/-- References that stand in the same way stand at the same place. -/
theorem Stands.samePlace {vref vref' : VRef} {w w' : ProcWorld E} {table' : ProcessTable}
    (hp : driverOf m.nodes n = some proc) (h₁ : Stands m.nodes proc table vref w n depth final)
    (h₂ : Stands m.nodes proc table' vref' w' n depth final) : SamePlace vref w vref' w' := by
  have hstate : ∀ {table : ProcessTable} {vref : VRef} {w : ProcWorld E},
      Stands m.nodes proc table vref w n depth final →
      vref.driver = some proc ∧ w.states vref.state = final := by
    intro table vref w hst
    obtain ⟨d, hdn, hdv⟩ := hst.driver
    rw [hp] at hdn
    cases hdn
    have hcontent := hst.content
    rw [Procfs.content, if_pos hdv] at hcontent
    exact ⟨hdv, hcontent⟩
  obtain ⟨hd₁, hs₁⟩ := hstate h₁
  obtain ⟨hd₂, hs₂⟩ := hstate h₂
  refine ⟨h₂.node.trans h₁.node.symm, h₂.offset.trans h₁.offset.symm, hd₂.trans hd₁.symm, ?_, ?_⟩
  · rw [hs₁, hs₂]
  · rw [hs₁, hs₂]

/-- The names of a trace fit, wherever it ends. -/
theorem System.trace_fits (hs : System m h proc others paths children)
    (hroot : m.nodes[0]?.map VNode.name = some [114, 111, 111, 116]) {q : List CString}
    (hq : paths[n]? = some q) (hfits : ∀ name ∈ q, Fits name) {node : VNode}
    (hnode : m.nodes[n]? = some node) (depth : ℕ) (state state' : ProcState) :
    ∀ shown ∈ climbNames m.nodes q.length n state ++ innerNames node.name depth state',
      Fits shown := by
  have hname : Fits node.name := by
    rcases List.eq_nil_or_concat q with rfl | ⟨q, name, rfl⟩
    · rw [hs.trie.index_unique hq hs.trie.root] at hnode
      rw [hnode, Option.map_some] at hroot
      rw [Option.some.inj hroot]
      exact ⟨⟨by decide, by decide⟩, by decide⟩
    · rw [List.concat_eq_append] at hq hfits
      obtain ⟨_, node', hnode', hname, _⟩ := hs.trie.above hq
      rw [hnode] at hnode'
      cases hnode'
      rw [hname]
      exact hfits _ (List.mem_append_right _ (List.mem_singleton_self _))
  intro shown hshown
  rcases List.mem_append.mp hshown with hshown | hshown
  · exact climbNames_fits hs.trie hfits state hq shown hshown
  · exact innerNames_fits hname depth state' shown hshown

/-- What `self` leads to. -/
theorem openAll_self (hall : openAll table flags fresh [selfName] = some final) :
    final = ⟨schedulerGetCurrentPid table, if nofollow flags then .self else .proc, 0⟩ := by
  rw [openAll, openState_self rfl, if_pos rfl] at hall
  exact (Option.some.inj hall).symm

/-- A process is opened by its number exactly when it is listed. -/
theorem openAll_pidName (pid : ℤ) :
    openAll table flags fresh [pidName pid] =
      if Listed table (toInt (toWord pid)) then some ⟨toInt (toWord pid), .proc, 0⟩ else none := by
  rw [openAll, openState_root rfl (pidName_ne_self pid), pidOf_pidName]
  by_cases hlisted : Listed table (toInt (toWord pid))
  · rw [if_pos hlisted, if_pos hlisted]
    rfl
  · rw [if_neg hlisted, if_neg hlisted, if_neg (show -linuxEnoent ≠ 0 by decide)]

/-- What the trace of an opened reference is, and what is known about it. -/
theorem System.traced (hs : System m h proc others paths children)
    (hroot : m.nodes[0]?.map VNode.name = some [114, 111, 111, 116])
    (hlookups : Nameless proc lookups) (hp : driverOf m.nodes n = some proc) {q : List CString}
    (hq : paths[n]? = some q) (hdriven : Driven m.nodes paths q) (hfits : ∀ name ∈ q, Fits name)
    (hcount : q.length + depth ≤ pathMaxResolves) {vref : VRef} {w : ProcWorld E}
    (hst : Stands m.nodes proc table vref w n depth final) {size : ℕ} (hsize : traceRoom ≤ size) :
    ∃ nodeName w', w'.table = table ∧
      (∀ shown ∈ climbNames m.nodes q.length n (upBy depth final) ++
        innerNames nodeName depth final, Fits shown) ∧
      vfsTrace m (systemLookup proc lookups) vref size w =
        some (render (climbNames m.nodes q.length n (upBy depth final) ++
          innerNames nodeName depth final), w') := by
  obtain ⟨node, hnode⟩ := hs.trie.node_of_path hq
  obtain ⟨w', htable, htrace⟩ := hs.vfsTrace_eq hlookups hp hnode hq hdriven hst hcount size
  have hall := hs.trace_fits hroot hq hfits hnode depth (upBy depth final) final
  refine ⟨node.name, w', htable, hall, ?_⟩
  rw [htrace, traceOutput_render hsize ?_ fun name hname => (hall name hname).2]
  rw [List.length_append, length_climbNames hs.trie _ hq, length_innerNames]
  exact hcount

/-- The names of what a followed `self` is shown as. -/
theorem Shown.clean {ns actual : List CString} (h : Shown table flags ns actual)
    (hns : ∀ name ∈ ns, Clean name) : ∀ name ∈ actual, Clean name := by
  rcases h with rfl | ⟨_, rest, rfl, rfl⟩
  · exact hns
  · intro name hname
    rcases List.mem_cons.mp hname with rfl | hname
    · exact (pidName_clean _).1
    · exact hns name (List.mem_cons_of_mem _ hname)

/-- A trace that shows what was opened shows the path of the mount node, and
then the names below it. -/
theorem Shown.of_render {q climb inner : List CString}
    (hfits : ∀ shown ∈ climb ++ inner, Fits shown) (hlength : climb.length = q.length)
    (hclean : ∀ name ∈ q ++ rest, Clean name) {front shown : List CString}
    (hfront : q ++ rest = front ++ rest) (hshown : Shown table flags rest shown)
    (heq : render (climb ++ inner) = render (front ++ shown)) :
    climb = q ∧ Shown table flags rest inner := by
  have hq : q = front := List.append_cancel_right hfront
  subst hq
  have hclean' : ∀ name ∈ q ++ shown, Clean name := by
    intro name hname
    rcases List.mem_append.mp hname with hname | hname
    · exact hclean name (List.mem_append_left _ hname)
    · exact hshown.clean (fun r hr => hclean r (List.mem_append_right _ hr)) name hname
  have happend := render_injective (fun name hname => (hfits name hname).1) hclean' heq
  obtain ⟨hclimb, hinner⟩ := List.append_inj happend hlength
  rw [hinner]
  exact ⟨hclimb, hshown⟩

/-- If the number of the current process leads back to a followed `self`, the
process is listed under it and no mount hides it. -/
theorem System.current_of_reopened (hs : System m h proc others paths children)
    (hp : driverOf m.nodes n = some proc) {q : List CString} (hq : paths[n]? = some q)
    (hns : ∀ name ∈ q, Ordinary name) (hclean : ∀ name ∈ q, Clean name) {vref : VRef} {w w' : ProcWorld E}
    (hst : Stands m.nodes proc table vref w n 1 ⟨schedulerGetCurrentPid table, .proc, 0⟩)
    (htable : w'.table = table) {relation : VRef} {o' : Outcome (ProcWorld E)}
    (ho' : vfsOpenGuarded m relation (render (q ++ [pidName (schedulerGetCurrentPid table)])) flags
      w' = some o') (hres : o'.res = 0) (hsame : SamePlace vref w o'.vref o'.world) :
    Listed table (schedulerGetCurrentPid table) ∧
      toInt (toWord (schedulerGetCurrentPid table)) = schedulerGetCurrentPid table ∧
      nodeBelow m.nodes n (pidName (schedulerGetCurrentPid table)) = none := by
  generalize hpid : schedulerGetCurrentPid table = pid at *
  have hnames : names (render (q ++ [pidName pid])) = q ++ [pidName pid] := by
    refine names_render fun name hname => ?_
    rcases List.mem_append.mp hname with hname | hname
    · exact hclean name hname
    · rw [List.mem_singleton.mp hname]
      exact (pidName_clean pid).1
  have hordinary : ∀ name ∈ names (render (q ++ [pidName pid])), Ordinary name := by
    rw [hnames]
    intro name hname
    rcases List.mem_append.mp hname with hname | hname
    · exact hns name hname
    · rw [List.mem_singleton.mp hname]
      exact pidName_ordinary pid
  have hdescend : descend m.nodes 0 (names (render (q ++ [pidName pid]))) =
      descend m.nodes n [pidName pid] := by
    rw [hnames]
    exact hs.trie.descend_append q [pidName pid] hs.trie.root hq
  obtain ⟨d, hdn, hdv⟩ := hst.driver
  rw [hp] at hdn
  cases hdn
  have hdriver' : o'.vref.driver = some proc := hsame.driver.trans hdv
  have hstate : w.states vref.state = ⟨pid, .proc, 0⟩ := by
    have hcontent := hst.content
    rwa [Procfs.content, if_pos hdv] at hcontent
  cases hbelow : nodeBelow m.nodes n (pidName pid) with
  | some child =>
      -- the reopened reference would stand at the child
      exfalso
      have hend : descend m.nodes n [pidName pid] = (child, []) := by
        rw [descend, hbelow]
        rfl
      obtain ⟨_, _, ⟨r, hr, hnames', _⟩, _, _, hst'⟩ :=
        hs.opened_inv rfl hordinary (hdescend.trans hend) ho' hres hdriver'
      have hnode : child = n := hst'.node.symm.trans (hsame.node.trans hst.node)
      rw [hnode, hq] at hr
      cases hr
      rw [hnames, List.append_nil] at hnames'
      simp at hnames'
  | none =>
      have hend : descend m.nodes n [pidName pid] = (n, [pidName pid]) := by
        rw [descend, hbelow]
      obtain ⟨_, _, _, final, hall, hst'⟩ :=
        hs.opened_inv rfl hordinary (hdescend.trans hend) ho' hres hdriver'
      rw [openAll_pidName, htable] at hall
      have hcontent := hst'.content
      rw [Procfs.content, if_pos hdriver'] at hcontent
      by_cases hlisted : Listed table (toInt (toWord pid))
      · rw [if_pos hlisted] at hall
        cases hall
        have hword : toInt (toWord pid) = pid := by
          have hpid' := hsame.pid
          rw [hcontent, hstate] at hpid'
          exact hpid'
        exact ⟨hword ▸ hlisted, hword, rfl⟩
      · rw [if_neg hlisted] at hall
        cases hall

/-- The trace of a traceable reference can be opened, and leads back. -/
theorem System.reopened (hs : System m h proc others paths children)
    (hp : driverOf m.nodes n = some proc) {q : List CString} (hq : paths[n]? = some q)
    (hdriven : Driven m.nodes paths q) (hns : ∀ name ∈ q ++ rest, Ordinary name)
    (hclean : ∀ name ∈ q ++ rest, Clean name) (hacceptable : Acceptable (q ++ rest))
    (hend : descend m.nodes n rest = (n, rest))
    (hall : openAll table flags fresh rest = some final) {vref : VRef} {w w' : ProcWorld E}
    (hst : Stands m.nodes proc table vref w n rest.length final) (htable : w'.table = table)
    (htraceable : Traceable m.nodes proc table flags n rest) {inner : List CString}
    (hshown : Shown table flags rest inner) (relation : VRef) :
    ∃ o', vfsOpenGuarded m relation (render (q ++ inner)) flags w' = some o' ∧ o'.res = 0 ∧
      SamePlace vref w o'.vref o'.world := by
  have hmembers : ∀ {P : CString → Prop}, (∀ name ∈ q ++ rest, P name) →
      P (pidName (schedulerGetCurrentPid table)) → ∀ name ∈ q ++ inner, P name := by
    intro P hP hpid name hname
    rcases List.mem_append.mp hname with hname | hname
    · exact hP name (List.mem_append_left _ hname)
    · rcases hshown with rfl | ⟨_, tail, rfl, rfl⟩
      · exact hP name (List.mem_append_right _ hname)
      · rcases List.mem_cons.mp hname with rfl | hname
        · exact hpid
        · exact hP name (List.mem_append_right _ (List.mem_cons_of_mem _ hname))
  have hnames : names (render (q ++ inner)) = q ++ inner :=
    names_render (hmembers hclean (pidName_clean _).1)
  have hlength : inner.length = rest.length := by
    rcases hshown with rfl | ⟨_, tail, rfl, rfl⟩
    · rfl
    · rfl
  have hacceptable' : Acceptable (names (render (q ++ inner))) := by
    rw [hnames]
    refine ⟨?_, hmembers hacceptable.2 (pidName_clean _).2⟩
    rw [List.length_append, hlength, ← List.length_append]
    exact hacceptable.1
  have hopened : descend m.nodes n inner = (n, inner) ∧
      openAll table flags fresh inner = some final := by
    rcases hshown with rfl | ⟨hoff, tail, rfl, rfl⟩
    · exact ⟨hend, hall⟩
    · cases htraceable with
      | process hname => exact absurd hname not_canonical_self
      | link hon _ =>
          rw [hoff] at hon
          cases hon
      | descriptors hname _ => exact absurd hname not_canonical_self
      | current _ hlisted hword hbelow =>
          constructor
          · rw [descend, hbelow]
          · rw [openAll_pidName, hword, if_pos hlisted, openAll_self hall, hoff]
            rfl
  have hdescend : descend m.nodes 0 (names (render (q ++ inner))) = (n, inner) := by
    rw [hnames]
    exact (hs.trie.descend_append q inner hs.trie.root hq).trans hopened.1
  have hordinary : ∀ name ∈ names (render (q ++ inner)), Ordinary name := by
    rw [hnames]
    exact hmembers hns (pidName_ordinary _)
  obtain ⟨o', ho', hres, hst'⟩ := hs.opened rfl hordinary hacceptable' hdescend hq hdriven hp
    (htable.symm ▸ hopened.2)
  rw [hlength] at hst'
  exact ⟨o', ho', hres, hst.samePlace hp hst'⟩

end Retrace

section Main

variable {m : Mounts (ProcWorld E)} {h : Surroundings E} {proc : ℕ}
  {others : ℕ → FilesystemDriver E} {lookups : Lookup E}

/-- For every mount tree and every absolute path of ordinary names that was opened
into the process file system: the trace is what was opened and leads back exactly
when the names below the mount node are traceable. -/
theorem tracedBack_iff {mounts : List (CString × ℕ)}
    (hbuilt : vfsMountAll (vfsInit (systemDrivers h proc others)) mounts = some m)
    (hothers : Dependable proc others) (hlookups : Nameless proc lookups) {relation : VRef}
    {path : CString} {flags : ℕ} {w : ProcWorld E} {o : Outcome (ProcWorld E)}
    (hpath : charAt path 0 = slash) (hns : ∀ name ∈ names path, Ordinary name)
    (ho : vfsOpenGuarded m relation path flags w = some o) (hres : o.res = 0)
    (hdriver : o.vref.driver = some proc) {size : ℕ} (hsize : traceRoom ≤ size) :
    TracedBack m (systemLookup proc lookups) path flags size o ↔
      Traceable m.nodes proc w.table flags (descend m.nodes 0 (names path)).1
        (descend m.nodes 0 (names path)).2 := by
  obtain ⟨m', paths, children, hbuilt', hdrivers, hholds⟩ :=
    vfsMountAll_holds _ (absolute_of_vfsMountAll hbuilt)
  rw [hbuilt] at hbuilt'
  cases hbuilt'
  have hs : System m h proc others paths children := ⟨hholds.trie, hdrivers, hothers⟩
  have hroot : m.nodes[0]?.map VNode.name = some [114, 111, 111, 116] := by
    obtain ⟨new, hnew⟩ := vfsMountAll_names hbuilt
    rw [← List.getElem?_map, ← hnew]
    rfl
  obtain ⟨n, rest, hdescend⟩ : ∃ n rest, descend m.nodes 0 (names path) = (n, rest) := ⟨_, _, rfl⟩
  obtain ⟨hacceptable, hp, ⟨q, hq, hnames, hdriven⟩, final, hall, hst⟩ :=
    hs.opened_inv hpath hns hdescend ho hres hdriver
  have hclean := names_clean path
  rw [hnames] at hclean hns hacceptable
  have hfits : ∀ name ∈ q, Fits name := fun name hname =>
    ⟨hclean name (List.mem_append_left _ hname),
      (hacceptable.2 name (List.mem_append_left _ hname)).trans_le (Nat.sub_le _ _)⟩
  have hcount : q.length + rest.length ≤ pathMaxResolves := by
    rw [← List.length_append]
    exact hacceptable.1
  have hrest : ∀ name ∈ rest, Ordinary name := fun name hname =>
    hns name (List.mem_append_right _ hname)
  obtain ⟨nodeName, w', htable, hshownFits, htrace⟩ :=
    hs.traced hroot hlookups hp hq hdriven hfits hcount hst hsize
  have hlength := length_climbNames hs.trie (upBy rest.length final) hq
  have hend : descend m.nodes n rest = (n, rest) := by
    rw [← hdescend, hnames]
    exact (hs.trie.descend_append q rest hs.trie.root hq).symm
  have hinner := shown_innerNames_iff hrest hall nodeName
  rw [TracedBack, hdescend, hst.table]
  dsimp only
  constructor
  · rintro ⟨output, w₁, htrace', ⟨front, shown, hfront, hshown, rfl⟩, hreopen⟩
    rw [htrace] at htrace'
    obtain ⟨hrender, rfl⟩ := Prod.mk.inj (Option.some.inj htrace')
    obtain ⟨hclimb, hshown'⟩ := Shown.of_render hshownFits hlength hclean
      (hnames.symm.trans hfront) hshown hrender
    rw [← hrender, hclimb] at hreopen
    cases hinner.mp hshown' with
    | root => exact .root
    | process hname => exact .process hname
    | descriptors hname hflag => exact .descriptors hname hflag
    | self =>
        have hfinal := openAll_self hall
        subst hfinal
        cases hflag : nofollow flags with
        | true =>
            rw [hflag] at hclimb
            exact .link hflag ((climbNames_self hs.trie hq rfl hp).mp hclimb)
        | false =>
            rw [hflag] at hst hreopen
            obtain ⟨o', ho', hres', hsame⟩ := hreopen relation
            obtain ⟨hlisted, hword, hbelow⟩ := hs.current_of_reopened hp hq
              (fun name hname => hns name (List.mem_append_left _ hname))
              (fun name hname => hclean name (List.mem_append_left _ hname)) hst htable ho' hres'
              hsame
            exact .current hflag hlisted hword hbelow
  · intro htraceable
    have hshown := hinner.mpr htraceable.readable
    have hclimb : climbNames m.nodes q.length n (upBy rest.length final) = q := by
      rcases upBy_of_readable hrest hall htraceable.readable with hup | ⟨hon, rfl, hup⟩
      · exact climbNames_root hs.trie hq hup
      · rw [climbNames_self hs.trie hq hup hp]
        cases htraceable with
        | process hname => exact absurd hname not_canonical_self
        | current hoff _ _ _ =>
            rw [hoff] at hon
            cases hon
        | link _ hself => exact hself
    rw [hclimb] at htrace
    exact ⟨_, w', htrace, ⟨q, _, hnames, hshown, rfl⟩, hs.reopened hp hq hdriven hns hclean
      hacceptable hend hall hst htable htraceable hshown⟩

end Main

/-! ## A small system with two mounts -/

/-- The process file system at the root, and another driver at `/x`. -/
def sharedTree : Mounts (ProcWorld Unit) where
  nodes :=
    [⟨none, some 1, 0, some 1, [114, 111, 111, 116]⟩, ⟨none, none, 0, some 2, [120]⟩]
  drivers := systemDrivers oneBlock 1 fun _ => quietDriver

/-- Other drivers have no names at all. -/
def noNames : Lookup Unit := fun _ _ _ => (-1, [])

theorem sharedTree_built :
    vfsMountAll (vfsInit (systemDrivers oneBlock 1 fun _ => quietDriver))
      [([47], 1), ([47, 120], 2)] = some sharedTree := rfl

/-- The theorem for the process `/1`. -/
theorem tracedBack_process :
    ∃ o, vfsOpenGuarded sharedTree vfsRoot [47, 49] 0 smallWorld = some o ∧ o.res = 0 ∧
      TracedBack sharedTree (systemLookup 1 noNames) [47, 49] 0 traceRoom o := by
  have hnames : names [47, 49] = [[49]] := by
    rw [names, sections_cons (by decide), sections_nil (by decide)]
    rfl
  refine ⟨_, vfsOpenGuarded_of_vfsOpen rfl, rfl, ?_⟩
  refine (tracedBack_iff sharedTree_built (fun _ _ => ⟨fun _ _ => rfl, fun _ _ => rfl⟩)
    (fun _ _ _ _ _ => show (-1 : ℤ) ≠ 0 by decide) (by decide) ?_ (vfsOpenGuarded_of_vfsOpen rfl)
    rfl rfl le_rfl).mpr ?_
  · rw [hnames]
    intro name hname
    rw [List.mem_singleton.mp hname]
    exact ⟨by decide, by decide⟩
  · rw [hnames]
    exact .process (by decide)

/-- The working directory of a process is traced as `/cwd/cwd/`. -/
theorem working_directory_not_tracedBack :
    ∃ o, vfsOpenGuarded sharedTree vfsRoot [47, 49, 47, 99, 119, 100] 0 smallWorld = some o ∧
      o.res = 0 ∧ o.vref.driver = some 1 ∧
      ¬ TracedBack sharedTree (systemLookup 1 noNames) [47, 49, 47, 99, 119, 100] 0 traceRoom o := by
  have hnames : names [47, 49, 47, 99, 119, 100] = [[49], cwdName] := by
    rw [names, sections_cons (by decide), sections_cons (by decide), sections_nil (by decide)]
    rfl
  refine ⟨_, vfsOpenGuarded_of_vfsOpen rfl, rfl, rfl, ?_⟩
  rintro ⟨output, w', htrace, ⟨front, shown, hfront, hshown, rfl⟩, _⟩
  rw [hnames] at hfront hshown
  have hend : (descend sharedTree.nodes 0 [[49], cwdName]).2 = [[49], cwdName] := rfl
  rw [hend] at hfront hshown
  have hnil : front = [] := List.self_eq_append_left.mp hfront
  have hsame : shown = [[49], cwdName] := by
    rcases hshown with heq | ⟨_, tail, heq, _⟩
    · exact heq
    · exact absurd (List.cons.inj heq).1 (by decide)
  have hwritten : render ([] ++ [[49], cwdName]) = render [cwdName, cwdName] := by
    rw [hnil, hsame] at htrace
    exact (congrArg Prod.fst (Option.some.inj htrace)).symm
  exact absurd hwritten (by decide)

end Neos.Procfs
