import Neos.Procfs.Names

/-!
# Where a reference stands

In a system with one process file system and other drivers beside it, a
reference is a node of the mount tree, a depth below it, and the state of the
process file system where that is the driver.  Steps of a reference are steps of
these three.
-/

namespace Neos.Procfs

open Vfs Scheduler

variable {E : Type}

/-! ## A system -/

/-- A driver that works neither on the state blocks nor on the process table. -/
def beside (driver : FilesystemDriver E) : FilesystemDriver (ProcWorld E) where
  root vref w :=
    let r := driver.root vref w.rest
    (r.1, r.2.1, { w with rest := r.2.2 })
  clone dst src w :=
    let r := driver.clone dst src w.rest
    (r.1, r.2.1, { w with rest := r.2.2 })
  openPart vref part flags w :=
    let r := driver.openPart vref part flags w.rest
    (r.1, r.2.1, { w with rest := r.2.2 })
  close vref w :=
    let r := driver.close vref w.rest
    (r.1, r.2.1, { w with rest := r.2.2 })
  remove vref rmdir w :=
    let r := driver.remove vref rmdir w.rest
    (r.1, r.2.1, { w with rest := r.2.2 })
  stat vref w :=
    let r := driver.stat vref w.rest
    (r.1, r.2.1, { w with rest := r.2.2 })

/-- The process file system and other drivers. -/
def systemDrivers (h : Surroundings E) (proc : ℕ) (others : ℕ → FilesystemDriver E) :
    ℕ → FilesystemDriver (ProcWorld E) :=
  fun d => if d = proc then procfs h else beside (others d)

/-- Drivers whose roots can always be loaded and whose references can always be
closed. -/
def Dependable (proc : ℕ) (others : ℕ → FilesystemDriver E) : Prop :=
  ∀ d, d ≠ proc → (∀ vref e, ((others d).root vref e).1 = 0) ∧
    ∀ vref e, ((others d).close vref e).1 = 0

/-- A mount tree over such drivers. -/
structure System (m : Mounts (ProcWorld E)) (h : Surroundings E) (proc : ℕ)
    (others : ℕ → FilesystemDriver E) (paths : List (List CString)) (children : ℕ → List ℕ) :
    Prop where
  trie : Trie m.nodes paths children
  drivers : m.drivers = systemDrivers h proc others
  dependable : Dependable proc others

/-- The state of a reference, or that of a fresh one under other drivers. -/
def content (proc : ℕ) (vref : VRef) (w : ProcWorld E) : ProcState :=
  if vref.driver = some proc then w.states vref.state else fresh

/-- A reference stands at a node and a depth with a state. -/
structure Stands (nodes : List VNode) (proc : ℕ) (table : ProcessTable) (vref : VRef)
    (w : ProcWorld E) (n depth : ℕ) (state : ProcState) : Prop where
  node : vref.node = n
  offset : vref.offset = depth
  driver : ∃ d, driverOf nodes n = some d ∧ vref.driver = some d
  content : content proc vref w = state
  table : w.table = table

section System

variable {m : Mounts (ProcWorld E)} {h : Surroundings E} {proc : ℕ}
  {others : ℕ → FilesystemDriver E} {paths : List (List CString)} {children : ℕ → List ℕ}
  {table : ProcessTable} {vref : VRef} {w : ProcWorld E} {n depth : ℕ} {state : ProcState}

theorem System.driver_proc (hs : System m h proc others paths children) :
    m.drivers proc = procfs h := by
  rw [hs.drivers]
  exact if_pos rfl

theorem System.driver_other (hs : System m h proc others paths children) {d : ℕ} (hd : d ≠ proc) :
    m.drivers d = beside (others d) := by
  rw [hs.drivers]
  exact if_neg hd

theorem System.steady (hs : System m h proc others paths children) : Steady m := by
  intro d
  by_cases hd : d = proc
  · subst hd
    rw [hs.driver_proc]
    exact ⟨fun _ _ => rfl, fun _ _ => rfl⟩
  · rw [hs.driver_other hd]
    exact ⟨fun _ w => (hs.dependable d hd).1 _ w.rest, fun _ w => (hs.dependable d hd).2 _ w.rest⟩

/-- Closing a reference does not touch the process table. -/
theorem System.close_table (hs : System m h proc others paths children) (d : ℕ) (vref : VRef)
    (w : ProcWorld E) : ((m.drivers d).close vref w).2.2.table = w.table := by
  by_cases hd : d = proc
  · subst hd
    rw [hs.driver_proc]
    rfl
  · rw [hs.driver_other hd]
    rfl

theorem System.root_table (hs : System m h proc others paths children) (d : ℕ) (vref : VRef)
    (w : ProcWorld E) : ((m.drivers d).root vref w).2.2.table = w.table := by
  by_cases hd : d = proc
  · subst hd
    rw [hs.driver_proc]
    rfl
  · rw [hs.driver_other hd]
    rfl

/-! ## Updating a reference -/

/-- A reference after an update that went through. -/
structure Refreshed (proc d : ℕ) (vref : VRef) (w : ProcWorld E) (o : Outcome (ProcWorld E)) :
    Prop where
  res : o.res = 0
  node : o.vref.node = vref.node
  offset : o.vref.offset = vref.offset
  driver : o.vref.driver = some d
  content : content proc o.vref o.world = if vref.driver = some d then content proc vref w else fresh
  table : o.world.table = w.table

/-- At a node with a driver an update goes through; a new driver starts with a
fresh state. -/
theorem System.vfsUpdate_spec (hs : System m h proc others paths children) (vref : VRef)
    (w : ProcWorld E) {d : ℕ} (hd : driverOf m.nodes vref.node = some d) :
    ∃ o, vfsUpdate m vref w = some o ∧ Refreshed proc d vref w o := by
  obtain ⟨o, ho, _, _, hsteady⟩ :=
    vfsUpdate_of_driver vref w (by rw [hd]; exact Option.some_ne_none d)
  have hres := hsteady hs.steady
  obtain ⟨d', hd', hdriver, hnode, hoffset, hkept⟩ := vfsUpdate_success ho hres
  rw [hd] at hd'
  cases hd'
  refine ⟨o, ho, ?_⟩
  rcases hkept with ⟨hsame, hstate, hworld⟩ | ⟨hother, v, w', hreach, hroot⟩
  · refine ⟨hres, hnode, hoffset, hdriver, ?_, by rw [hworld]⟩
    rw [if_pos hsame, content, content, hworld, hsame, hdriver, hstate]
  · have htable : o.world.table = w.table := by
      have hafter := hs.root_table d v w'
      rw [hroot] at hafter
      rw [hafter]
      rcases hreach with rfl | ⟨old, v', rfl⟩
      · rfl
      · exact hs.close_table old v' w
    refine ⟨hres, hnode, hoffset, hdriver, ?_, htable⟩
    rw [if_neg hother, content, hdriver]
    by_cases hp : d = proc
    · subst hp
      rw [hs.driver_proc] at hroot
      have hstate : o.vref.state = (h.kmalloc w'.rest).1 :=
        (congrArg (fun r => r.2.1) hroot).symm
      have hworld : o.world = ({ w' with rest := (h.kmalloc w'.rest).2 } : ProcWorld E).put
          (h.kmalloc w'.rest).1 fresh := (congrArg (fun r => r.2.2) hroot).symm
      rw [if_pos rfl, hstate, hworld, ProcWorld.put_states_self]
    · exact if_neg fun heq => hp (Option.some.inj heq)

/-- Moving to another node of the tree. -/
theorem System.move (hs : System m h proc others paths children)
    (hst : Stands m.nodes proc table vref w n 0 state) {n' : ℕ}
    (hd : driverOf m.nodes n' ≠ none) :
    ∃ o, vfsUpdate m { vref with node := n' } w = some o ∧ o.res = 0 ∧
      Stands m.nodes proc table o.vref o.world n' 0
        (if driverOf m.nodes n' = driverOf m.nodes n then state else fresh) := by
  obtain ⟨d', hd'⟩ := Option.ne_none_iff_exists'.mp hd
  obtain ⟨o, ho, hfresh⟩ := hs.vfsUpdate_spec { vref with node := n' } w hd'
  obtain ⟨d, hdn, hdv⟩ := hst.driver
  have hcontent : content proc o.vref o.world =
      if vref.driver = some d' then content proc vref w else fresh := hfresh.content
  refine ⟨o, ho, hfresh.res, ⟨hfresh.node, hfresh.offset.trans hst.offset, ⟨d', hd', hfresh.driver⟩,
    ?_, hfresh.table.trans hst.table⟩⟩
  rw [hcontent, hst.content, hdv, hd', hdn]
  by_cases heq : d = d'
  · rw [heq]
  · rw [if_neg fun hsome => heq (Option.some.inj hsome),
      if_neg fun hsome => heq (Option.some.inj hsome).symm]

/-- The first update of a copy of the root. -/
theorem System.begin (hs : System m h proc others paths children)
    (hd : driverOf m.nodes 0 ≠ none) (w : ProcWorld E) :
    ∃ o, vfsUpdate m vfsRoot w = some o ∧ o.res = 0 ∧
      Stands m.nodes proc w.table o.vref o.world 0 0 fresh := by
  obtain ⟨d, hd⟩ := Option.ne_none_iff_exists'.mp hd
  obtain ⟨o, ho, hfresh⟩ := hs.vfsUpdate_spec vfsRoot w hd
  refine ⟨o, ho, hfresh.res, ⟨hfresh.node, hfresh.offset, ⟨d, hd, hfresh.driver⟩, ?_,
    hfresh.table⟩⟩
  rw [hfresh.content, if_neg]
  exact (Option.some_ne_none d).symm

/-! ## Steps within a driver -/

/-- A step within the process file system is one of its state machine; other
drivers leave the state fresh. -/
theorem System.within (hs : System m h proc others paths children)
    (hst : Stands m.nodes proc table vref w n depth state) (depth' : ℕ) (part : CString)
    (flags : ℕ) :
    ∃ o, updateAndOpen m { vref with offset := depth' } part flags w = some o ∧
      (driverOf m.nodes n = some proc → o.res = (openState table state part flags).1 ∧
        Stands m.nodes proc table o.vref o.world n depth' (openState table state part flags).2) ∧
      (driverOf m.nodes n ≠ some proc →
        Stands m.nodes proc table o.vref o.world n depth' fresh) := by
  obtain ⟨d, hdn, hdv⟩ := hst.driver
  have hnode : driverOf m.nodes ({ vref with offset := (depth' : ℤ) } : VRef).node = some d := by
    rw [← hdn, ← hst.node]
  refine ⟨_, updateAndOpen_same { vref with offset := (depth' : ℤ) } part flags w hdv hnode, ?_, ?_⟩
  · intro hp
    rw [hp] at hdn
    cases hdn
    have hstate : w.states vref.state = state := by
      have hcontent := hst.content
      rwa [content, if_pos hdv] at hcontent
    rw [hs.driver_proc, ← hstate, ← hst.table]
    refine ⟨rfl, ⟨hst.node, rfl, ⟨proc, hp, hdv⟩, ?_, rfl⟩⟩
    exact (if_pos hdv).trans (ProcWorld.put_states_self _ _ _)
  · intro hp
    have hne : d ≠ proc := by
      rintro rfl
      exact hp hdn
    rw [hs.driver_other hne]
    refine ⟨hst.node, rfl, ⟨d, hdn, hdv⟩, ?_, ?_⟩
    · exact if_neg fun heq => hne (Option.some.inj (hdv.symm.trans heq))
    · rw [← hst.table]
      rfl

/-! ## Walking down -/

/-- An ordinary name below a driver. -/
theorem System.enter_deep (hs : System m h proc others paths children)
    (hst : Stands m.nodes proc table vref w n depth state) {part : CString}
    (hpart : Ordinary part) (hbelow : depth = 0 → nodeBelow m.nodes n part = none) (flags : ℕ) :
    ∃ o, vfsEnterGuarded m vref part flags w = some o ∧
      (driverOf m.nodes n = some proc → o.res = (openState table state part flags).1 ∧
        Stands m.nodes proc table o.vref o.world n (depth + 1)
          (openState table state part flags).2) ∧
      (driverOf m.nodes n ≠ some proc →
        Stands m.nodes proc table o.vref o.world n (depth + 1) fresh) := by
  have hnone : vref.offset = 0 → nodeBelow m.nodes vref.node part = none := by
    intro hzero
    rw [hst.node]
    exact hbelow (Int.ofNat_eq_zero.mp (hst.offset.symm.trans hzero))
  have hdeeper := vfsEnterGuarded_deeper hs.trie hpart flags w hnone
  obtain ⟨o, ho, hproc, hother⟩ := hs.within hst (depth + 1) part flags
  refine ⟨o, ?_, hproc, hother⟩
  rw [hdeeper, hst.offset]
  exact ho

/-- The steps of a walk below a mount node. -/
def Uniform (flags : ℕ) (steps : List PathStep) : Prop :=
  ∀ step ∈ steps, Ordinary step.1 ∧ nofollow step.2 = nofollow flags

theorem Uniform.tail {flags : ℕ} {step : PathStep} {steps : List PathStep}
    (h : Uniform flags (step :: steps)) : Uniform flags steps :=
  fun s hs => h s (List.mem_cons_of_mem _ hs)

/-- No node goes on with the first of some names. -/
def Stops (nodes : List VNode) (n : ℕ) (ns : List CString) : Prop :=
  ∀ name rest, ns = name :: rest → nodeBelow nodes n name = none

/-- A walk within the process file system that succeeds is one of its state
machine. -/
theorem System.walk_deep_inv (hs : System m h proc others paths children) {flags : ℕ} :
    ∀ {steps : List PathStep} {vref : VRef} {w : ProcWorld E} {depth : ℕ} {state : ProcState}
      {o : Outcome (ProcWorld E)}, Uniform flags steps →
      Stands m.nodes proc table vref w n depth state →
      (depth = 0 → Stops m.nodes n (steps.map Prod.fst)) →
      enterAllGuarded m steps vref w = some o → o.res = 0 → o.vref.driver = some proc →
      driverOf m.nodes n = some proc ∧ ∃ final,
        openAll table flags state (steps.map Prod.fst) = some final ∧
        Stands m.nodes proc table o.vref o.world n (depth + steps.length) final
  | [], vref, w, depth, state, o, _, hst, _, ho, _, hdriver => by
      cases ho
      obtain ⟨d, hdn, hdv⟩ := hst.driver
      rw [hdriver] at hdv
      cases hdv
      exact ⟨hdn, state, rfl, hst⟩
  | step :: steps, vref, w, depth, state, o, hsteps, hst, hstop, ho, hres, hdriver => by
      obtain ⟨hpart, hflag⟩ := hsteps step List.mem_cons_self
      obtain ⟨o₁, ho₁, hproc, hother⟩ :=
        hs.enter_deep hst hpart (fun hzero => hstop hzero _ _ rfl) step.2
      rw [enterAllGuarded, ho₁, Option.bind_eq_bind, Option.bind_some] at ho
      by_cases hcode : o₁.res = 0
      · rw [if_neg (not_not.mpr hcode)] at ho
        have hdeep : depth + 1 = 0 → Stops m.nodes n (steps.map Prod.fst) :=
          fun hbad => absurd hbad (Nat.succ_ne_zero depth)
        by_cases hp : driverOf m.nodes n = some proc
        · obtain ⟨hopen, hnext⟩ := hproc hp
          obtain ⟨_, final, hall, hfinal⟩ :=
            hs.walk_deep_inv hsteps.tail hnext hdeep ho hres hdriver
          refine ⟨hp, final, ?_, ?_⟩
          · rw [hopen] at hcode
            rw [List.map_cons, openAll, ← openState_congr hflag, if_pos hcode]
            exact hall
          · rw [List.length_cons, Nat.add_comm steps.length, ← Nat.add_assoc]
            exact hfinal
        · exact absurd (hs.walk_deep_inv hsteps.tail (hother hp) hdeep ho hres hdriver).1 hp
      · rw [if_pos hcode] at ho
        cases ho
        exact absurd hres hcode

/-- The state machine can be walked. -/
theorem System.walk_deep (hs : System m h proc others paths children) {flags : ℕ}
    (hp : driverOf m.nodes n = some proc) :
    ∀ {steps : List PathStep} {vref : VRef} {w : ProcWorld E} {depth : ℕ}
      {state final : ProcState}, Uniform flags steps →
      Stands m.nodes proc table vref w n depth state →
      (depth = 0 → Stops m.nodes n (steps.map Prod.fst)) →
      openAll table flags state (steps.map Prod.fst) = some final →
      ∃ o, enterAllGuarded m steps vref w = some o ∧ o.res = 0 ∧
        Stands m.nodes proc table o.vref o.world n (depth + steps.length) final
  | [], vref, w, depth, state, final, _, hst, _, hall => by
      cases hall
      exact ⟨_, rfl, rfl, hst⟩
  | step :: steps, vref, w, depth, state, final, hsteps, hst, hstop, hall => by
      obtain ⟨hpart, hflag⟩ := hsteps step List.mem_cons_self
      obtain ⟨o₁, ho₁, hproc, _⟩ :=
        hs.enter_deep hst hpart (fun hzero => hstop hzero _ _ rfl) step.2
      obtain ⟨hopen, hnext⟩ := hproc hp
      rw [List.map_cons, openAll, ← openState_congr hflag] at hall
      by_cases hcode : (openState table state step.1 step.2).1 = 0
      · rw [if_pos hcode] at hall
        obtain ⟨o, ho, hres, hfinal⟩ := hs.walk_deep hp hsteps.tail hnext
          (fun hbad => absurd hbad (Nat.succ_ne_zero depth)) hall
        refine ⟨o, ?_, hres, ?_⟩
        · rw [enterAllGuarded, ho₁, Option.bind_eq_bind, Option.bind_some,
            if_neg (not_not.mpr (hopen.trans hcode))]
          exact ho
        · rw [List.length_cons, Nat.add_comm steps.length, ← Nat.add_assoc]
          exact hfinal
      · rw [if_neg hcode] at hall
        cases hall

/-- Entering the name of a child moves there. -/
theorem System.enter_child (hs : System m h proc others paths children)
    (hst : Stands m.nodes proc table vref w n 0 fresh) {part : CString} (hpart : Ordinary part)
    {child : ℕ} (hbelow : nodeBelow m.nodes n part = some child) (flags : ℕ)
    (hd : driverOf m.nodes child ≠ none) :
    ∃ o, vfsEnterGuarded m vref part flags w = some o ∧ o.res = 0 ∧
      Stands m.nodes proc table o.vref o.world child 0 fresh := by
  have hbelow' : nodeBelow m.nodes vref.node part = some child := by rwa [hst.node]
  rw [vfsEnterGuarded_child hs.trie hpart flags w hst.offset hbelow']
  obtain ⟨o, ho, hres, hnext⟩ := hs.move hst hd
  rw [ite_self] at hnext
  exact ⟨o, ho, hres, hnext⟩

/-- A walk from a mount node that succeeds and ends in the process file system
goes over nodes with drivers and then through its state machine. -/
theorem System.walk_inv (hs : System m h proc others paths children) {flags : ℕ} :
    ∀ {steps : List PathStep} {vref : VRef} {w : ProcWorld E} {n : ℕ} {q : List CString}
      {o : Outcome (ProcWorld E)}, Uniform flags steps → paths[n]? = some q →
      Driven m.nodes paths q → Stands m.nodes proc table vref w n 0 fresh →
      enterAllGuarded m steps vref w = some o → o.res = 0 → o.vref.driver = some proc →
      driverOf m.nodes (descend m.nodes n (steps.map Prod.fst)).1 = some proc ∧
        (∀ q', paths[(descend m.nodes n (steps.map Prod.fst)).1]? = some q' →
          Driven m.nodes paths q') ∧
        ∃ final, openAll table flags fresh (descend m.nodes n (steps.map Prod.fst)).2 = some final ∧
          Stands m.nodes proc table o.vref o.world (descend m.nodes n (steps.map Prod.fst)).1
            (descend m.nodes n (steps.map Prod.fst)).2.length final
  | [], vref, w, n, q, o, hsteps, hq, hdriven, hst, ho, hres, hdriver => by
      obtain ⟨hp, final, hall, hfinal⟩ :=
        hs.walk_deep_inv hsteps hst (fun _ _ _ hbad => by cases hbad) ho hres hdriver
      refine ⟨hp, fun q' hq' => ?_, final, hall, hfinal⟩
      rw [List.map_nil, descend, hq] at hq'
      cases hq'
      exact hdriven
  | step :: steps, vref, w, n, q, o, hsteps, hq, hdriven, hst, ho, hres, hdriver => by
      rw [List.map_cons, descend]
      cases hbelow : nodeBelow m.nodes n step.1 with
      | none =>
          have hstop : 0 = 0 → Stops m.nodes n ((step :: steps).map Prod.fst) := by
            rintro _ name rest hcons
            cases hcons
            exact hbelow
          obtain ⟨hp, final, hall, hfinal⟩ :=
            hs.walk_deep_inv hsteps hst hstop ho hres hdriver
          refine ⟨hp, fun q' hq' => ?_, final, hall, ?_⟩
          · dsimp only at hq'
            rw [hq] at hq'
            cases hq'
            exact hdriven
          · dsimp only
            rw [Nat.zero_add] at hfinal
            rw [List.length_cons, List.length_map]
            exact hfinal
      | some child =>
          dsimp only
          obtain ⟨hpart, _⟩ := hsteps step List.mem_cons_self
          obtain ⟨q', hq', hchild⟩ := hs.trie.nodeBelow_eq_some_iff.mp hbelow
          rw [hq] at hq'
          cases hq'
          have hbelow' : nodeBelow m.nodes vref.node step.1 = some child := by rwa [hst.node]
          rw [enterAllGuarded] at ho
          obtain ⟨o₁, ho₁, ho⟩ := Option.bind_eq_some_iff.mp ho
          have hcode : o₁.res = 0 := by
            by_contra hcode
            rw [if_pos hcode] at ho
            cases ho
            exact hcode hres
          rw [if_neg (not_not.mpr hcode)] at ho
          -- the update went through, so the child has a driver
          have hupdate := ho₁
          rw [vfsEnterGuarded_child hs.trie hpart step.2 w hst.offset hbelow'] at hupdate
          obtain ⟨d, hd, _⟩ := vfsUpdate_success hupdate hcode
          have hdchild : driverOf m.nodes child ≠ none := by
            rw [show driverOf m.nodes child = some d from hd]
            exact Option.some_ne_none d
          obtain ⟨o₂, ho₂, _, hnext⟩ := hs.enter_child hst hpart hbelow step.2 hdchild
          rw [ho₁] at ho₂
          cases ho₂
          exact hs.walk_inv hsteps.tail hchild (hdriven.child hs.trie hchild hdchild) hnext ho hres
            hdriver

/-- Such a walk can be made. -/
theorem System.walk (hs : System m h proc others paths children) {flags : ℕ} {final : ProcState} :
    ∀ {steps : List PathStep} {vref : VRef} {w : ProcWorld E} {n : ℕ} {q q' : List CString},
      Uniform flags steps → paths[n]? = some q →
      paths[(descend m.nodes n (steps.map Prod.fst)).1]? = some q' → Driven m.nodes paths q' →
      driverOf m.nodes (descend m.nodes n (steps.map Prod.fst)).1 = some proc →
      Stands m.nodes proc table vref w n 0 fresh →
      openAll table flags fresh (descend m.nodes n (steps.map Prod.fst)).2 = some final →
      ∃ o, enterAllGuarded m steps vref w = some o ∧ o.res = 0 ∧
        Stands m.nodes proc table o.vref o.world (descend m.nodes n (steps.map Prod.fst)).1
          (descend m.nodes n (steps.map Prod.fst)).2.length final
  | [], vref, w, n, q, q', hsteps, hq, hq', hdriven, hp, hst, hall =>
      hs.walk_deep hp hsteps hst (fun _ _ _ hbad => by cases hbad) hall
  | step :: steps, vref, w, n, q, q', hsteps, hq, hq', hdriven, hp, hst, hall => by
      rw [List.map_cons, descend] at hq' hp hall ⊢
      cases hbelow : nodeBelow m.nodes n step.1 with
      | none =>
          rw [hbelow] at hp hall
          have hstop : 0 = 0 → Stops m.nodes n ((step :: steps).map Prod.fst) := by
            rintro _ name rest hcons
            cases hcons
            exact hbelow
          obtain ⟨o, ho, hres, hfinal⟩ := hs.walk_deep hp hsteps hst hstop hall
          refine ⟨o, ho, hres, ?_⟩
          dsimp only
          rw [Nat.zero_add] at hfinal
          rw [List.length_cons, List.length_map]
          exact hfinal
      | some child =>
          rw [hbelow] at hq' hp hall
          dsimp only at hq' hp hall ⊢
          obtain ⟨hpart, _⟩ := hsteps step List.mem_cons_self
          obtain ⟨q₁, hq₁, hchild⟩ := hs.trie.nodeBelow_eq_some_iff.mp hbelow
          rw [hq] at hq₁
          cases hq₁
          obtain ⟨r, _, hr⟩ := hs.trie.descend_spec (steps.map Prod.fst) hchild
          rw [hq'] at hr
          cases hr
          have hdchild := hdriven child _ hchild (List.prefix_append _ _)
          obtain ⟨o₁, ho₁, hcode, hnext⟩ := hs.enter_child hst hpart hbelow step.2 hdchild
          obtain ⟨o, ho, hres, hfinal⟩ := hs.walk hsteps.tail hchild hq' hdriven hp hnext hall
          refine ⟨o, ?_, hres, hfinal⟩
          rw [enterAllGuarded, ho₁, Option.bind_eq_bind, Option.bind_some,
            if_neg (not_not.mpr hcode)]
          exact ho

end System

end Neos.Procfs
