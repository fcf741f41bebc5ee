import Neos.Vfs.Open
import Neos.Library.Ownership

/-!
# State blocks of references

Drivers whose `root` and `clone` allocate a state block and whose `close` frees
it.  While a path is followed, the reference being opened holds at most one
block: it is lost when an old driver was closed and the new one did not start,
and kept when a driver refuses to open a name.
-/

namespace Neos.Vfs

open Ownership

variable {W : Type}

/-! ## Drivers that manage state blocks -/

/-- The store of state blocks as part of the outside state. -/
abbrev StateStore (W : Type) := W → Store ℕ

/-- A driver whose references own their state. -/
structure ManagesState (blocks : StateStore W) (d : FilesystemDriver W) : Prop where
  root_ok : ∀ v w, (d.root v w).1 = 0 → (d.root v w).2.1 ∉ (blocks w).used ∧
    blocks (d.root v w).2.2 = (blocks w).acquire (d.root v w).2.1
  root_fails : ∀ v w, (d.root v w).1 ≠ 0 → (d.root v w).2.1 = v.state ∧
    blocks (d.root v w).2.2 = blocks w
  clone : ∀ dst src w, (d.clone dst src w).2.1 ∉ (blocks w).used ∧
    blocks (d.clone dst src w).2.2 = (blocks w).acquire (d.clone dst src w).2.1
  openPart : ∀ v part flags w, (d.openPart v part flags w).2.1 = v.state ∧
    blocks (d.openPart v part flags w).2.2 = blocks w
  close : ∀ v w, (d.close v w).2.1 = v.state ∧
    blocks (d.close v w).2.2 = (blocks w).release v.state
  remove : ∀ v rmdir w, (d.remove v rmdir w).2.1 = v.state ∧
    blocks (d.remove v rmdir w).2.2 = blocks w
  stat : ∀ v w, (d.stat v w).2.1 = v.state ∧ blocks (d.stat v w).2.2 = blocks w

/-- The state block a reference claims: that of its driver, if it has one. -/
def VRef.block (v : VRef) : Option ℕ := v.driver.map fun _ => v.state

/-- Since the store was `s`, the reference acquired its block and nothing else
happened. -/
def Held (blocks : StateStore W) (s : Store ℕ) (o : Outcome W) : Prop :=
  ∃ x, o.vref.block = some x ∧ s.Holds (some x) (blocks o.world)

/-- Since the store was `s`, everything that was acquired was released again. -/
def Lost (blocks : StateStore W) (s : Store ℕ) (o : Outcome W) : Prop :=
  s.Holds none (blocks o.world)

section

variable {m : Mounts W} {blocks : StateStore W} {s : Store ℕ}

theorem Held.congr {o o' : Outcome W} (h : Held blocks s o)
    (hblock : o'.vref.block = o.vref.block) (hworld : blocks o'.world = blocks o.world) :
    Held blocks s o' := by
  obtain ⟨x, hx, hs⟩ := h
  exact ⟨x, hblock.trans hx, hworld ▸ hs⟩

/-! ## Steps -/

/-- Starting the driver of a node from empty hands. -/
theorem enable_blocks (hm : ∀ d, ManagesState blocks (m.drivers d)) {node : VNode} {v : VRef}
    {w : W} {o : Outcome W} (hs : s.Holds none (blocks w)) (h : enable m node v w = some o) :
    (o.res = 0 → Held blocks s o) ∧ (o.res ≠ 0 → Lost blocks s o) := by
  obtain ⟨d, hd, h⟩ := Option.bind_eq_some_iff.mp h
  rw [Option.some_inj] at h
  subst h
  constructor
  · intro hres
    obtain ⟨hfresh, hblocks⟩ := (hm d).root_ok _ w hres
    have hacquired := hs.acquire hfresh
    rw [← hblocks] at hacquired
    exact ⟨_, by simp [VRef.block, VRef.store, hd], hacquired⟩
  · intro hres
    obtain ⟨-, hblocks⟩ := (hm d).root_fails _ w hres
    rw [Lost, VRef.store, hblocks]
    exact hs

/-- `vfs_update` keeps the block, exchanges it, or loses it with an error. -/
theorem vfsUpdate_blocks (hm : ∀ d, ManagesState blocks (m.drivers d))
    (hlive : s.live ⊆ s.used) {v : VRef} {w : W} {o : Outcome W}
    (hv : Held blocks s ⟨0, v, w⟩ ∨ v.driver = none ∧ s.Holds none (blocks w))
    (h : vfsUpdate m v w = some o) :
    (o.res = 0 → Held blocks s o) ∧ (o.res ≠ 0 → Lost blocks s o) := by
  obtain ⟨node, hnode, h⟩ := Option.bind_eq_some_iff.mp h
  rcases hv with ⟨x, hx, hs⟩ | ⟨hnone, hs⟩
  · cases hd : v.driver with
    | none => simp [VRef.block, hd] at hx
    | some d =>
        have hstate : v.state = x := by simpa [VRef.block, hd] using hx
        rw [hd] at h
        dsimp only at h
        split at h
        · rw [Option.some_inj] at h
          subst h
          exact ⟨fun _ => ⟨x, hx, hs⟩, fun hne => absurd rfl hne⟩
        · -- the old driver frees the block
          have hclose : s.Holds none (blocks ((m.drivers d).close v w).2.2) := by
            rw [((hm d).close v w).2, hstate]
            exact hs.release hlive
          split at h
          · next hres =>
              rw [Option.some_inj] at h
              subst h
              exact ⟨fun hzero => absurd hzero hres, fun _ => hclose⟩
          · exact enable_blocks hm hclose h
  · rw [hnone] at h
    exact enable_blocks hm hs h

/-! ## Walks -/

/-- The part of `vfs_enter` up to `vfs_update`, and whether the driver's `open`
follows when it succeeds. -/
def enterUpdate (m : Mounts W) (vref : VRef) (part : CString) (w : W) :
    Option (Bool × Outcome W) := do
  if part = [46] then some (false, ⟨0, vref, w⟩)
  else if part = [46, 46] then
    if vref.offset > 0 then
      (vfsUpdate m { vref with offset := vref.offset - 1 } w).map (true, ·)
    else
      let node ← m.nodes[vref.node]?
      (vfsUpdate m { vref with node := node.parent } w).map (false, ·)
  else if vref.offset = 0 then
    let found ← vfsFindchld m vref.node part
    if found.1 then (vfsUpdate m { vref with node := found.2 } w).map (false, ·)
    else (vfsUpdate m { vref with offset := vref.offset + 1 } w).map (true, ·)
  else (vfsUpdate m { vref with offset := vref.offset + 1 } w).map (true, ·)

/-- `vfs_enter` is an update, followed by the driver's `open` where one is
called. -/
theorem vfsEnter_eq (m : Mounts W) (v : VRef) (part : CString) (flags : ℕ) (w : W) :
    vfsEnter m v part flags w =
      (enterUpdate m v part w).bind fun u =>
        if u.1 = true ∧ u.2.res = 0 then openPart m u.2.vref part flags u.2.world
        else some u.2 := by
  have hopen : ∀ v', updateAndOpen m v' part flags w =
      ((vfsUpdate m v' w).map (true, ·)).bind fun u =>
        if u.1 = true ∧ u.2.res = 0 then openPart m u.2.vref part flags u.2.world
        else some u.2 := by
    intro v'
    unfold updateAndOpen
    cases vfsUpdate m v' w with
    | none => rfl
    | some o => by_cases hres : o.res = 0 <;> simp [hres]
  have hstay : ∀ v', vfsUpdate m v' w =
      ((vfsUpdate m v' w).map (false, ·)).bind fun u =>
        if u.1 = true ∧ u.2.res = 0 then openPart m u.2.vref part flags u.2.world
        else some u.2 := by
    intro v'
    cases vfsUpdate m v' w <;> simp
  unfold vfsEnter enterUpdate
  split
  · simp
  split
  · split
    · exact hopen _
    · cases m.nodes[v.node]? with
      | none => rfl
      | some node => exact hstay _
  split
  · cases vfsFindchld m v.node part with
    | none => rfl
    | some found =>
        dsimp only [Option.bind_eq_bind, Option.bind_some]
        split
        · exact hstay _
        · exact hopen _
  · exact hopen _

theorem enterUpdate_blocks (hm : ∀ d, ManagesState blocks (m.drivers d))
    (hlive : s.live ⊆ s.used) {v : VRef} {w : W} {part : CString} {u : Bool × Outcome W}
    (hv : Held blocks s ⟨0, v, w⟩) (h : enterUpdate m v part w = some u) :
    (u.2.res = 0 → Held blocks s u.2) ∧ (u.2.res ≠ 0 → Lost blocks s u.2) := by
  have hupdate : ∀ (v' : VRef) (b : Bool), (vfsUpdate m v' w).map (b, ·) = some u →
      v'.block = v.block →
      (u.2.res = 0 → Held blocks s u.2) ∧ (u.2.res ≠ 0 → Lost blocks s u.2) := by
    intro v' b hu hblock
    obtain ⟨o, ho, rfl⟩ := Option.map_eq_some_iff.mp hu
    exact vfsUpdate_blocks hm hlive (Or.inl (hv.congr hblock rfl)) ho
  unfold enterUpdate at h
  split at h
  · rw [Option.some_inj] at h
    subst h
    exact ⟨fun _ => hv, fun hne => absurd rfl hne⟩
  split at h
  · split at h
    · exact hupdate _ _ h rfl
    · obtain ⟨node, -, h⟩ := Option.bind_eq_some_iff.mp h
      exact hupdate _ _ h rfl
  split at h
  · obtain ⟨found, -, h⟩ := Option.bind_eq_some_iff.mp h
    split at h
    · exact hupdate _ _ h rfl
    · exact hupdate _ _ h rfl
  · exact hupdate _ _ h rfl

/-- A driver that opens or refuses a name keeps the block. -/
theorem openPart_blocks (hm : ∀ d, ManagesState blocks (m.drivers d)) {v : VRef} {w : W}
    {part : CString} {flags : ℕ} {o : Outcome W} (hv : Held blocks s ⟨0, v, w⟩)
    (h : openPart m v part flags w = some o) : Held blocks s o := by
  obtain ⟨d, hd, h⟩ := Option.bind_eq_some_iff.mp h
  rw [Option.some_inj] at h
  subst h
  obtain ⟨hstate, hblocks⟩ := (hm d).openPart v part flags w
  exact hv.congr (by simp [VRef.block, VRef.store, hstate]) hblocks

/-- A walk fails in one of its updates. -/
def Loses (m : Mounts W) : List PathStep → VRef → W → Prop
  | [], _, _ => False
  | step :: steps, v, w =>
      (∃ u, enterUpdate m v step.1 w = some u ∧ u.2.res ≠ 0) ∨
        ∃ o, vfsEnter m v step.1 step.2 w = some o ∧ o.res = 0 ∧ Loses m steps o.vref o.world

/-- A walk loses its block exactly when it fails in an update. -/
theorem enterAll_blocks (hm : ∀ d, ManagesState blocks (m.drivers d))
    (hlive : s.live ⊆ s.used) :
    ∀ (steps : List PathStep) {v : VRef} {w : W} {o : Outcome W}, Held blocks s ⟨0, v, w⟩ →
      enterAll m steps v w = some o →
      (Loses m steps v w → o.res ≠ 0 ∧ Lost blocks s o) ∧
        (¬ Loses m steps v w → Held blocks s o)
  | [], v, w, o, hv, h => by
      rw [enterAll, Option.some_inj] at h
      subst h
      exact ⟨fun hloses => absurd hloses id, fun _ => hv⟩
  | step :: steps, v, w, o, hv, h => by
      obtain ⟨e, he, h⟩ := Option.bind_eq_some_iff.mp h
      have hu := he
      rw [vfsEnter_eq] at hu
      obtain ⟨u, hupdate, hopen⟩ := Option.bind_eq_some_iff.mp hu
      obtain ⟨hkeep, hlost⟩ := enterUpdate_blocks hm hlive hv hupdate
      have hne_of_loses : (∃ u', enterUpdate m v step.1 w = some u' ∧ u'.2.res ≠ 0) →
          u.2.res ≠ 0 := by
        rintro ⟨u', hu', hne⟩
        rw [hupdate, Option.some_inj] at hu'
        rwa [hu']
      by_cases hres : u.2.res = 0
      · -- the update succeeded, so the block is held after the step
        have hheld : Held blocks s e := by
          split at hopen
          · exact openPart_blocks hm ((hkeep hres).congr rfl rfl) hopen
          · rw [Option.some_inj] at hopen
            exact hopen ▸ hkeep hres
        by_cases hzero : e.res = 0
        · rw [if_neg (not_not.mpr hzero)] at h
          obtain ⟨h₁, h₂⟩ := enterAll_blocks hm hlive steps (hheld.congr rfl rfl) h
          constructor
          · rintro (hfail | ⟨e', he', -, hloses⟩)
            · exact absurd hres (hne_of_loses hfail)
            · rw [he, Option.some_inj] at he'
              subst he'
              exact h₁ hloses
          · intro hno
            exact h₂ fun hloses => hno (Or.inr ⟨e, he, hzero, hloses⟩)
        · rw [if_pos hzero, Option.some_inj] at h
          subst h
          refine ⟨?_, fun _ => hheld⟩
          rintro (hfail | ⟨e', he', hzero', -⟩)
          · exact absurd hres (hne_of_loses hfail)
          · rw [he, Option.some_inj] at he'
            subst he'
            exact absurd hzero' hzero
      · -- the update failed, and with it the step
        rw [if_neg (fun hand => hres hand.2), Option.some_inj] at hopen
        subst hopen
        rw [if_pos hres, Option.some_inj] at h
        subst h
        exact ⟨fun _ => ⟨hres, hlost hres⟩,
          fun hno => absurd (Or.inl ⟨u, hupdate, hres⟩) hno⟩

/-! ## `vfs_open` -/

/-- Following a path fails in an update after the first one. -/
def OpenLoses (m : Mounts W) (relation : VRef) (path : CString) (flags : ℕ) (w : W) : Prop :=
  ∃ updated, start m relation path w = some updated ∧
    Loses m (schedule flags 0 none (names path)).1 updated.vref updated.world

/-- The first update of a walk succeeds. -/
def Starts (m : Mounts W) (relation : VRef) (path : CString) (w : W) : Prop :=
  ∃ updated, start m relation path w = some updated ∧ updated.res = 0

theorem start_blocks (hm : ∀ d, ManagesState blocks (m.drivers d)) {relation : VRef}
    {path : CString} {w : W} (hlive : (blocks w).live ⊆ (blocks w).used) {u : Outcome W}
    (h : start m relation path w = some u) (hres : u.res = 0) :
    Held blocks (blocks w) u := by
  unfold start vfsRefcpy at h
  generalize (if charAt path 0 = slash then vfsRoot else relation) = source at h
  cases hd : source.driver with
  | none =>
      simp only [hd] at h
      exact (vfsUpdate_blocks hm hlive (Or.inr ⟨rfl, Store.holds_refl _⟩) h).1 hres
  | some d =>
      simp only [hd] at h
      obtain ⟨hfresh, hblocks⟩ := (hm d).clone ⟨source.node, source.offset, some d, 0⟩ source w
      have hacquired := (Store.holds_refl (blocks w)).acquire hfresh
      rw [← hblocks] at hacquired
      exact (vfsUpdate_blocks hm hlive (Or.inl ⟨_, rfl, hacquired⟩) h).1 hres

/-- What `vfs_open` leaves behind when its first update succeeded: an error and
nothing else when it failed in a later update, and otherwise one block, whether
it reports an error or not. -/
theorem vfsOpen_blocks (hm : ∀ d, ManagesState blocks (m.drivers d)) {relation : VRef}
    {path : CString} {flags : ℕ} {w : W} (hlive : (blocks w).live ⊆ (blocks w).used)
    (hstarts : Starts m relation path w) {o : Outcome W}
    (h : vfsOpen m relation path flags w = some o) :
    (OpenLoses m relation path flags w → o.res ≠ 0 ∧ Lost blocks (blocks w) o) ∧
      (¬ OpenLoses m relation path flags w → Held blocks (blocks w) o) := by
  obtain ⟨u, hstart, hres⟩ := hstarts
  rw [vfsOpen_eq, hstart, Option.bind_some] at h
  obtain ⟨walked, hwalk, rfl⟩ := Option.map_eq_some_iff.mp h
  have hheld := start_blocks hm hlive hstart hres
  obtain ⟨h₁, h₂⟩ := enterAll_blocks hm hlive _ (hheld.congr rfl rfl) hwalk
  have hfinish : ∀ code, (walked.finish code).vref = walked.vref ∧
      (walked.finish code).world = walked.world := by
    intro code
    unfold Outcome.finish
    split <;> exact ⟨rfl, rfl⟩
  obtain ⟨hvref, hworld⟩ := hfinish (schedule flags 0 none (names path)).2
  constructor
  · rintro ⟨u', hu', hloses⟩
    rw [hstart, Option.some_inj] at hu'
    subst hu'
    obtain ⟨hne, hlost⟩ := h₁ hloses
    refine ⟨by rwa [Outcome.finish_of_ne hne], ?_⟩
    rw [Lost, hworld]
    exact hlost
  · intro hno
    exact (h₂ fun hloses => hno ⟨u, hstart, hloses⟩).congr (by rw [hvref]) (by rw [hworld])

end

end Neos.Vfs
