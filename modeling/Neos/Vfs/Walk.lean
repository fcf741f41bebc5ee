import Neos.Vfs.NullFree

/-!
# A path as the fold of its names

`vfs_open` keeps every name back for one round to learn which one is last.  On a
path written from its names this is the plain walk: a copy of the root or of the
relation, one update, then every name in order.  The walk is the reference here;
`vfs_open` agrees with it exactly on paths whose names leave one byte of the
name buffer unused.
-/

namespace Neos.Vfs

variable {W : Type}

/-- A path by its names: a leading slash, single slashes between the names and
a trailing slash behind the last one. -/
structure WrittenPath where
  absolute : Bool
  names : List CString
  trailing : Bool
  plain : ∀ name ∈ names, name ≠ [] ∧ slash ∉ name ∧ 0 ∉ name
  ended : trailing = true → names ≠ []

/-- The names with single slashes between them. -/
def joined : List CString → CString
  | [] => []
  | [name] => name
  | name :: next :: rest => name ++ slash :: joined (next :: rest)

/-- The characters of a path. -/
def WrittenPath.text (p : WrittenPath) : CString :=
  (if p.absolute then [slash] else []) ++ joined p.names ++
    if p.trailing then [slash] else []

/-- What opening a path is to do: copy the root or the relation, update the copy
whatever comes of it, and enter the names from left to right until one fails. -/
def openEach (m : Mounts W) (relation : VRef) (p : WrittenPath) (flags : ℕ) (w : W) :
    Option (Outcome W) := do
  let copied := vfsRefcpy m (if p.absolute then vfsRoot else relation) w
  let updated ← vfsUpdate m copied.1 copied.2
  enterAll m (plan flags p.names) updated.vref updated.world

/-! ## The names of a written path -/

theorem stripSlash_of_plain {name rest : CString} (hne : name ≠ []) (h : slash ∉ name) :
    stripSlash (name ++ rest) = name ++ rest := by
  cases name with
  | nil => exact absurd rfl hne
  | cons c cs =>
      have hc : c ≠ slash := fun heq => h (heq ▸ List.mem_cons_self)
      rw [List.cons_append, stripSlash, if_neg hc]

theorem sections_name {name rest : CString} (hne : name ≠ []) (h : slash ∉ name) :
    sections (name ++ slash :: rest) = name :: sections (slash :: rest) := by
  have hstrip : stripSlash (name ++ slash :: rest) = name ++ slash :: rest :=
    stripSlash_of_plain hne h
  have hmore : stripSlash (name ++ slash :: rest) ≠ [] := by
    rw [hstrip]
    simp
  rw [sections_cons hmore, hstrip, nextName_append h, afterName_append h]

theorem sections_last {name : CString} (hne : name ≠ []) (h : slash ∉ name) :
    sections name = [name] := by
  have hall : ∀ c ∈ name, decide (c ≠ slash) = true :=
    fun c hc => decide_eq_true fun heq => h (heq ▸ hc)
  have hstrip : stripSlash name = name := by
    have happend : stripSlash (name ++ []) = name ++ [] := stripSlash_of_plain hne h
    rwa [List.append_nil] at happend
  have hnext : nextName name = name := List.takeWhile_eq_self_iff.mpr hall
  have hafter : afterName name = [] := List.dropWhile_eq_nil_iff.mpr hall
  rw [sections_cons (by rwa [hstrip]), hstrip, hnext, hafter, sections_nil rfl]

/-- A slash in front of a name only starts it. -/
theorem sections_slash {rest : CString} (h : stripSlash rest = rest) :
    sections (slash :: rest) = sections rest := by
  have hstrip : stripSlash (slash :: rest) = stripSlash rest := by rw [h, stripSlash, if_pos rfl]
  by_cases hdone : stripSlash rest = []
  · rw [sections_nil hdone, sections_nil (hstrip.trans hdone)]
  · rw [sections_cons hdone, sections_cons (hstrip ▸ hdone), hstrip]

/-- What is behind a slash does not start with another one. -/
theorem stripSlash_joined {names : List CString} (ending : CString)
    (hplain : ∀ name ∈ names, name ≠ [] ∧ slash ∉ name ∧ 0 ∉ name) (hne : names ≠ []) :
    stripSlash (joined names ++ ending) = joined names ++ ending := by
  match names, hne with
  | [name], _ =>
      obtain ⟨hname, hslash, _⟩ := hplain name List.mem_cons_self
      exact stripSlash_of_plain hname hslash
  | name :: next :: rest, _ =>
      obtain ⟨hname, hslash, _⟩ := hplain name List.mem_cons_self
      rw [joined, List.append_assoc]
      exact stripSlash_of_plain hname hslash

/-- The names of joined names are the names, with a slash at the end or without. -/
theorem sections_joined (trailing : Bool) :
    ∀ names : List CString, (∀ name ∈ names, name ≠ [] ∧ slash ∉ name ∧ 0 ∉ name) →
      names ≠ [] → sections (joined names ++ if trailing then [slash] else []) = names
  | [name], hplain, _ => by
      obtain ⟨hname, hslash, _⟩ := hplain name List.mem_cons_self
      cases trailing with
      | false => simpa [joined] using sections_last hname hslash
      | true =>
          have hend : sections [slash] = [] := sections_nil rfl
          exact (sections_name hname hslash).trans (by rw [hend])
  | name :: next :: rest, hplain, _ => by
      obtain ⟨hname, hslash, _⟩ := hplain name List.mem_cons_self
      have hrest : ∀ n ∈ next :: rest, n ≠ [] ∧ slash ∉ n ∧ 0 ∉ n :=
        fun n hn => hplain n (List.mem_cons_of_mem _ hn)
      have hstrip := stripSlash_joined (if trailing then [slash] else []) hrest
        (List.cons_ne_nil _ _)
      rw [joined, List.append_assoc, List.cons_append, sections_name hname hslash,
        sections_slash hstrip, sections_joined trailing (next :: rest) hrest (List.cons_ne_nil _ _)]

theorem zero_not_mem_joined :
    ∀ names : List CString, (∀ name ∈ names, name ≠ [] ∧ slash ∉ name ∧ 0 ∉ name) →
      0 ∉ joined names
  | [], _ => List.not_mem_nil
  | [name], hplain => (hplain name List.mem_cons_self).2.2
  | name :: next :: rest, hplain => by
      have hrest := zero_not_mem_joined (next :: rest) fun n hn =>
        hplain n (List.mem_cons_of_mem _ hn)
      have hslash : (0 : UInt8) ≠ slash := by decide
      simp only [joined, List.mem_append, List.mem_cons, not_or]
      exact ⟨(hplain name List.mem_cons_self).2.2, hslash, hrest⟩

namespace WrittenPath

/-- No character of a path ends the string. -/
theorem zero_not_mem_text (p : WrittenPath) : 0 ∉ p.text := by
  have hnames := zero_not_mem_joined p.names p.plain
  have hslash : (0 : UInt8) ≠ slash := by decide
  cases habs : p.absolute <;> cases htrail : p.trailing <;> simp [text, habs, htrail, hnames, hslash]

/-- Splitting a path gives back the names it was written from. -/
theorem names_text (p : WrittenPath) : Vfs.names p.text = p.names := by
  have hall : ∀ c ∈ p.text, decide (c ≠ 0) = true :=
    fun c hc => decide_eq_true fun heq => p.zero_not_mem_text (heq ▸ hc)
  have htail : tail p.text 0 = p.text := by
    rw [tail, List.drop_zero]
    exact List.takeWhile_eq_self_iff.mpr hall
  rw [Vfs.names, htail]
  by_cases hne : p.names = []
  · -- at most the leading slash is there
    have htrail : p.trailing = false := by
      cases h : p.trailing with
      | false => rfl
      | true => exact absurd hne (p.ended h)
    rw [hne, text, hne, htrail]
    cases p.absolute with
    | false => exact sections_nil rfl
    | true => exact sections_nil rfl
  have hjoined := sections_joined p.trailing p.names p.plain hne
  cases habs : p.absolute with
  | false => simpa [text, habs] using hjoined
  | true =>
      have hstrip := stripSlash_joined (if p.trailing then [slash] else []) p.plain hne
      rw [text, habs, List.append_assoc]
      exact (sections_slash hstrip).trans hjoined

/-- A path starts with a slash exactly when it is absolute. -/
theorem charAt_text (p : WrittenPath) : charAt p.text 0 = slash ↔ p.absolute = true := by
  cases habs : p.absolute with
  | true => simp [text, habs, charAt]
  | false =>
      have hfirst : charAt p.text 0 ≠ slash := by
        rw [text, habs]
        cases hnames : p.names with
        | nil =>
            have htrail : p.trailing ≠ true := fun h => p.ended h hnames
            simp [joined, htrail, charAt, slash]
        | cons name rest =>
            obtain ⟨hname, hslash, _⟩ := p.plain name (hnames ▸ List.mem_cons_self)
            obtain ⟨c, cs, rfl⟩ := List.exists_cons_of_ne_nil hname
            have hc : c ≠ slash := fun heq => hslash (heq ▸ List.mem_cons_self)
            cases rest with
            | nil => simpa [joined, charAt] using hc
            | cons next more => simpa [joined, charAt] using hc
      simp [hfirst]

/-- `vfs_open` starts where the walk starts and makes its steps, when it accepts
the names. -/
theorem vfsOpen_eq_openEach (p : WrittenPath) (h : Acceptable p.names) (m : Mounts W)
    (relation : VRef) (flags : ℕ) (w : W) :
    vfsOpen m relation p.text flags w = openEach m relation p flags w := by
  have hstart : start m relation p.text w =
      vfsUpdate m (vfsRefcpy m (if p.absolute then vfsRoot else relation) w).1
        (vfsRefcpy m (if p.absolute then vfsRoot else relation) w).2 := by
    simp only [start, p.charAt_text]
  rw [vfsOpen_eq, hstart, names_text, h.schedule_eq, openEach]
  dsimp only
  refine Option.bind_congr fun updated _ => ?_
  -- a walk without a code of its own ends with the code of its last step
  cases enterAll m (plan flags p.names) updated.vref updated.world with
  | none => rfl
  | some o =>
      by_cases hres : o.res = 0
      · rw [Option.map_some, Outcome.finish_of_eq hres, ← hres]
      · rw [Option.map_some, Outcome.finish_of_ne hres]

end WrittenPath

/-! ## A tree that accepts every name -/

/-- The root with one child whose name is empty, and drivers that accept
everything: what is left by mounting at `/` and at `//`. -/
def obliging : Mounts Unit where
  nodes := [⟨none, some 1, 0, some 0, [114, 111, 111, 116]⟩, ⟨none, none, 0, some 0, []⟩]
  drivers _ := quietDriver

theorem obliging_accepting : Accepting obliging :=
  fun _ => ⟨fun _ _ => rfl, fun _ _ => rfl, fun _ _ _ _ => rfl⟩

/-- At the root every name but the empty one is handed to the driver. -/
theorem vfsEnter_obliging {vref : VRef} {part : CString} (flags : ℕ) (hnode : vref.node = 0)
    (hpart : part ≠ []) :
    ∃ o, vfsEnter obliging vref part flags () = some o ∧ o.res = 0 ∧ o.vref.node = 0 := by
  have hdriver : driverOf obliging.nodes 0 ≠ none := by decide
  have hopened : ∀ offset, ∃ o, updateAndOpen obliging { vref with offset := offset } part flags () =
      some o ∧ o.res = 0 ∧ o.vref.node = 0 := by
    intro offset
    obtain ⟨o, ho, hpos, hacc⟩ := updateAndOpen_of_driver (m := obliging)
      { vref with offset := offset } part flags () (by rw [hnode]; exact hdriver)
    exact ⟨o, ho, hacc obliging_accepting, (congrArg Prod.fst hpos).trans hnode⟩
  by_cases hdot : part = [46]
  · exact ⟨⟨0, vref, ()⟩, by rw [hdot, vfsEnter_dot], rfl, hnode⟩
  by_cases hdots : part = [46, 46]
  · by_cases hup : vref.offset > 0
    · subst hdots
      rw [vfsEnter_up flags hup]
      exact hopened _
    · -- the root is its own parent
      obtain ⟨o, ho, hpos, _, hres⟩ := vfsUpdate_of_driver (m := obliging)
        { vref with node := 0 } () hdriver
      refine ⟨o, ?_, hres obliging_accepting.steady, congrArg Prod.fst hpos⟩
      rw [hdots, vfsEnter_out (by rw [hnode]; rfl) flags hup]
      exact ho
  by_cases hoffset : vref.offset = 0
  · have hfind : vfsFindchld obliging vref.node part = some (false, 1) := by
      simp [vfsFindchld, obliging, hnode, findchldLoop, Ne.symm hpart]
    have henter : vfsEnter obliging vref part flags () =
        updateAndOpen obliging { vref with offset := vref.offset + 1 } part flags () := by
      simp [vfsEnter, hdot, hdots, hoffset, hfind]
    rw [henter]
    exact hopened _
  · rw [vfsEnter_below flags hdot hdots hoffset]
    exact hopened _

theorem enterAll_obliging :
    ∀ (steps : List PathStep) (vref : VRef), vref.node = 0 → (∀ step ∈ steps, step.1 ≠ []) →
      ∃ o, enterAll obliging steps vref () = some o ∧ o.res = 0
  | [], vref, _, _ => ⟨_, rfl, rfl⟩
  | step :: steps, vref, hnode, hsteps => by
      obtain ⟨o, ho, hres, hnode'⟩ := vfsEnter_obliging step.2 hnode
        (hsteps step List.mem_cons_self)
      obtain ⟨o', ho', hres'⟩ := enterAll_obliging steps o.vref hnode'
        fun s hs => hsteps s (List.mem_cons_of_mem _ hs)
      refine ⟨o', ?_, hres'⟩
      rw [enterAll, ho]
      simpa [hres] using ho'

/-- Only names of the path are entered. -/
theorem mem_schedule (flags : ℕ) :
    ∀ (names : List CString) (count : ℕ) (back : Option CString) (step : PathStep),
      step ∈ (schedule flags count back names).1 → step.1 ∈ back.toList ++ names
  | [], count, back, step, h => by
      cases back with
      | none => simp [schedule, backSteps] at h
      | some name => simp_all [schedule, backSteps]
  | name :: names, count, back, step, h => by
      have hback : ∀ f, step ∈ backSteps back f → step.1 ∈ back.toList ++ (name :: names) := by
        intro f hstep
        cases back with
        | none => simp [backSteps] at hstep
        | some last => simp_all [backSteps]
      rw [schedule] at h
      split at h
      · cases h
      · split at h
        · exact hback _ h
        · rcases List.mem_append.mp h with h | h
          · exact hback _ h
          · exact List.mem_append_right _ (mem_schedule flags names (count + 1) (some name) step h)

theorem mem_plan (flags : ℕ) :
    ∀ (names : List CString) (step : PathStep), step ∈ plan flags names → step.1 ∈ names
  | [], _, h => by cases h
  | [name], step, h => by
      rw [plan, List.mem_singleton] at h
      simp [h]
  | name :: next :: rest, step, h => by
      rw [plan, List.mem_cons] at h
      rcases h with rfl | h
      · exact List.mem_cons_self
      · exact List.mem_cons_of_mem _ (mem_plan flags (next :: rest) step h)

/-! ## When `vfs_open` is the walk -/

/-- A path that is refused is followed to its end by the walk. -/
theorem WrittenPath.vfsOpen_ne_openEach (p : WrittenPath) (h : ¬ Acceptable p.names) (flags : ℕ) :
    vfsOpen obliging vfsRoot p.text flags () ≠ openEach obliging vfsRoot p flags () := by
  obtain ⟨updated, hupdated, hpos, -, -⟩ := vfsUpdate_of_driver (m := obliging) vfsRoot ()
    (by decide)
  have hnode : updated.vref.node = 0 := congrArg Prod.fst hpos
  have hplain : ∀ steps : List PathStep, (∀ step ∈ steps, step.1 ∈ p.names) →
      ∀ step ∈ steps, step.1 ≠ [] := fun steps hsteps step hstep =>
    (p.plain step.1 (hsteps step hstep)).1
  obtain ⟨opened, hopened, hres⟩ := enterAll_obliging (schedule flags 0 none (Vfs.names p.text)).1
    updated.vref hnode (hplain _ fun step hstep => by
      have := mem_schedule flags _ 0 none step hstep
      rwa [p.names_text] at this)
  obtain ⟨walked, hwalked, hzero⟩ := enterAll_obliging (plan flags p.names) updated.vref hnode
    (hplain _ (mem_plan flags p.names))
  have hcode := schedule_code_pos h flags
  have hwalk : openEach obliging vfsRoot p flags () = some walked := by
    simp only [openEach, ite_self]
    rw [← hwalked]
    exact congrArg (fun u : Option (Outcome Unit) => u.bind fun u =>
      enterAll obliging (plan flags p.names) u.vref u.world) hupdated
  have hopen : (vfsOpen obliging vfsRoot p.text flags ()).map Outcome.res =
      some (schedule flags 0 none p.names).2 := by
    have hstart : start obliging vfsRoot p.text () = some updated := by
      simp only [start, ite_self]
      exact hupdated
    rw [vfsOpen_eq, hstart, Option.bind_some, hopened, Option.map_some,
      Outcome.finish_of_eq hres, p.names_text]
    rfl
  intro heq
  rw [heq, hwalk, Option.map_some, Option.some_inj, hzero] at hopen
  omega

/-- On a path of at most `PATH_MAX_RESOLVES` names that fit a name buffer with
their terminators, `vfs_open` is the walk over the names, whatever the drivers
do, exactly when no name fills the buffer. -/
theorem vfsOpen_eq_openEach_iff (p : WrittenPath) (flags : ℕ)
    (hcount : p.names.length ≤ pathMaxResolves)
    (hfit : ∀ name ∈ p.names, name.length < fileMaxName) :
    (∀ (W : Type) (m : Mounts W) (relation : VRef) (w : W),
        vfsOpen m relation p.text flags w = openEach m relation p flags w) ↔
      ∀ name ∈ p.names, name.length ≠ fileMaxName - 1 := by
  constructor
  · intro hall
    by_contra hsome
    have hnot : ¬ Acceptable p.names := fun hacc =>
      hsome fun name hname => Nat.ne_of_lt (hacc.2 name hname)
    exact p.vfsOpen_ne_openEach hnot flags (hall Unit obliging vfsRoot ())
  · intro hshort W m relation w
    have hacc : Acceptable p.names := by
      refine ⟨hcount, fun name hname => ?_⟩
      have h₁ := hfit name hname
      have h₂ := hshort name hname
      omega
    exact p.vfsOpen_eq_openEach hacc m relation flags w

/-- The theorem at `/a/b/`. -/
theorem vfsOpen_eq_openEach_iff_ab :
    vfsOpen obliging vfsRoot [47, 97, 47, 98, 47] 0 () =
      openEach obliging vfsRoot ⟨true, [[97], [98]], true, by decide, by decide⟩ 0 () :=
  (vfsOpen_eq_openEach_iff ⟨true, [[97], [98]], true, by decide, by decide⟩ 0 (by decide)
    (by decide)).mpr (by decide) Unit obliging vfsRoot ()

/-- The path of one name of 255 characters, as long as a name may be by the
comment on `FILE_MAX_NAME`. -/
def fullName : WrittenPath where
  absolute := true
  names := [List.replicate 255 97]
  trailing := false
  plain := by decide +kernel
  ended := by decide

/-- Such a name is refused as too long, where the walk enters it. -/
theorem vfsOpen_refuses_fullName :
    (∀ name ∈ fullName.names, name.length < fileMaxName) ∧
      (vfsOpen obliging vfsRoot fullName.text 0 ()).map Outcome.res = some linuxEnametoolong ∧
      (openEach obliging vfsRoot fullName 0 ()).map Outcome.res = some 0 := by
  decide +kernel

end Neos.Vfs
