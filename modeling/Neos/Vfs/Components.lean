import Neos.Vfs.Paths

/-!
# Taking a path apart

A caller of `vfs_resolve` collects the names of a path in a buffer of
`FILE_MAX_NAME` bytes.  Here the function runs on memory: the string ends with
its terminator, the buffer has its size, and an access outside of either has no
result.  Every call succeeds and agrees with `vfsResolve`, so the names which a
whole run delivers are known from the sections of the path.

They are not always the non-empty components: two slashes in a row deliver an
empty name, and a component of `FILE_MAX_NAME - 1` bytes counts as too long.
-/

namespace Neos.Vfs

/-! ## Memory accesses -/

/-- The byte of a string at an index; behind the terminator nothing is read. -/
def readAt (string : CString) (i : ℕ) : Option UInt8 := (string ++ [0])[i]?

/-- Store a byte into a buffer. -/
def putAt (buffer : List UInt8) (i : ℕ) (chr : UInt8) : Option (List UInt8) :=
  if i < buffer.length then some (buffer.set i chr) else none

/-- The string at the start of a buffer. -/
def bufferName (buffer : List UInt8) : CString := buffer.takeWhile (· ≠ 0)

theorem readAt_eq {string : CString} {i : ℕ} (h : i ≤ string.length) :
    readAt string i = some (charAt string i) := by
  rw [readAt, charAt, List.getD_eq_getElem?_getD]
  rcases Nat.lt_or_eq_of_le h with hlt | rfl
  · rw [List.getElem?_append_left hlt, List.getElem?_eq_getElem hlt]
    rfl
  · simp

/-- A name, followed by a null byte, is the string a buffer holds. -/
theorem bufferName_set {buffer : List UInt8} {name : CString} (h : 0 ∉ name)
    (htake : buffer.take name.length = name) (hlen : name.length < buffer.length) :
    bufferName (buffer.set name.length 0) = name := by
  have hset : buffer.set name.length 0 = name ++ 0 :: buffer.drop (name.length + 1) := by
    rw [List.set_eq_take_append_cons_drop, if_pos hlen, htake]
  rw [bufferName, hset, List.takeWhile_append_of_pos]
  · simp
  · intro c hc
    simp only [decide_eq_true_eq]
    rintro rfl
    exact h hc

/-! ## `vfs_resolve` on memory -/

/-- The loop of `vfs_resolve`: the number of free places, the offset, the index
into the buffer and the buffer. -/
def scanLoop (string : CString) :
    ℕ → ℕ → ℕ → List UInt8 → Option (ℕ × ℕ × List UInt8 × Bool)
  | 0, offset, i, buffer => some (offset, i, buffer, true)
  | room + 1, offset, i, buffer => do
      let chr ← readAt string offset
      if chr = slash ∨ chr = 0 then some (offset, i, buffer, false)
      else scanLoop string room (offset + 1) (i + 1) (← putAt buffer i chr)

/-- What a call leaves behind: its result, the buffer and the path. -/
structure Scanned where
  more : Bool
  buffer : List UInt8
  path : VPath

/-- `vfs_resolve` with the accesses it makes. -/
def vfsResolveInto (path : VPath) (buffer : List UInt8) : Option Scanned := do
  let first ← readAt path.string path.offset
  let offset := if first = slash then path.offset + 1 else path.offset
  let second ← readAt path.string offset
  if second = 0 then some ⟨false, buffer, { path with offset := offset }⟩
  else
    let (stop, i, filled, full) ← scanLoop path.string (fileMaxName - 1) offset 0 buffer
    let named ← putAt filled i 0
    some
      { more := true
        buffer := named
        path :=
          { path with
            offset := stop
            resolves := path.resolves + 1
            errno := if full then linuxEnametoolong else path.errno } }

/-- What `resolveLoop` has collected is in the buffer of `scanLoop`. -/
theorem scanLoop_eq {string : CString} :
    ∀ (room offset : ℕ) (buffer : List UInt8) (name : CString), offset ≤ string.length →
      buffer.take name.length = name → name.length + room < buffer.length → 0 ∉ name →
      ∃ filled, scanLoop string room offset name.length buffer =
          some ((resolveLoop string room offset name).1,
            (resolveLoop string room offset name).2.1.length, filled,
            (resolveLoop string room offset name).2.2) ∧
        filled.length = buffer.length ∧
        filled.take (resolveLoop string room offset name).2.1.length =
          (resolveLoop string room offset name).2.1 ∧
        (resolveLoop string room offset name).2.1.length < filled.length ∧
        0 ∉ (resolveLoop string room offset name).2.1 ∧
        (resolveLoop string room offset name).1 ≤ string.length
  | 0, offset, buffer, name, hoff, htake, hroom, hzero =>
      ⟨buffer, rfl, rfl, htake, hroom, hzero, hoff⟩
  | room + 1, offset, buffer, name, hoff, htake, hroom, hzero => by
      rw [scanLoop, readAt_eq hoff, resolveLoop]
      dsimp only [Option.bind_eq_bind, Option.bind_some]
      by_cases hend : charAt string offset = slash ∨ charAt string offset = 0
      · rw [if_pos hend, if_pos hend]
        exact ⟨buffer, rfl, rfl, htake, by dsimp only; omega, hzero, hoff⟩
      · rw [if_neg hend, if_neg hend]
        obtain ⟨hslash, hne⟩ := not_or.mp hend
        have hlt : name.length < buffer.length := by omega
        have hput : putAt buffer name.length (charAt string offset) =
            some (buffer.set name.length (charAt string offset)) := if_pos hlt
        have hnext : (buffer.set name.length (charAt string offset)).take
            (name ++ [charAt string offset]).length = name ++ [charAt string offset] := by
          rw [List.length_append, List.length_singleton, List.take_add_one,
            List.take_set_of_le (Nat.le_refl _), htake, List.getElem?_set_self hlt]
          rfl
        have hrec := scanLoop_eq room (offset + 1) (buffer.set name.length (charAt string offset))
          (name ++ [charAt string offset]) (lt_length_of_charAt hne) hnext
          (by rw [List.length_append, List.length_set, List.length_singleton]; omega)
          (by simp [hzero, Ne.symm hne])
        rw [List.length_append, List.length_singleton, List.length_set] at hrec
        rw [hput]
        exact hrec

/-- A call stays within the string and the buffer, and does what the model of
`vfs_resolve` says. -/
theorem vfsResolveInto_eq {path : VPath} {buffer : List UInt8}
    (hoff : path.offset ≤ path.string.length) (hlen : buffer.length = fileMaxName) :
    ∃ filled, vfsResolveInto path buffer =
        some ⟨(vfsResolve path).more, filled, (vfsResolve path).path⟩ ∧
      filled.length = fileMaxName ∧
      ((vfsResolve path).more = true → bufferName filled = (vfsResolve path).name) ∧
      (vfsResolve path).path.offset ≤ path.string.length ∧
      (vfsResolve path).path.string = path.string := by
  have hstart : (if charAt path.string path.offset = slash then path.offset + 1
      else path.offset) ≤ path.string.length := by
    split
    · next h =>
        refine lt_length_of_charAt ?_
        rw [h]
        decide
    · exact hoff
  unfold vfsResolveInto vfsResolve
  rw [readAt_eq hoff]
  dsimp only [Option.bind_eq_bind, Option.bind_some]
  generalize (if charAt path.string path.offset = slash then path.offset + 1
    else path.offset) = start at hstart ⊢
  rw [readAt_eq hstart]
  dsimp only [Option.bind_some]
  by_cases hend : charAt path.string start = 0
  · rw [if_pos hend, if_pos hend]
    exact ⟨buffer, rfl, hlen, fun h => absurd h Bool.false_ne_true, hstart, rfl⟩
  · rw [if_neg hend, if_neg hend]
    obtain ⟨filled, hscan, hfilled, htake, hfits, hzero, hstop⟩ :=
      scanLoop_eq (fileMaxName - 1) start buffer [] hstart rfl
        (by rw [hlen]; decide) List.not_mem_nil
    rw [List.length_nil] at hscan
    rw [hscan]
    dsimp only [Option.bind_some]
    rw [putAt, if_pos hfits]
    refine ⟨_, rfl, by rw [List.length_set, hfilled, hlen], fun _ => ?_, hstop, rfl⟩
    exact bufferName_set hzero htake hfits

/-! ## The whole run -/

/-- Call `vfs_resolve` until it returns 0 or sets an error: the names it
delivered and the error. -/
def resolveAll : ℕ → VPath → List UInt8 → Option (List CString × ℤ)
  | 0, _, _ => none
  | fuel + 1, path, buffer => do
      let scanned ← vfsResolveInto path buffer
      if scanned.more = false ∨ scanned.path.errno ≠ 0 then some ([], scanned.path.errno)
      else
        let (names, errno) ← resolveAll fuel scanned.path scanned.buffer
        some (bufferName scanned.buffer :: names, errno)

/-- The names that leave room for the terminator and one byte more. -/
def delivered (names : List CString) : List CString :=
  names.takeWhile (·.length < fileMaxName - 1)

/-- The error for a list of names none of which may reach the limit. -/
def tooLong (names : List CString) (limit : ℕ) : ℤ :=
  if ∃ name ∈ names, limit ≤ name.length then linuxEnametoolong else 0

theorem tooLong_cons_of_lt {name : CString} {names : List CString} {limit : ℕ}
    (h : name.length < limit) : tooLong (name :: names) limit = tooLong names limit := by
  simp [tooLong, Nat.not_le_of_lt h]

theorem tooLong_cons_of_le {name : CString} {names : List CString} {limit : ℕ}
    (h : limit ≤ name.length) : tooLong (name :: names) limit = linuxEnametoolong := by
  simp [tooLong, h]

/-- A run delivers the sections of the path up to the first one that is too long. -/
theorem resolveAll_eq :
    ∀ (fuel : ℕ) (path : VPath) (buffer : List UInt8), path.rest.length < fuel →
      path.offset ≤ path.string.length → path.errno = 0 → buffer.length = fileMaxName →
      resolveAll fuel path buffer =
        some (delivered (sections path.rest), tooLong (sections path.rest) (fileMaxName - 1))
  | 0, _, _, hfuel, _, _, _ => absurd hfuel (Nat.not_lt_zero _)
  | fuel + 1, path, buffer, hfuel, hoff, herrno, hlen => by
      obtain ⟨filled, hcall, hfilled, hname, hstop, hstring⟩ := vfsResolveInto_eq hoff hlen
      rw [resolveAll, hcall]
      dsimp only [Option.bind_eq_bind, Option.bind_some]
      by_cases hend : stripSlash path.rest = []
      · have hmore := vfsResolve_done hend
        have hkept : (vfsResolve path).path.errno = 0 := by
          rw [← herrno]
          rw [VPath.rest, stripSlash_tail, tail_eq_nil_iff] at hend
          unfold vfsResolve
          dsimp only
          rw [if_pos hend]
        rw [if_pos (Or.inl hmore), sections_nil hend, hkept]
        rfl
      · have hmore := (vfsResolve_more hend).1
        rw [sections_cons hend]
        by_cases hfits : (nextName (stripSlash path.rest)).length < fileMaxName - 1
        · obtain ⟨hnext, hkept, hrest⟩ := vfsResolve_fits hend hfits
          have hgo : ¬ ((vfsResolve path).more = false ∨ (vfsResolve path).path.errno ≠ 0) := by
            simp [hmore, hkept, herrno]
          have hshort := afterName_length_lt path.rest hend
          have hrec := resolveAll_eq fuel (vfsResolve path).path filled
            (by rw [hrest]; omega) (by rw [hstring]; exact hstop) (hkept.trans herrno) hfilled
          rw [if_neg hgo, hrec, hrest, hname hmore, hnext, tooLong_cons_of_lt hfits, delivered,
            delivered, List.takeWhile_cons_of_pos (by simpa using hfits)]
          rfl
        · have hlong := Nat.le_of_not_lt hfits
          have herr := vfsResolve_long hend hlong
          have hstopped : (vfsResolve path).path.errno ≠ 0 := by
            rw [herr]
            decide
          rw [if_pos (Or.inr hstopped), herr, tooLong_cons_of_le hlong, delivered,
            List.takeWhile_cons_of_neg (by simpa using hfits)]

/-! ## The components of a path -/

/-- The non-empty slash-separated components of a path. -/
def components (s : CString) : List CString := (s.splitOn slash).filter (· ≠ [])

theorem components_slash (s : CString) : components (slash :: s) = components s := by
  simp [components, List.splitOn_cons_eq_if_modifyHead]

theorem components_stripSlash (s : CString) : components (stripSlash s) = components s := by
  cases s with
  | nil => rfl
  | cons c rest =>
      rw [stripSlash]
      split
      · next h => rw [h, components_slash]
      · rfl

theorem slash_not_mem_nextName (s : CString) : slash ∉ nextName s := by
  intro hmem
  have := List.mem_takeWhile_imp hmem
  simp at this

/-- The first name of a path, if it has a letter, is its first component. -/
theorem components_eq (s : CString) :
    components s = [nextName s].filter (· ≠ []) ++ components (afterName s) := by
  have hsplit : nextName s ++ afterName s = s :=
    List.takeWhile_append_dropWhile
  cases hafter : afterName s with
  | nil =>
      rw [hafter, List.append_nil] at hsplit
      have hmem := slash_not_mem_nextName s
      rw [hsplit] at hmem
      rw [components, List.splitOn_eq_singleton hmem, hsplit]
      simp [components]
  | cons c rest =>
      have hc : c = slash := by
        have := List.head?_dropWhile_not (· ≠ slash) s
        rw [← afterName, hafter] at this
        simpa using this
      rw [hafter, hc] at hsplit
      rw [hc, components_slash, ← hsplit, components,
        List.splitOn_append_cons_self_of_not_mem (slash_not_mem_nextName s),
        nextName_append (slash_not_mem_nextName s), List.filter_cons]
      simp only [List.filter_cons, List.filter_nil, components]
      split
      · rfl
      · rfl

/-- The components are the sections that are not empty. -/
theorem sections_filter (s : CString) : (sections s).filter (· ≠ []) = components s := by
  induction s using sections.induct with
  | case1 s h =>
      rw [sections_nil h, ← components_stripSlash, h]
      rfl
  | case2 s h ih =>
      rw [sections_cons h, ← components_stripSlash, components_eq, ← ih, ← List.filter_append]
      rfl

/-! ## When the components are delivered -/

/-- Called from the start of a path until it returns 0 or reports an error,
`vfs_resolve` stays within the string and a buffer of `FILE_MAX_NAME` bytes,
stops, and delivers the components in order; it reports `LINUX_ENAMETOOLONG`
at the first one longer than `FILE_MAX_NAME - 1` bytes, and no error otherwise. -/
def DeliversComponents (s : CString) : Prop :=
  ∀ buffer : List UInt8, buffer.length = fileMaxName → ∃ bound, ∀ fuel, bound ≤ fuel →
    resolveAll fuel ⟨s, 0, 0, 0⟩ buffer =
      some ((components s).takeWhile (·.length ≤ fileMaxName - 1),
        tooLong (components s) fileMaxName)

/-- Up to the first one that is longer than `FILE_MAX_NAME - 1` bytes, no
section of the path is empty and none has exactly this length. -/
def PlainSections (s : CString) : Prop :=
  ∀ name ∈ (sections s).takeWhile (·.length ≤ fileMaxName - 1),
    name ≠ [] ∧ name.length ≠ fileMaxName - 1

/-- The names delivered of a list of sections are its non-empty members up to
the first overlong one just when no member before that is empty or of exactly
the limit. -/
theorem delivered_eq_iff (names : List CString) :
    (delivered names = (names.filter (· ≠ [])).takeWhile (·.length ≤ fileMaxName - 1) ∧
        tooLong names (fileMaxName - 1) = tooLong (names.filter (· ≠ [])) fileMaxName) ↔
      ∀ name ∈ names.takeWhile (·.length ≤ fileMaxName - 1),
        name ≠ [] ∧ name.length ≠ fileMaxName - 1 := by
  induction names with
  | nil => simp [delivered, tooLong]
  | cons name names ih =>
      by_cases hempty : name = []
      · -- the empty name is delivered, but it is no component
        subst hempty
        constructor
        · rintro ⟨hsame, -⟩
          have hmem : [] ∈ (names.filter (· ≠ [])).takeWhile (·.length ≤ fileMaxName - 1) := by
            rw [List.filter_cons_of_neg (by simp)] at hsame
            rw [← hsame, delivered, List.takeWhile_cons_of_pos (by decide)]
            exact List.mem_cons_self
          have := (List.takeWhile_sublist _).subset hmem
          simp at this
        · intro hall
          exact absurd rfl (hall [] (by simp)).1
      · rw [List.filter_cons_of_pos (by simpa using hempty)]
        rcases Nat.lt_trichotomy name.length (fileMaxName - 1) with hlt | heq | hgt
        · -- a name that fits is on both sides
          have hle : name.length < fileMaxName := Nat.lt_of_lt_of_le hlt (by decide)
          rw [delivered, List.takeWhile_cons_of_pos (by simpa using hlt), ← delivered,
            List.takeWhile_cons_of_pos (by simpa using Nat.le_of_lt hlt),
            List.takeWhile_cons_of_pos (by simpa using Nat.le_of_lt hlt),
            tooLong_cons_of_lt hlt, tooLong_cons_of_lt hle, List.forall_mem_cons, ← ih]
          simp [hempty, Nat.ne_of_lt hlt]
        · -- a name of exactly the limit is a component, but it is not delivered
          constructor
          · rintro ⟨hsame, -⟩
            rw [delivered, List.takeWhile_cons_of_neg (by simp [heq]),
              List.takeWhile_cons_of_pos (by simp [heq])] at hsame
            exact absurd hsame (List.cons_ne_nil _ _).symm
          · intro hall
            refine absurd heq (hall name ?_).2
            rw [List.takeWhile_cons_of_pos (by simp [heq])]
            exact List.mem_cons_self
        · -- both sides stop at a longer one
          have hge : fileMaxName ≤ name.length := hgt
          rw [delivered, List.takeWhile_cons_of_neg (by simpa using Nat.le_of_lt hgt),
            List.takeWhile_cons_of_neg (by simpa using hgt),
            List.takeWhile_cons_of_neg (by simpa using hgt),
            tooLong_cons_of_le (Nat.le_of_lt hgt), tooLong_cons_of_le hge]
          simp

/-- What a run over a path delivers, compared with its components. -/
theorem deliversComponents_iff_delivered {s : CString} (hs : 0 ∉ s) :
    DeliversComponents s ↔
      delivered (sections s) = (components s).takeWhile (·.length ≤ fileMaxName - 1) ∧
        tooLong (sections s) (fileMaxName - 1) = tooLong (components s) fileMaxName := by
  have hrest : (⟨s, 0, 0, 0⟩ : VPath).rest = s := by
    rw [VPath.rest, tail, List.drop_zero, List.takeWhile_eq_self_iff]
    intro c hc
    simp only [decide_eq_true_eq]
    rintro rfl
    exact hs hc
  have hrun : ∀ buffer : List UInt8, buffer.length = fileMaxName → ∀ fuel, s.length < fuel →
      resolveAll fuel ⟨s, 0, 0, 0⟩ buffer =
        some (delivered (sections s), tooLong (sections s) (fileMaxName - 1)) := by
    intro buffer hlen fuel hfuel
    have := resolveAll_eq fuel ⟨s, 0, 0, 0⟩ buffer (by rwa [hrest]) (Nat.zero_le _) rfl hlen
    rwa [hrest] at this
  constructor
  · intro hall
    have hlen : (List.replicate fileMaxName (0 : UInt8)).length = fileMaxName :=
      List.length_replicate
    obtain ⟨bound, hbound⟩ := hall _ hlen
    have hsame := hbound (bound + s.length + 1) (by omega)
    rw [hrun _ hlen _ (by omega)] at hsame
    exact Prod.mk.inj (Option.some.inj hsame)
  · rintro ⟨hnames, herrno⟩ buffer hlen
    refine ⟨s.length + 1, fun fuel hfuel => ?_⟩
    rw [hrun buffer hlen fuel hfuel, hnames, herrno]

/-- A path is taken apart into its components exactly when no section is empty
and none fills the buffer up to its last place, up to the first overlong one. -/
theorem vfsResolve_components_iff (s : CString) (hs : 0 ∉ s) :
    DeliversComponents s ↔ PlainSections s := by
  rw [PlainSections, ← delivered_eq_iff, sections_filter]
  exact deliversComponents_iff_delivered hs

/-- The path `/a/b/`. -/
theorem vfsResolve_components_ab :
    0 ∉ ([47, 97, 47, 98, 47] : CString) ∧ DeliversComponents [47, 97, 47, 98, 47] := by
  have hsections : sections [47, 97, 47, 98, 47] = [[97], [98]] := by
    rw [sections_cons (by decide), sections_cons (by decide), sections_nil (by decide)]
    rfl
  refine ⟨by decide, (vfsResolve_components_iff _ (by decide)).mpr ?_⟩
  rw [PlainSections, hsections]
  simp [fileMaxName]

/-- The path `a//b`: between the slashes an empty name is delivered. -/
theorem vfsResolve_doubled_slash : ¬ DeliversComponents [97, 47, 47, 98] := by
  have hsections : sections [97, 47, 47, 98] = [[97], [], [98]] := by
    rw [sections_cons (by decide), sections_cons (by decide), sections_cons (by decide),
      sections_nil (by decide)]
    rfl
  rw [deliversComponents_iff_delivered (by decide), ← sections_filter, hsections]
  simp [delivered, fileMaxName]

end Neos.Vfs
