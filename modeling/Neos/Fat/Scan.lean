import Neos.Fat.Listing

/-!
# Scanning a directory

The loop of `fat_find_full` reads the slots one by one.  Over a well-formed
directory it puts every long name together in front of its entry, so that it
visits exactly the items.
-/

namespace Neos.Fat

open ByteRange

variable {g : Bpb} {s : State} {l : List ℕ} {k : ℕ} {e : DirEntry}

/-! ## Storing a long name -/

theorem length_lfnChars (e : DirEntry) : e.lfnChars.length = 13 := by
  simp [DirEntry.lfnChars]

theorem storeAt_of_le {array values : List ℕ} {index : ℕ}
    (h : index + values.length ≤ array.length) :
    storeAt array index values =
      some (array.take index ++ values ++ array.drop (index + values.length)) := by
  rw [storeAt, if_pos h]

theorem LongSlots.length_chars {m : ℕ} {group : List DirEntry} {chars : List ℕ}
    (h : LongSlots m group chars) : chars.length = 13 * m := by
  induction h with
  | nil => rfl
  | cons _ _ _ ih =>
      rw [List.length_append, ih, length_lfnChars]
      omega

theorem ordinal_bits : ∀ m, m < 15 →
    (UInt8.ofNat (m + 1) &&& 0x0F).toNat = m + 1 ∧ UInt8.ofNat (m + 1) &&& 0x40 = 0 ∧
      (UInt8.ofNat (0x40 + (m + 1)) &&& 0x0F).toNat = m + 1 ∧
      UInt8.ofNat (0x40 + (m + 1)) &&& 0x40 ≠ 0 := by
  decide

theorem ordinal_ne : ∀ m, m < 15 →
    UInt8.ofNat (m + 1) ≠ 0 ∧ UInt8.ofNat (m + 1) ≠ 0xE5 ∧
      UInt8.ofNat (0x40 + (m + 1)) ≠ 0 ∧ UInt8.ofNat (0x40 + (m + 1)) ≠ 0xE5 := by
  decide

theorem lfnOffset_eq {m : ℕ} (hm : m < 2 ^ 8) : u32 (sub32 (m + 1) 1 * 13) = 13 * m := by
  rw [sub32_of_le (by omega) (by omega), u32_of_lt (by omega)]
  omega

/-- A part of a long name is stored at its place. -/
theorem storeLfnSlot_part {m : ℕ} (hm : m < 15) {lf : List ℕ} (hlen : lf.length = 260)
    (hordinal : e.dirName 0 = UInt8.ofNat (m + 1)) :
    storeLfnSlot e lf = some (lf.take (13 * m) ++ e.lfnChars ++ lf.drop (13 * m + 13)) := by
  obtain ⟨hlow, hflag, -, -⟩ := ordinal_bits m hm
  have hchars := length_lfnChars e
  unfold storeLfnSlot
  rw [hordinal, hlow]
  dsimp only
  rw [lfnOffset_eq (hm.trans (by decide)), storeAt_of_le (by omega), hchars,
    Option.bind_eq_bind, Option.bind_some,
    if_neg (not_not.mpr hflag)]
  rfl

/-- The part that comes first is followed by a zero. -/
theorem storeLfnSlot_first {m : ℕ} (hm : m < 15) {lf : List ℕ} (hlen : lf.length = 260)
    (hordinal : e.dirName 0 = UInt8.ofNat (0x40 + (m + 1))) :
    storeLfnSlot e lf =
      some (lf.take (13 * m) ++ e.lfnChars ++ 0 :: lf.drop (13 * m + 14)) := by
  obtain ⟨-, -, hlow, hflag⟩ := ordinal_bits m hm
  have hchars := length_lfnChars e
  have hlast : u32 (13 * m + 13) = 13 * m + 13 := u32_of_lt (by omega)
  have hhead : (lf.take (13 * m) ++ e.lfnChars).length = 13 * m + 13 := by
    rw [List.length_append, List.length_take, hchars]
    omega
  unfold storeLfnSlot
  rw [hordinal, hlow]
  dsimp only
  rw [lfnOffset_eq (hm.trans (by decide)), storeAt_of_le (by omega), hchars,
    Option.bind_eq_bind, Option.bind_some,
    if_pos hflag, hlast, storeAt_of_le]
  · rw [List.take_left' hhead, List.length_singleton, List.append_assoc _ [0]]
    congr 2
    rw [List.drop_append, hhead, List.drop_eq_nil_of_le (by omega), List.nil_append,
      List.drop_drop, List.singleton_append]
    congr 2
    omega
  · rw [List.length_append, hhead, List.length_drop, List.length_singleton]
    omega

/-- The slots of a long name, stored one after the other. -/
def assemble (group : List DirEntry) (lf : List ℕ) : Option (List ℕ) :=
  group.foldlM (fun lf e => storeLfnSlot e lf) lf

theorem assemble_cons (group : List DirEntry) (lf : List ℕ) :
    assemble (e :: group) lf = (storeLfnSlot e lf).bind (assemble group) := by
  unfold assemble
  rw [List.foldlM_cons, Option.bind_eq_bind]

/-- The parts of a long name fill the array from its start. -/
theorem assemble_longSlots {m : ℕ} {group : List DirEntry} {chars : List ℕ}
    (h : LongSlots m group chars) :
    ∀ {lf : List ℕ}, lf.length = 260 → m ≤ 15 →
      assemble group lf = some (chars ++ lf.drop (13 * m)) := by
  induction h with
  | nil => exact fun _ _ => rfl
  | @cons m e group chars hattr hordinal hrest ih =>
      intro lf hlen hm
      have hhead : (lf.take (13 * m)).length = 13 * m := by
        rw [List.length_take]
        omega
      have hlen' : (lf.take (13 * m) ++ e.lfnChars ++ lf.drop (13 * m + 13)).length = 260 := by
        rw [List.length_append, List.length_append, List.length_drop, hhead, length_lfnChars]
        omega
      rw [assemble_cons, storeLfnSlot_part (by omega) hlen hordinal, Option.bind_some,
        ih hlen' (by omega), List.append_assoc (lf.take _), List.drop_left' hhead,
        List.append_assoc]
      rfl

/-! ## Reading a slot -/

/-- A handle that covers all the clusters of a directory. -/
structure Covers (g : Bpb) (s : State) (directory : FatFile) (l : List ℕ) : Prop where
  chain : FileChain g s.disk directory.fatDir.dirFstClusLO l
  size : directory.fatDir.dirFileSize = l.length * g.clusterSize

theorem Covers.of_looked {s' : State} {directory : FatFile} (h : Covers g s directory l)
    (hlooked : Looked s s') : Covers g s' directory l := by
  refine ⟨?_, h.size⟩
  rw [hlooked.disk]
  exact h.chain

/-- A handle on a directory covers it when the size is computed from the number of its
clusters. -/
theorem covers_counted (hg : Geometry g) (directory : FatFile)
    (h : FileChain g s.disk directory.fatDir.dirFstClusLO l) {size : ℕ}
    (hsize : size = l.length * g.clusterSize) :
    ∃ s', fatFileClusterCount g directory s = some (l.length, s') ∧ Looked s s' ∧
      Covers g s' { directory with fatDir := directory.fatDir.setFileSize (u32 size) } l := by
  have hbytes := h.bytes_lt hg
  obtain ⟨s', hcount, hlooked⟩ := fatFileClusterCount_spec hg directory h
  refine ⟨s', hcount, hlooked, ⟨?_, ?_⟩⟩
  · dsimp only
    rw [DirEntry.dirFstClusLO_setFileSize, hlooked.disk]
    exact h
  · dsimp only
    rw [DirEntry.dirFileSize_setFileSize, hsize, u32_of_lt hbytes]
    exact Nat.mod_eq_of_lt hbytes

/-- `fat_fread` of a slot reads its entry. -/
theorem fatFread_slot (hg : Geometry g) {directory : FatFile} (h : Covers g s directory l)
    (hk : 32 * k + 32 ≤ l.length * g.clusterSize) (out : ℕ → UInt8) :
    ∃ out' file' s', fatFread g out sizeofDirEntry (fatFseekSet directory (32 * k)) s =
        some (out', file', s') ∧ DirEntry.ofBuffer out' = entryAt g s.disk l (32 * k) ∧
      Looked s s' := by
  have hbytes := h.chain.bytes_lt hg
  have hcursor : (fatFseekSet directory (32 * k)).cursor = 32 * k := u32_of_lt (by omega)
  have hsame : (fatFseekSet directory (32 * k)).fatDir = directory.fatDir := rfl
  have hsize : SizeFits g directory.fatDir.dirFileSize l.length := by
    rw [h.size]
    exact ⟨Nat.mul_le_mul_right _ (Nat.sub_le _ _), le_rfl⟩
  obtain ⟨s', hread, hlooked⟩ := fatFread_spec (n := sizeofDirEntry) hg
    (fatFseekSet directory (32 * k)) (by decide) (by rw [hsame]; exact h.chain)
    (by rw [hsame]; exact hsize) (by rw [hsame, hcursor, h.size]; omega) out
  refine ⟨_, _, s', hread, ?_, hlooked⟩
  apply DirEntry.ext_buffer
  intro i hi
  have hall : min sizeofDirEntry (l.length * g.clusterSize - 32 * k) = 32 := by
    rw [sizeofDirEntry]
    omega
  rw [entryAt, DirEntry.buffer_ofBuffer _ hi, DirEntry.buffer_ofBuffer _ hi, hsame, hcursor, h.size,
    hall, if_pos hi]

theorem length_slots (g : Bpb) (disk : ℕ → UInt8) (l : List ℕ) :
    (slots g disk l).length = l.length * g.clusterSize / 32 := by
  rw [slots, List.length_map, List.length_range]

/-- The first of the slots from the `k`-th one on. -/
theorem slots_cons {disk : ℕ → UInt8} {rest : List DirEntry}
    (h : (slots g disk l).drop k = e :: rest) :
    32 * k + 32 ≤ l.length * g.clusterSize ∧ entryAt g disk l (32 * k) = e ∧
      (slots g disk l).drop (k + 1) = rest := by
  have hk : k < (slots g disk l).length := by
    by_contra hge
    rw [List.drop_eq_nil_of_le (not_lt.mp hge)] at h
    exact List.cons_ne_nil _ _ h.symm
  rw [List.drop_eq_getElem_cons hk] at h
  obtain ⟨hentry, hrest⟩ := List.cons.inj h
  rw [length_slots] at hk
  refine ⟨by omega, ?_, hrest⟩
  rw [← hentry]
  simp [slots]

theorem slots_nil (hg : Geometry g) {disk : ℕ → UInt8} (h : (slots g disk l).drop k = []) :
    l.length * g.clusterSize ≤ 32 * k := by
  have hlen := List.drop_eq_nil_iff.mp h
  have hmul : l.length * g.clusterSize = 32 * (l.length * (g.secPerClus * 16)) := by
    rw [hg.clusterSize_eq]
    ring
  rw [length_slots] at hlen
  omega

/-! ## The rounds of the loop -/

section Rounds

variable (find : Find) (q : Query) (rootDir : FatFile) (rounds entries : ℕ) (lfn : Bool)
  {directory : FatFile}

/-- `subdir_out` during the scan: only the entry and the name differ from the
default. -/
def scanned (e : DirEntry) (lf : List ℕ) : FatFile :=
  { fatFileDefault with fatDir := e, longFilename := lf }

theorem scanned_default : scanned .zero fatFileDefault.longFilename = fatFileDefault := rfl

theorem length_defaultName : fatFileDefault.longFilename.length = 260 := by
  rw [fatFileDefault, List.length_cons, List.length_replicate]

/-- A round reads a slot and acts on it. -/
theorem findLoop_slot (hg : Geometry g) (h : Covers g s directory l)
    (hk : 32 * k + 32 ≤ l.length * g.clusterSize) (e₀ : DirEntry) (lf : List ℕ) :
    ∃ s', Looked s s' ∧
      findLoop g find q rootDir directory (rounds + 1) (32 * k) entries lfn (scanned e₀ lf) s =
        if (entryAt g s.disk l (32 * k)).dirName 0 = 0 then
          some (⟨.notFound, scanned (entryAt g s.disk l (32 * k)) lf, fatFileDefault, rootDir⟩, s')
        else if (entryAt g s.disk l (32 * k)).dirName 0 = 0xE5 then
          findLoop g find q rootDir directory rounds (32 * (k + 1)) entries lfn
            (scanned (entryAt g s.disk l (32 * k)) lf) s'
        else if (entryAt g s.disk l (32 * k)).dirAttr = 0x0F then
          (storeLfnSlot (entryAt g s.disk l (32 * k)) lf).bind fun lf' =>
            findLoop g find q rootDir directory rounds (32 * (k + 1)) entries
              (lfn || (entryAt g s.disk l (32 * k)).dirName 0 &&& 0x40 ≠ 0)
              (scanned (entryAt g s.disk l (32 * k)) lf') s'
        else
          (visitEntry find q rootDir (32 * k) entries lfn
              (scanned (entryAt g s.disk l (32 * k)) lf) s').bind fun r =>
            match r.1 with
            | .stop found => some (found, r.2)
            | .next subdir =>
                findLoop g find q rootDir directory rounds (32 * (k + 1)) (u32 (entries + 1)) false
                  subdir r.2 := by
  have hbytes := h.chain.bytes_lt hg
  obtain ⟨out, file, s', hread, hentry, hlooked⟩ := fatFread_slot hg h hk e₀.buffer
  have hoffset : u32 (32 * k + sizeofDirEntry) = 32 * (k + 1) := by
    rw [sizeofDirEntry, u32_of_lt (by omega)]
    omega
  have hbuffer : (scanned e₀ lf).fatDir.buffer = e₀.buffer := rfl
  refine ⟨s', hlooked, ?_⟩
  rw [findLoop, if_neg (by rw [h.size]; omega), hbuffer, hread, Option.bind_eq_bind,
    Option.bind_some]
  dsimp only
  rw [hentry, hoffset]
  rfl

/-- Behind the last slot the scan ends. -/
theorem findLoop_end (h : Covers g s directory l) (hk : l.length * g.clusterSize ≤ 32 * k)
    (subdir : FatFile) :
    findLoop g find q rootDir directory (rounds + 1) (32 * k) entries lfn subdir s =
      some (⟨.notFound, subdir, fatFileDefault, rootDir⟩, s) := by
  rw [findLoop, if_pos (by rw [h.size]; omega)]

/-- A slot with a part of a long name. -/
structure LongPart (e : DirEntry) : Prop where
  not_end : e.dirName 0 ≠ 0
  not_deleted : e.dirName 0 ≠ 0xE5
  attr : e.dirAttr = 0x0F

/-- Over slots with parts of long names the loop only puts the name together. -/
theorem findLoop_assemble (hg : Geometry g) :
    ∀ {group : List DirEntry} {k : ℕ} {s : State} {rest : List DirEntry} (lfn : Bool)
      (e₀ : DirEntry) (lf : List ℕ), Covers g s directory l → CacheFresh s →
        (slots g s.disk l).drop k = group ++ rest → (∀ e ∈ group, LongPart e) →
          ∃ s' e', Looked s s' ∧ (slots g s.disk l).drop (k + group.length) = rest ∧
            findLoop g find q rootDir directory (rounds + group.length) (32 * k) entries lfn
                (scanned e₀ lf) s =
              (assemble group lf).bind fun lf' =>
                findLoop g find q rootDir directory rounds (32 * (k + group.length)) entries
                  (lfn || group.any fun e => e.dirName 0 &&& 0x40 ≠ 0) (scanned e' lf') s'
  | [], k, s, rest, lfn, e₀, lf, h, hs, hslots, _ => by
      refine ⟨s, e₀, .refl hs, hslots, ?_⟩
      rw [List.any_nil, Bool.or_false, List.length_nil, Nat.add_zero, Nat.add_zero, assemble,
        List.foldlM_nil]
      exact (Option.bind_some _ _).symm
  | e :: group, k, s, rest, lfn, e₀, lf, h, hs, hslots, hparts => by
      obtain ⟨hk, hentry, hnext⟩ := slots_cons hslots
      obtain ⟨hzero, hdeleted, hattr⟩ := hparts e List.mem_cons_self
      obtain ⟨s₁, hlooked, hround⟩ :=
        findLoop_slot find q rootDir (rounds + group.length) entries lfn hg h hk e₀ lf
      rw [hentry, if_neg hzero, if_neg hdeleted, if_pos hattr] at hround
      rw [← hlooked.disk] at hnext
      cases hstore : storeLfnSlot e lf with
      | none =>
          -- an index outside the array
          obtain ⟨s₂, e', hlooked', hafter, -⟩ := findLoop_assemble (k := k + 1) hg lfn e lf
            (h.of_looked hlooked) hlooked.fresh hnext
            fun x hx => hparts x (List.mem_cons_of_mem _ hx)
          rw [hlooked.disk, Nat.add_right_comm] at hafter
          refine ⟨s₂, e', hlooked.trans hlooked', hafter, ?_⟩
          rw [List.length_cons, ← Nat.add_assoc, hround, assemble_cons, hstore, Option.bind_none,
            Option.bind_none, Option.bind_none]
      | some lf₁ =>
          obtain ⟨s₂, e', hlooked', hafter, hloop⟩ := findLoop_assemble (k := k + 1) hg
            (lfn || e.dirName 0 &&& 0x40 ≠ 0) e lf₁ (h.of_looked hlooked) hlooked.fresh hnext
            fun x hx => hparts x (List.mem_cons_of_mem _ hx)
          rw [hlooked.disk, Nat.add_right_comm] at hafter
          refine ⟨s₂, e', hlooked.trans hlooked', hafter, ?_⟩
          rw [List.length_cons, ← Nat.add_assoc, hround, assemble_cons, hstore, Option.bind_some,
            Option.bind_some, hloop, List.any_cons, Bool.or_assoc, Nat.add_right_comm k,
            ← Nat.add_assoc k]

theorem LongSlots.parts {m : ℕ} {group : List DirEntry} {chars : List ℕ}
    (h : LongSlots m group chars) (hm : m ≤ 15) :
    (∀ e ∈ group, LongPart e) ∧ (group.any fun e => e.dirName 0 &&& 0x40 ≠ 0) = false := by
  induction h with
  | nil => exact ⟨nofun, rfl⟩
  | @cons m e group chars hattr hordinal hrest ih =>
      obtain ⟨hparts, hflags⟩ := ih (by omega)
      obtain ⟨hzero, hdeleted, -, -⟩ := ordinal_ne m (by omega)
      obtain ⟨-, hflag, -, -⟩ := ordinal_bits m (by omega)
      refine ⟨List.forall_mem_cons.mpr ⟨⟨?_, ?_, hattr⟩, hparts⟩, ?_⟩
      · rwa [hordinal]
      · rwa [hordinal]
      · rw [List.any_cons, hordinal, hflags, hflag]
        rfl

/-- The parts of a long name are stored one after the other. -/
theorem findLoop_longSlots (hg : Geometry g) {m : ℕ} {group : List DirEntry} {chars : List ℕ}
    (hgroup : LongSlots m group chars) {rest : List DirEntry} (e₀ : DirEntry) (lf : List ℕ)
    (h : Covers g s directory l) (hs : CacheFresh s)
    (hslots : (slots g s.disk l).drop k = group ++ rest) (hlen : lf.length = 260) (hm : m ≤ 15) :
    ∃ s' e', Looked s s' ∧ (slots g s.disk l).drop (k + m) = rest ∧
      findLoop g find q rootDir directory (rounds + m) (32 * k) entries lfn (scanned e₀ lf) s =
        findLoop g find q rootDir directory rounds (32 * (k + m)) entries lfn
          (scanned e' (chars ++ lf.drop (13 * m))) s' := by
  obtain ⟨hparts, hflags⟩ := hgroup.parts hm
  obtain ⟨s', e', hlooked, hafter, hloop⟩ :=
    findLoop_assemble find q rootDir rounds entries hg lfn e₀ lf h hs hslots hparts
  rw [hgroup.length] at hafter hloop
  rw [assemble_longSlots hgroup hlen hm, Option.bind_some, hflags, Bool.or_false] at hloop
  exact ⟨s', e', hlooked, hafter, hloop⟩

/-- Storing an 8.3 name never fails. -/
theorem shortnameToLongname_eq {lf : List ℕ} (hlen : lf.length = 260) (e : DirEntry) :
    ∃ rest, shortnameToLongname e lf = some (shortnameChars e ++ rest) ∧
      (shortnameChars e ++ rest).length = 260 := by
  have hbase : ((e.bytes.take 8).takeWhile (· ≠ 0x20)).length ≤ 8 :=
    (List.takeWhile_sublist _).length_le.trans (List.length_take_le _ _)
  have hext : (((e.bytes.drop 8).take 3).takeWhile (· ≠ 0x20)).length ≤ 3 :=
    (List.takeWhile_sublist _).length_le.trans (List.length_take_le _ _)
  have hshort : (shortnameChars e).length ≤ 13 := by
    unfold shortnameChars
    dsimp only
    split <;> simp only [List.length_append, List.length_map, List.length_cons, List.length_nil] <;>
      omega
  refine ⟨lf.drop (0 + (shortnameChars e).length), ?_, ?_⟩
  · rw [shortnameToLongname, storeAt_of_le (by omega), List.take_zero, List.nil_append]
  · rw [List.length_append, List.length_drop]
    omega

theorem visitEntry_eq {dirOffset : ℕ} {e : DirEntry} {lf lf' : List ℕ}
    (h : nameEntry (lfn && !q.useShortname) (scanned e lf) = some (scanned e lf')) (s : State) :
    visitEntry find q rootDir dirOffset entries lfn (scanned e lf) s =
      visitNamed find q rootDir dirOffset entries lfn (scanned e lf') s := by
  rw [visitEntry, h]
  rfl

theorem nameEntry_short {e : DirEntry} {lf lf' : List ℕ} (h : shortnameToLongname e lf = some lf') :
    nameEntry false (scanned e lf) = some (scanned e lf') :=
  Option.bind_eq_some_iff.mpr ⟨lf', h, rfl⟩

/-- The array begins with the characters of the name that a lookup uses. -/
def Item.NameIn (useShortname : Bool) (i : Item) (lf : List ℕ) : Prop :=
  ∃ rest, lf = (i.view useShortname).long.elim (shortnameChars i.entry) (· ++ [0]) ++ rest

theorem Item.NameIn.nameOf {useShortname : Bool} {i : Item} {lf : List ℕ}
    (h : i.NameIn useShortname lf) (hascii : i.Ascii) : nameOf lf = (i.view useShortname).name := by
  obtain ⟨rest, rfl⟩ := h
  have hshort : Fat.nameOf (shortnameChars i.entry ++ rest) = shortName i.entry :=
    nameOf_shortnameChars hascii.short rest
  cases hlong : i.long with
  | none => cases useShortname <;> simpa [Item.view, Item.name, hlong] using hshort
  | some chars =>
      cases useShortname with
      | true => simpa [Item.view, Item.name] using hshort
      | false => simpa [Item.view, Item.name, hlong] using nameOf_longChars (hascii.long chars hlong) rest

/-- A long name that was put together is used unless 8.3 names are asked for. -/
theorem nameEntry_long {i : Item} {chars : List ℕ} (hlong : i.long = some chars)
    {rest : List ℕ} (hlen : (chars ++ 0 :: rest).length = 260) :
    ∃ lf', nameEntry (true && !q.useShortname) (scanned i.entry (chars ++ 0 :: rest)) =
        some (scanned i.entry lf') ∧ lf'.length = 260 ∧ i.NameIn q.useShortname lf' := by
  cases hview : q.useShortname with
  | false =>
      refine ⟨_, rfl, hlen, rest, ?_⟩
      simp [Item.view, hlong]
  | true =>
      obtain ⟨tail, hshort, hlen'⟩ := shortnameToLongname_eq hlen i.entry
      exact ⟨_, nameEntry_short hshort, hlen', tail, rfl⟩

/-- The slots of an item lead to one visit, with the name of the item in place. -/
theorem findLoop_item (hg : Geometry g) {used rest : List DirEntry} {i : Item}
    (hitem : ItemAt k used i) (e₀ : DirEntry) {lf : List ℕ}
    (h : Covers g s directory l) (hslots : (slots g s.disk l).drop k = used ++ rest)
    (hlen : lf.length = 260) :
    ∃ s' lf', Looked s s' ∧ (slots g s.disk l).drop (i.slot + 1) = rest ∧ lf'.length = 260 ∧
      i.NameIn q.useShortname lf' ∧
      findLoop g find q rootDir directory (rounds + used.length) (32 * k) entries false
          (scanned e₀ lf) s =
        (visitNamed find q rootDir (32 * i.slot) entries i.long.isSome (scanned i.entry lf')
            s').bind fun r =>
          match r.1 with
          | .stop found => some (found, r.2)
          | .next subdir =>
              findLoop g find q rootDir directory rounds (32 * (i.slot + 1)) (u32 (entries + 1))
                false subdir r.2 := by
  cases hitem with
  | @short e hlive =>
      obtain ⟨hk, hentry, hnext⟩ := slots_cons hslots
      obtain ⟨s₁, hlooked, hround⟩ := findLoop_slot find q rootDir rounds entries false hg h hk e₀ lf
      rw [hentry, if_neg hlive.not_end, if_neg hlive.not_deleted, if_neg hlive.not_long] at hround
      obtain ⟨tail, hshort, hlen'⟩ := shortnameToLongname_eq hlen e
      refine ⟨s₁, shortnameChars e ++ tail, hlooked, hnext, hlen', ⟨tail, ?_⟩, ?_⟩
      · cases q.useShortname <;> rfl
      · rw [List.length_singleton, hround, visitEntry_eq find q rootDir entries false
          (nameEntry_short hshort) s₁]
        rfl
  | @long m first e group chars hgroup hlive =>
      obtain ⟨hattr, hordinal, hparts, hm⟩ := hgroup
      rw [List.cons_append, List.append_assoc, List.singleton_append] at hslots
      -- The first part, with the zero behind the name.
      obtain ⟨hk, hentry, hnext⟩ := slots_cons hslots
      obtain ⟨-, -, hzero, hdeleted⟩ := ordinal_ne m (by omega)
      obtain ⟨-, -, -, hflag⟩ := ordinal_bits m (by omega)
      obtain ⟨s₁, hlooked, hround⟩ :=
        findLoop_slot find q rootDir (rounds + 1 + m) entries false hg h hk e₀ lf
      rw [hentry, hordinal, if_neg hzero, if_neg hdeleted, if_pos hattr,
        storeLfnSlot_first (by omega) hlen hordinal, Option.bind_some, decide_eq_true hflag,
        Bool.or_true] at hround
      -- The other parts.
      have hhead : (lf.take (13 * m)).length = 13 * m := by
        rw [List.length_take]
        omega
      have hlen₁ : (lf.take (13 * m) ++ first.lfnChars ++ 0 :: lf.drop (13 * m + 14)).length =
          260 := by
        rw [List.length_append, List.length_append, List.length_cons, List.length_drop, hhead,
          length_lfnChars]
        omega
      rw [← hlooked.disk] at hnext
      obtain ⟨s₂, e₂, hlooked₂, hafter, hloop⟩ := findLoop_longSlots find q rootDir (rounds + 1)
        entries true hg hparts first _ (h.of_looked hlooked) hlooked.fresh hnext hlen₁ (by omega)
      have hassembled : chars ++ (lf.take (13 * m) ++ first.lfnChars ++
          0 :: lf.drop (13 * m + 14)).drop (13 * m) =
            chars ++ first.lfnChars ++ 0 :: lf.drop (13 * m + 14) := by
        rw [List.append_assoc (lf.take _), List.drop_left' hhead, List.append_assoc]
      rw [hassembled] at hloop
      -- The entry itself.
      have hlooked' := hlooked.trans hlooked₂
      rw [hlooked.disk] at hafter
      obtain ⟨hk₂, hentry₂, hnext₂⟩ := slots_cons hafter
      rw [← hlooked'.disk] at hentry₂
      obtain ⟨s₃, hlooked₃, hround₃⟩ := findLoop_slot find q rootDir rounds entries true hg
        (h.of_looked hlooked') hk₂ e₂ (chars ++ first.lfnChars ++ 0 :: lf.drop (13 * m + 14))
      rw [hentry₂, if_neg hlive.not_end, if_neg hlive.not_deleted, if_neg hlive.not_long] at hround₃
      have hslot : k + 1 + m = k + m + 1 := by omega
      have hrounds : rounds + (first :: (group ++ [e])).length = rounds + 1 + m + 1 := by
        rw [List.length_cons, List.length_append, hparts.length, List.length_singleton]
        omega
      have hlen₂ : (chars ++ first.lfnChars ++ 0 :: lf.drop (13 * m + 14)).length = 260 := by
        rw [← hassembled, List.length_append, List.length_drop, hlen₁, hparts.length_chars]
        omega
      obtain ⟨lf', hname, hlen', hnamed⟩ :=
        nameEntry_long (i := ⟨e, k + m + 1, some (chars ++ first.lfnChars)⟩) q rfl hlen₂
      rw [hslot] at hround₃ hloop hnext₂
      refine ⟨s₃, lf', hlooked'.trans hlooked₃, hnext₂, hlen', hnamed, ?_⟩
      rw [hrounds, hround, hloop, hround₃, visitEntry_eq find q rootDir entries true hname s₃]
      rfl

/-- The first item at which a scan stops; the items are counted from `n` on. -/
def firstStop (stops : ℕ → Item → Bool) : ℕ → List Item → Option Item
  | _, [] => none
  | n, i :: items => if stops n i then some i else firstStop stops (n + 1) items

/-- The scan of well-formed slots visits the items in order, up to the first one at
which it stops. -/
theorem findLoop_first (hg : Geometry g) (stops : ℕ → Item → Bool)
    (result : Item → List ℕ → State → Option (FindResult × State)) {rest : List DirEntry}
    {items : List Item} (hlayout : Layout k rest items) :
    ∀ (rounds entries : ℕ) {s : State} (e₀ : DirEntry) (lf : List ℕ),
      (∀ i ∈ items, ∀ n lf s, i.NameIn q.useShortname lf →
        visitNamed find q rootDir (32 * i.slot) n i.long.isSome (scanned i.entry lf) s =
          if stops n i then (result i lf s).bind fun r => some (.stop r.1, r.2)
          else some (.next (scanned i.entry lf), s)) →
      Covers g s directory l → CacheFresh s → (slots g s.disk l).drop k = rest →
        lf.length = 260 → rest.length < rounds → entries + rest.length < 2 ^ 32 →
          ∃ s' lf', Looked s s' ∧
            match firstStop stops entries items with
            | none => ∃ e', findLoop g find q rootDir directory rounds (32 * k) entries false
                (scanned e₀ lf) s = some (⟨.notFound, scanned e' lf', fatFileDefault, rootDir⟩, s')
            | some i => i.NameIn q.useShortname lf' ∧
                findLoop g find q rootDir directory rounds (32 * k) entries false
                  (scanned e₀ lf) s = result i lf' s' := by
  induction hlayout with
  | done =>
      intro rounds entries s e₀ lf hvisit h hs hslots hlen hrounds hentries
      obtain ⟨rounds, rfl⟩ := Nat.exists_eq_add_of_le' hrounds
      exact ⟨s, lf, .refl hs, e₀, findLoop_end find q rootDir _ entries false h
        (slots_nil hg hslots) _⟩
  | stop hend =>
      intro rounds entries s e₀ lf hvisit h hs hslots hlen hrounds hentries
      obtain ⟨rounds, rfl⟩ := Nat.exists_eq_add_of_le' (Nat.succ_le_of_lt hrounds)
      obtain ⟨hk, hentry, -⟩ := slots_cons hslots
      obtain ⟨s₁, hlooked, hround⟩ :=
        findLoop_slot find q rootDir (rounds + _) entries false hg h hk e₀ lf
      rw [hentry, if_pos hend] at hround
      exact ⟨s₁, lf, hlooked, _, hround⟩
  | @deleted k e rest items hdeleted hrest ih =>
      intro rounds entries s e₀ lf hvisit h hs hslots hlen hrounds hentries
      obtain ⟨rounds, rfl⟩ := Nat.exists_eq_add_of_le' (Nat.succ_le_of_lt hrounds)
      obtain ⟨hk, hentry, hnext⟩ := slots_cons hslots
      obtain ⟨s₁, hlooked, hround⟩ :=
        findLoop_slot find q rootDir (rounds + (e :: rest).length) entries false hg h hk e₀ lf
      rw [hentry, if_neg (by rw [hdeleted]; decide), if_pos hdeleted] at hround
      rw [← hlooked.disk] at hnext
      rw [List.length_cons] at hentries
      obtain ⟨s₂, lf₂, hlooked₂, hresult⟩ := ih (rounds + (e :: rest).length) entries e lf
        hvisit (h.of_looked hlooked) hlooked.fresh hnext hlen (by rw [List.length_cons]; omega)
        (by omega)
      rw [← hround] at hresult
      exact ⟨s₂, lf₂, hlooked.trans hlooked₂, hresult⟩
  | @item k used rest i items hitem hrest ih =>
      intro rounds entries s e₀ lf hvisit h hs hslots hlen hrounds hentries
      have hslot := hitem.slot_eq
      have hused : 0 < used.length := by
        cases hitem <;> exact Nat.succ_pos _
      rw [List.length_append] at hrounds hentries
      obtain ⟨rounds, rfl⟩ := Nat.exists_eq_add_of_le' (show used.length ≤ rounds by omega)
      obtain ⟨s₁, lf₁, hlooked, hnext, hlen₁, hname, hround⟩ := findLoop_item find q rootDir rounds
        entries hg hitem e₀ h hslots hlen
      rw [hvisit i List.mem_cons_self entries lf₁ s₁ hname] at hround
      rw [firstStop]
      cases hstop : stops entries i with
      | true =>
          rw [hstop, if_pos rfl, Option.bind_assoc] at hround
          rw [if_pos rfl]
          exact ⟨s₁, lf₁, hlooked, hname, hround.trans (Option.bind_fun_some _)⟩
      | false =>
          rw [hstop, if_neg Bool.false_ne_true, Option.bind_some] at hround
          rw [if_neg Bool.false_ne_true]
          dsimp only at hround
          rw [u32_of_lt (by omega)] at hround
          rw [hslot] at ih
          rw [← hlooked.disk] at hnext
          obtain ⟨s₂, lf₂, hlooked₂, hresult⟩ := ih rounds (entries + 1) i.entry lf₁
            (fun j hj => hvisit j (List.mem_cons_of_mem _ hj)) (h.of_looked hlooked) hlooked.fresh
            hnext hlen₁ (by omega) (by omega)
          rw [← hround] at hresult
          exact ⟨s₂, lf₂, hlooked.trans hlooked₂, hresult⟩

/-- `fat_find_full` scans the directory from its first slot on, with a handle that
covers it. -/
theorem findWith_eq (hg : Geometry g) {rootDir : FatFile}
    (h : FileChain g s.disk (startDir rootDir).fatDir.dirFstClusLO l) :
    ∃ directory s', Looked s s' ∧ Covers g s' directory l ∧
      findWith g find q rootDir s =
        findLoop g find q (startDir rootDir) directory loopBound (32 * 0) 0 false
          (scanned .zero fatFileDefault.longFilename) s' := by
  have hsize : l.length * g.secPerClus * g.bytsPerSec = l.length * g.clusterSize := by
    rw [hg.clusterSize_eq, hg.bytsPerSec, mul_assoc]
  obtain ⟨s', hcount, hlooked, hcovers⟩ := covers_counted hg
    { fatFileDefault with fatDir := (startDir rootDir).fatDir } h hsize
  refine ⟨_, s', hlooked, hcovers, ?_⟩
  unfold findWith
  dsimp only
  rw [hcount, scanned_default, Option.bind_eq_bind, Option.bind_some, Nat.mul_zero]

end Rounds

end Neos.Fat
