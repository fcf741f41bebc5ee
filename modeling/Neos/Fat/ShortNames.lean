import Mathlib.Data.List.Find
import Neos.Fat.Creation
import Neos.Fat.Scan

/-!
# Names in the 8.3 format

`fat_create` splits a name at its last dot and stores the two parts, in capitals and padded
with blanks.  `shortname_to_longname` puts the parts together again, so that a lookup finds
the file under its own name, whatever the case, and under no other.
-/

namespace Neos.Fat

open ByteRange

variable {g : Bpb} {s s' : State} {file newFile dir : FatFile} {uninitialized : DirEntry}
  {path : List UInt8} {name : Name}

/-! ## The last place of a byte -/

theorem lastIndex_concat (c : UInt8) (l : List UInt8) (d : UInt8) :
    lastIndex c (l ++ [d]) = if d = c then some l.length else lastIndex c l := by
  have hlast : (l ++ [d]).getD l.length 0 = d := by
    rw [List.getD_append_right _ _ _ _ le_rfl, Nat.sub_self]
    rfl
  have hfront : (List.range l.length).reverse.find? (fun i => (l ++ [d]).getD i 0 = c) =
      (List.range l.length).reverse.find? fun i => l.getD i 0 = c := by
    apply List.find?_congr
    intro i hi
    rw [List.mem_reverse, List.mem_range] at hi
    rw [List.getD_append _ _ _ _ hi]
  unfold lastIndex
  rw [List.length_append, List.length_singleton, List.range_succ, List.reverse_append,
    List.reverse_singleton, List.singleton_append, List.find?_cons, hlast, hfront]
  by_cases hd : d = c
  · simp [hd]
  · simp [hd]

theorem lastIndex_of_not_mem {c : UInt8} {l : List UInt8} (h : c ∉ l) : lastIndex c l = none := by
  induction l using List.reverseRecOn with
  | nil => rfl
  | append_singleton l d ih =>
      rw [List.mem_append, not_or, List.mem_singleton] at h
      rw [lastIndex_concat, if_neg (Ne.symm h.2), ih h.1]

theorem lastIndex_append {c : UInt8} (l : List UInt8) {after : List UInt8} (h : c ∉ after) :
    lastIndex c (l ++ c :: after) = some l.length := by
  induction after using List.reverseRecOn with
  | nil => rw [lastIndex_concat, if_pos rfl]
  | append_singleton after d ih =>
      rw [List.mem_append, not_or, List.mem_singleton] at h
      rw [← List.cons_append, ← List.append_assoc, lastIndex_concat, if_neg (Ne.symm h.2), ih h.1]

/-- A byte that occurs has a last place. -/
theorem exists_last {c : UInt8} {l : List UInt8} (h : c ∈ l) :
    ∃ before after, l = before ++ c :: after ∧ c ∉ after := by
  obtain ⟨after, before, hreverse, hafter⟩ := List.eq_append_cons_of_mem (List.mem_reverse.mpr h)
  refine ⟨before.reverse, after.reverse, ?_, by rwa [List.mem_reverse]⟩
  have hl := congrArg List.reverse hreverse
  rwa [List.reverse_reverse, List.reverse_append, List.reverse_cons, List.append_assoc,
    List.singleton_append] at hl

theorem splitName_of_not_mem (h : 0x2E ∉ name) : splitName name = (name, []) := by
  rw [splitName, lastIndex_of_not_mem h]
  simp

theorem splitName_append (base : Name) {extension : Name} (h : 0x2E ∉ extension) :
    splitName (base ++ 0x2E :: extension) = (base, extension) := by
  rw [splitName, lastIndex_append base h]
  simp

/-- The parts of a name make the name, unless it ends in a dot. -/
theorem splitName_join (hdot : name.getLast? ≠ some 0x2E) :
    (if (splitName name).2 = [] then (splitName name).1
      else (splitName name).1 ++ 0x2E :: (splitName name).2) = name := by
  by_cases hmem : 0x2E ∈ name
  · obtain ⟨base, extension, rfl, hlast⟩ := exists_last hmem
    rw [splitName_append base hlast, if_neg]
    rintro rfl
    exact hdot List.getLast?_concat
  · rw [splitName_of_not_mem hmem, if_pos rfl]

/-! ## Capitals and blanks -/

theorem toUppercase_eq_iff {c d : UInt8} (hd : d < 0x41) : toUppercase c = d ↔ c = d := by
  unfold toUppercase
  grind

theorem toLowercase_toUppercase (c : UInt8) : toLowercase (toUppercase c) = toLowercase c := by
  unfold toLowercase toUppercase
  grind

/-- A field is read back up to its first blank. -/
theorem padName_takeWhile {n : ℕ} {chars : List UInt8} (hblank : 0x20 ∉ chars)
    (hlen : chars.length ≤ n) :
    (padName n chars).takeWhile (· ≠ 0x20) = chars.map toUppercase := by
  have hkept : ∀ c ∈ chars.map toUppercase, decide (c ≠ 0x20) = true := by
    intro c hc
    obtain ⟨d, hd, rfl⟩ := List.mem_map.mp hc
    rw [decide_eq_true_iff, Ne, toUppercase_eq_iff (by decide)]
    rintro rfl
    exact hblank hd
  rw [padName, List.take_of_length_le (by rwa [List.length_map]),
    List.takeWhile_append_of_pos hkept, List.takeWhile_replicate]
  simp

/-! ## The bytes of the name in an entry -/

namespace DirEntry

/-- `DIR_Name`. -/
def shortname (e : DirEntry) : List UInt8 := e.bytes.take 11

theorem shortname_eq (e : DirEntry) : e.shortname = readBytes e.buffer 0 11 := by
  apply List.ext_getElem
  · rw [shortname, List.length_take, e.size, length_readBytes]
    rfl
  · intro i h₁ h₂
    rw [length_readBytes] at h₂
    have hread := getD_readBytes e.buffer 0 h₂
    rw [List.getD_eq_getElem _ _ (by rwa [length_readBytes]), Nat.zero_add, buffer,
      List.getD_eq_getElem _ _ (by rw [e.size]; omega)] at hread
    rw [hread]
    exact List.getElem_take

theorem shortname_ofBuffer (m : ℕ → UInt8) : (ofBuffer m).shortname = readBytes m 0 11 := by
  rw [shortname_eq]
  apply readBytes_congr
  intro i hi
  exact buffer_ofBuffer m (by omega)

theorem shortname_setBytes (e : DirEntry) {bytes : List UInt8} (h : bytes.length = 11) :
    (e.setBytes 0 bytes).shortname = bytes := by
  rw [setBytes, shortname_ofBuffer, ← h]
  exact readBytes_writeBytes_self _ _ _

theorem shortname_setField (e : DirEntry) {offset : ℕ} (h : 11 ≤ offset) (n v : ℕ) :
    (e.setField offset n v).shortname = e.shortname := by
  rw [setField, shortname_ofBuffer, shortname_eq]
  exact readBytes_writeBytes_of_disjoint (.inl (by omega))

end DirEntry

theorem shortName_eq (e : DirEntry) :
    shortName e =
      let base := (e.shortname.take 8).takeWhile (· ≠ 0x20)
      let extension := (e.shortname.drop 8).takeWhile (· ≠ 0x20)
      if extension = [] then base else base ++ 0x2E :: extension := by
  have hbase : e.shortname.take 8 = e.bytes.take 8 := List.take_take
  have hextension : e.shortname.drop 8 = (e.bytes.drop 8).take 3 := List.drop_take
  rw [hbase, hextension]
  rfl

/-! ## Encoding and decoding -/

/-- A file name that fits the 8.3 format. -/
structure EightThree (name : Name) : Prop where
  no_end : 0 ∉ name
  no_slash : 0x2F ∉ name
  no_blank : 0x20 ∉ name
  no_trailing_dot : name.getLast? ≠ some 0x2E
  base_le : (splitName name).1.length ≤ 8
  extension_le : (splitName name).2.length ≤ 3

/-- `DIR_Name` as `fat_create` fills it. -/
def encoded (name : Name) : List UInt8 :=
  padName 8 (splitName name).1 ++ padName 3 (splitName name).2

theorem length_encoded (name : Name) : (encoded name).length = 11 := by
  rw [encoded, List.length_append, length_padName, length_padName]

theorem mem_of_mem_splitName {c : UInt8} (h : c ∈ (splitName name).1 ∨ c ∈ (splitName name).2) :
    c ∈ name := by
  rcases h with h | h
  · exact List.mem_of_mem_take h
  · exact List.mem_of_mem_drop h

/-- The 8.3 name read back is the name in capitals. -/
theorem EightThree.shortName (h : EightThree name) {e : DirEntry}
    (he : e.shortname = encoded name) : Fat.shortName e = name.map toUppercase := by
  have hblank : 0x20 ∉ (splitName name).1 ∧ 0x20 ∉ (splitName name).2 :=
    ⟨fun hc => h.no_blank (mem_of_mem_splitName (.inl hc)),
      fun hc => h.no_blank (mem_of_mem_splitName (.inr hc))⟩
  have hbase : e.shortname.take 8 = padName 8 (splitName name).1 := by
    rw [he, encoded, List.take_left' (length_padName _ _)]
  have hextension : e.shortname.drop 8 = padName 3 (splitName name).2 := by
    rw [he, encoded, List.drop_left' (length_padName _ _)]
  have hjoin := congrArg (List.map toUppercase) (splitName_join h.no_trailing_dot)
  rw [shortName_eq, hbase, hextension, padName_takeWhile hblank.1 h.base_le,
    padName_takeWhile hblank.2 h.extension_le]
  simp only [List.map_eq_nil_iff]
  rw [apply_ite (List.map toUppercase), List.map_append, List.map_cons] at hjoin
  exact hjoin

theorem EightThree.length_le (h : EightThree name) : name.length ≤ 12 := by
  have hjoin := congrArg List.length (splitName_join h.no_trailing_dot)
  have hbase := h.base_le
  have hextension := h.extension_le
  split at hjoin
  · omega
  · rw [List.length_append, List.length_cons] at hjoin
    omega

/-- A lookup compares with the name, whatever the case. -/
theorem EightThree.pathCompare (h : EightThree name) {e : DirEntry}
    (he : e.shortname = encoded name) {longname decoded : List ℕ}
    (hdecode : shortnameToLongname e longname = some decoded) :
    nameOf decoded = name.map toUppercase ∧ Fat.pathCompare name decoded false = name.length ∧
      ∀ path, Fat.pathCompare path decoded false =
        if (component path).map toLowercase = name.map toLowercase then name.length else 0 := by
  have hshort := h.shortName he
  have hnonzero : ∀ c ∈ Fat.shortName e, c ≠ 0 := by
    rw [hshort]
    intro c hc
    obtain ⟨d, hd, rfl⟩ := List.mem_map.mp hc
    rw [Ne, toUppercase_eq_iff (by decide)]
    rintro rfl
    exact h.no_end hd
  have hname : nameOf decoded = name.map toUppercase := by
    unfold shortnameToLongname storeAt at hdecode
    split at hdecode
    · rw [← Option.some.inj hdecode, List.take_zero, List.nil_append,
        nameOf_shortnameChars hnonzero, hshort]
    · cases hdecode
  have hcase : (name.map toUppercase).map toLowercase = name.map toLowercase := by
    rw [List.map_map]
    exact List.map_congr_left fun c _ => toLowercase_toUppercase c
  have hcompare : ∀ path, Fat.pathCompare path decoded false =
      if (component path).map toLowercase = name.map toLowercase then name.length else 0 := by
    intro path
    rw [pathCompare_eq, hname, List.length_map]
    unfold foldCase
    rw [if_neg Bool.false_ne_true, if_neg Bool.false_ne_true, hcase]
  have hself : component name = name := by
    rw [component, List.takeWhile_eq_self_iff]
    intro c hc
    rw [decide_eq_true_iff]
    rintro rfl
    exact h.no_slash hc
  exact ⟨hname, by rw [hcompare, hself, if_pos rfl], hcompare⟩

/-! ## The name of a created file -/

/-- Finding a place for a file leaves its name alone. -/
theorem placeFile_shortname {nameLength : ℕ}
    (h : placeFile g uninitialized nameLength newFile dir s = some (true, file, s')) :
    file.fatDir.shortname = newFile.fatDir.shortname ∧ file.lfnPresent = newFile.lfnPresent := by
  obtain ⟨⟨count, s₁⟩, -, h⟩ := Option.bind_eq_some_iff.mp h
  obtain ⟨⟨position, dir', s₂⟩, -, h⟩ := Option.bind_eq_some_iff.mp h
  cases position with
  | none => cases h
  | some dirOffset =>
      obtain ⟨⟨free, s₃⟩, -, h⟩ := Option.bind_eq_some_iff.mp h
      cases free with
      | none => cases h
      | some freeCluster =>
          obtain ⟨s₄, -, h⟩ := Option.bind_eq_some_iff.mp h
          obtain ⟨s₅, -, h⟩ := Option.bind_eq_some_iff.mp h
          cases h
          exact ⟨(DirEntry.shortname_setField _ (by decide) _ _).trans
            (DirEntry.shortname_setField _ (by decide) _ _), rfl⟩

theorem freshFile_shortname {attributes : UInt8} (h : freshFile name attributes = some file) :
    file.fatDir.shortname = encoded name ∧
      file.lfnPresent = decide (8 < (splitName name).1.length ∨ 3 < (splitName name).2.length) := by
  obtain ⟨longFilename, -, hfile⟩ := Option.bind_eq_some_iff.mp h
  rw [← Option.some_inj.mp hfile]
  exact ⟨DirEntry.shortname_setBytes _ (length_encoded name), rfl⟩

/-- The part of a path behind its last slash. -/
def fileName (path : List UInt8) : Name := path.drop ((lastIndex 0x2F path).elim 0 (· + 1))

/-- A created file with a name in the 8.3 format has no long name. -/
theorem EightThree.fatCreate {rootDir : FatFile} {attributes : UInt8} (hname : EightThree (fileName path))
    (h : Fat.fatCreate g uninitialized newFile rootDir path attributes s = some (true, file, s')) :
    file.fatDir.shortname = encoded (fileName path) ∧ file.lfnPresent = false := by
  obtain ⟨⟨opened, parentDir, s₁⟩, -, h⟩ := Option.bind_eq_some_iff.mp h
  dsimp only at h
  split at h
  · cases h
  split at h
  · cases h
  obtain ⟨fresh, hfresh, h⟩ := Option.bind_eq_some_iff.mp h
  obtain ⟨hshort, hlong⟩ := freshFile_shortname hfresh
  have hplain : fresh.lfnPresent = false := by
    rw [hlong, decide_eq_false_iff_not, not_or]
    exact ⟨not_lt.mpr hname.base_le, not_lt.mpr hname.extension_le⟩
  rw [if_neg (by rw [hplain]; exact Bool.false_ne_true)] at h
  obtain ⟨hkept, hlfn⟩ := placeFile_shortname h
  exact ⟨hkept.trans hshort, hlfn.trans hplain⟩

/-- A name in the 8.3 format survives `fat_create` and `shortname_to_longname`, up to its
case: the entry decodes to the name in capitals, and `path_compare` matches exactly the paths
whose first component is the name. -/
theorem eightThree_roundTrip (h : EightThree name) (attributes : UInt8) :
    (∃ file, freshFile name attributes = some file ∧ file.lfnPresent = false ∧
        file.fatDir.shortname = encoded name) ∧
      (∀ (g : Bpb) (uninitialized : DirEntry) (newFile rootDir file : FatFile)
        (path : List UInt8) (s s' : State), fileName path = name →
          fatCreate g uninitialized newFile rootDir path attributes s = some (true, file, s') →
            file.fatDir.shortname = encoded name ∧ file.lfnPresent = false) ∧
      ∀ e : DirEntry, e.shortname = encoded name → ∀ longname : List ℕ, longname.length = 260 →
        ∃ decoded, shortnameToLongname e longname = some decoded ∧
          nameOf decoded = name.map toUppercase ∧ pathCompare name decoded false = name.length ∧
            ∀ path, pathCompare path decoded false =
              if (component path).map toLowercase = name.map toLowercase then name.length
              else 0 := by
  refine ⟨?_, ?_, ?_⟩
  · have hlen := h.length_le
    have hstored : ∃ longFilename,
        fatStringToLongname name fatFileDefault.longFilename = some longFilename := by
      refine ⟨_, storeAt_of_le ?_⟩
      simp only [List.length_append, List.length_map, List.length_cons, List.length_nil,
        fatFileDefault, List.length_replicate]
      omega
    obtain ⟨longFilename, hlong⟩ := hstored
    obtain ⟨file, hfile⟩ : ∃ file, freshFile name attributes = some file :=
      ⟨_, Option.bind_eq_some_iff.mpr ⟨longFilename, hlong, rfl⟩⟩
    obtain ⟨hshort, hlfn⟩ := freshFile_shortname hfile
    refine ⟨file, hfile, ?_, hshort⟩
    rw [hlfn, decide_eq_false_iff_not, not_or]
    exact ⟨not_lt.mpr h.base_le, not_lt.mpr h.extension_le⟩
  · rintro g uninitialized newFile rootDir file path s s' rfl hcreate
    exact h.fatCreate hcreate
  · intro e he longname hlongname
    obtain ⟨rest, hdecode, -⟩ := shortnameToLongname_eq hlongname e
    exact ⟨_, hdecode, h.pathCompare he hdecode⟩

/-- The name `.a.b` becomes `.A.B`. -/
theorem eightThree_roundTrip_dots :
    ∃ file, freshFile [0x2E, 0x61, 0x2E, 0x62] 0x20 = some file ∧ file.lfnPresent = false ∧
      ∃ decoded, shortnameToLongname file.fatDir (List.replicate 260 0) = some decoded ∧
        nameOf decoded = [0x2E, 0x41, 0x2E, 0x42] := by
  have hname : EightThree [0x2E, 0x61, 0x2E, 0x62] :=
    ⟨by decide, by decide, by decide, by decide, by decide, by decide⟩
  obtain ⟨⟨file, hfresh, hlong, hshort⟩, -, hdecode⟩ := eightThree_roundTrip hname 0x20
  obtain ⟨decoded, hstored, hupper, -⟩ :=
    hdecode file.fatDir hshort (List.replicate 260 0) List.length_replicate
  exact ⟨file, hfresh, hlong, decoded, hstored, hupper⟩

end Neos.Fat
