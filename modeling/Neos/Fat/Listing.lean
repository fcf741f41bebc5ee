import Mathlib.Data.List.TakeWhile
import Neos.Fat.Lookup
import Neos.Fat.Files

/-!
# The contents of a directory

A directory is a list of slots.  Well-formed slots are deleted, hold an entry, or
hold a long name followed by its entry; the entries listed this way are the items
of the directory, and each has a name.
-/

namespace Neos.Fat

open ByteRange

variable {g : Bpb} {s : State} {l : List ℕ} {k : ℕ}

/-! ## Names -/

/-- The bytes of a file name. -/
abbrev Name := List UInt8

/-- The name in `long_filename`, for `path_compare`. -/
def nameOf (longFilename : List ℕ) : Name := (longFilename.map charOfShort).takeWhile (· ≠ 0)

/-- A name with the letters made small unless the case counts. -/
def foldCase (caseSensitive : Bool) (name : Name) : Name :=
  if caseSensitive then name else name.map toLowercase

/-- The first component of a path. -/
def component (path : List UInt8) : Name := path.takeWhile (· ≠ 0x2F)

theorem foldCase_cons (cs : Bool) (c : UInt8) (name : Name) :
    foldCase cs (c :: name) = (if cs then c else toLowercase c) :: foldCase cs name := by
  cases cs <;> rfl

theorem foldCase_nil (cs : Bool) : foldCase cs [] = [] := by
  cases cs <;> rfl

theorem length_foldCase (cs : Bool) (name : Name) : (foldCase cs name).length = name.length := by
  cases cs
  · exact List.length_map _
  · rfl

/-- `path_compare` returns the length of the name when the first component of the path
is that name, else `0`. -/
theorem pathCompareLoop_eq (cs : Bool) :
    ∀ (path name : List UInt8) (i : ℕ),
      pathCompareLoop cs path name i =
        if foldCase cs (component path) = foldCase cs (name.takeWhile (· ≠ 0)) then
          i + (name.takeWhile (· ≠ 0)).length
        else 0
  | [], [], i => by simp [pathCompareLoop, component]
  | [], c :: name, i => by
      by_cases hc : c = 0
      · simp [pathCompareLoop, component, hc]
      · simp [pathCompareLoop, component, hc, foldCase_cons, foldCase_nil]
  | p :: path, [], i => by
      by_cases hp : p = 0x2F
      · simp [pathCompareLoop, component, hp]
      · simp [pathCompareLoop, component, hp, foldCase_cons, foldCase_nil]
  | p :: path, c :: name, i => by
      have ih := pathCompareLoop_eq cs path name (i + 1)
      by_cases hc : c = 0
      · by_cases hp : p = 0x2F
        · simp [pathCompareLoop, component, hc, hp]
        · simp [pathCompareLoop, component, hc, hp, foldCase_cons, foldCase_nil]
      · by_cases hp : p = 0x2F
        · simp [pathCompareLoop, component, hc, hp, foldCase_cons, foldCase_nil]
        · have hpath : component (p :: path) = p :: component path := by
            rw [component, List.takeWhile_cons_of_pos (by simpa using hp)]
            rfl
          have hname : (c :: name).takeWhile (· ≠ 0) = c :: name.takeWhile (· ≠ 0) :=
            List.takeWhile_cons_of_pos (by simpa using hc)
          rw [hpath, hname, foldCase_cons, foldCase_cons, pathCompareLoop, if_neg hc, if_neg hp, ih]
          cases cs
          · by_cases heq : toLowercase p = toLowercase c
            · simp [heq, Nat.add_assoc, Nat.add_comm 1]
            · simp [heq]
          · by_cases heq : p = c
            · simp [heq, Nat.add_assoc, Nat.add_comm 1]
            · simp [heq]

theorem pathCompare_eq (path : List UInt8) (dirName : List ℕ) (cs : Bool) :
    pathCompare path dirName cs =
      if foldCase cs (component path) = foldCase cs (nameOf dirName) then (nameOf dirName).length
      else 0 := by
  rw [pathCompare, pathCompareLoop_eq, Nat.zero_add]
  rfl

/-! ## Items -/

/-- An entry of a directory, the slot that holds it, and the characters of its long
name. -/
structure Item where
  entry : DirEntry
  slot : ℕ
  long : Option (List ℕ)

/-- The name in the 8.3 format. -/
def shortName (e : DirEntry) : Name :=
  let base := (e.bytes.take 8).takeWhile (· ≠ 0x20)
  let extension := ((e.bytes.drop 8).take 3).takeWhile (· ≠ 0x20)
  if extension = [] then base else base ++ 0x2E :: extension

/-- The name in the characters of a long name. -/
def longName (chars : List ℕ) : Name := (chars.takeWhile (· ≠ 0)).map charOfShort

namespace Item

/-- The name of an entry: the long one if there is one. -/
def name (i : Item) : Name := i.long.elim (shortName i.entry) longName

/-- What a lookup by 8.3 names sees of an entry. -/
def view (useShortname : Bool) (i : Item) : Item :=
  if useShortname then { i with long := none } else i

/-- A name finds an entry: long names are compared exactly, 8.3 names without regard
to the case. -/
def Answers (i : Item) (name : Name) : Prop :=
  foldCase i.long.isSome name = foldCase i.long.isSome i.name

instance (i : Item) (name : Name) : Decidable (i.Answers name) :=
  inferInstanceAs (Decidable (_ = _))

/-- The names of an entry end where they should: no byte of the 8.3 name is zero,
and the characters of the long name are ASCII characters. -/
structure Ascii (i : Item) : Prop where
  short : ∀ c ∈ shortName i.entry, c ≠ 0
  long : ∀ chars, i.long = some chars → ∀ v ∈ chars.takeWhile (· ≠ 0), v < 2 ^ 7

end Item

/-! ## Slots -/

/-- The slots of a directory with the clusters of a chain. -/
def slots (g : Bpb) (disk : ℕ → UInt8) (l : List ℕ) : List DirEntry :=
  (List.range (l.length * g.clusterSize / 32)).map fun k => entryAt g disk l (32 * k)

/-- Slots with the parts `m` to `1` of a long name, and all their characters. -/
inductive LongSlots : ℕ → List DirEntry → List ℕ → Prop
  | nil : LongSlots 0 [] []
  | cons {m : ℕ} {e : DirEntry} {rest : List DirEntry} {chars : List ℕ} (hattr : e.dirAttr = 0x0F)
      (hordinal : e.dirName 0 = UInt8.ofNat (m + 1)) (hrest : LongSlots m rest chars) :
      LongSlots (m + 1) (e :: rest) (chars ++ e.lfnChars)

/-- The slots of a complete long name: the last part comes first and is marked. -/
structure LongGroup (first : DirEntry) (rest : List DirEntry) (chars : List ℕ) (m : ℕ) : Prop where
  attr : first.dirAttr = 0x0F
  ordinal : first.dirName 0 = UInt8.ofNat (0x40 + (m + 1))
  rest : LongSlots m rest chars
  le : m + 1 ≤ 15

/-- A slot that holds an entry. -/
structure Live (e : DirEntry) : Prop where
  not_end : e.dirName 0 ≠ 0
  not_deleted : e.dirName 0 ≠ 0xE5
  not_long : e.dirAttr ≠ 0x0F

/-- The slots of one item, of which the first is the `k`-th one of the directory. -/
inductive ItemAt : ℕ → List DirEntry → Item → Prop
  | short {k : ℕ} {e : DirEntry} (hlive : Live e) : ItemAt k [e] ⟨e, k, none⟩
  | long {k m : ℕ} {first e : DirEntry} {group : List DirEntry} {chars : List ℕ}
      (hgroup : LongGroup first group chars m) (hlive : Live e) :
      ItemAt k (first :: (group ++ [e])) ⟨e, k + m + 1, some (chars ++ first.lfnChars)⟩

/-- The items in the slots from the `k`-th one on. -/
inductive Layout : ℕ → List DirEntry → List Item → Prop
  | done {k : ℕ} : Layout k [] []
  | stop {k : ℕ} {e : DirEntry} {rest : List DirEntry} (hend : e.dirName 0 = 0) :
      Layout k (e :: rest) []
  | deleted {k : ℕ} {e : DirEntry} {rest : List DirEntry} {items : List Item}
      (hdeleted : e.dirName 0 = 0xE5) (hrest : Layout (k + 1) rest items) :
      Layout k (e :: rest) items
  | item {k : ℕ} {used rest : List DirEntry} {i : Item} {items : List Item} (hitem : ItemAt k used i)
      (hrest : Layout (k + used.length) rest items) : Layout k (used ++ rest) (i :: items)

theorem LongSlots.length {m : ℕ} {group : List DirEntry} {chars : List ℕ}
    (h : LongSlots m group chars) : group.length = m := by
  induction h with
  | nil => rfl
  | cons _ _ _ ih => rw [List.length_cons, ih]

/-- The entry is in the last slot of an item. -/
theorem ItemAt.slot_eq {used : List DirEntry} {i : Item} (h : ItemAt k used i) :
    k + used.length = i.slot + 1 := by
  cases h with
  | short _ => rfl
  | long hgroup _ =>
      have hlen := hgroup.rest.length
      simp only [List.length_cons, List.length_append, List.length_nil]
      omega

/-- A well-formed directory: its clusters and its items. -/
structure DirectoryAt (g : Bpb) (disk : ℕ → UInt8) (cluster : ℕ) (l : List ℕ)
    (items : List Item) : Prop where
  chain : FileChain g disk cluster l
  layout : Layout 0 (slots g disk l) items
  ascii : ∀ i ∈ items, i.Ascii

/-! ## Putting a name together -/

theorem charOfShort_shortOfChar (c : UInt8) : charOfShort (shortOfChar c) = c := by
  have hlt := c.toNat_lt
  have hval : shortOfChar c % 2 ^ 8 = c.toNat := by
    unfold shortOfChar
    split <;> omega
  rw [charOfShort, hval, UInt8.ofNat_toNat]

/-- A name in an array ends at the first zero. -/
theorem nameOf_append {name : Name} (hname : ∀ c ∈ name, c ≠ 0) {values : List ℕ}
    (hvalues : values.map charOfShort = name) (rest : List ℕ) :
    nameOf (values ++ 0 :: rest) = name := by
  have hzero : charOfShort 0 = 0 := by decide
  rw [nameOf, List.map_append, hvalues, List.map_cons, hzero,
    List.takeWhile_append_of_pos (by simpa using hname), List.takeWhile_cons_of_neg (by simp),
    List.append_nil]

/-- `shortname_to_longname` stores the 8.3 name. -/
theorem nameOf_shortnameChars {e : DirEntry} (hname : ∀ c ∈ shortName e, c ≠ 0) (rest : List ℕ) :
    nameOf (shortnameChars e ++ rest) = shortName e := by
  have hmap : ∀ l : List UInt8, (l.map shortOfChar).map charOfShort = l := by
    intro l
    rw [List.map_map]
    exact (List.map_congr_left fun c _ => charOfShort_shortOfChar c).trans (List.map_id l)
  unfold shortName at hname
  unfold shortnameChars shortName
  dsimp only at hname ⊢
  split
  · rename_i hnone
    rw [if_pos hnone] at hname
    rw [List.append_assoc, List.cons_append]
    exact nameOf_append hname (hmap _) _
  · rename_i hsome
    rw [if_neg hsome] at hname
    rw [List.append_assoc]
    apply nameOf_append hname
    rw [List.map_append, List.map_append, hmap, hmap]
    rw [List.append_assoc]
    rfl

/-- The characters of the slots make the long name. -/
theorem nameOf_longChars {chars : List ℕ} (hascii : ∀ v ∈ chars.takeWhile (· ≠ 0), v < 2 ^ 7)
    (rest : List ℕ) : nameOf (chars ++ 0 :: rest) = longName chars := by
  have hname : ∀ c ∈ longName chars, c ≠ 0 := by
    intro c hc
    obtain ⟨v, hv, rfl⟩ := List.mem_map.mp hc
    have hlt := hascii v hv
    have hne : v ≠ 0 := by simpa using List.mem_takeWhile_imp hv
    intro hzero
    have hval : (charOfShort v).toNat = v := by
      rw [charOfShort, UInt8.toNat_ofNat']
      omega
    rw [hzero] at hval
    exact hne hval.symm
  -- What follows the first zero among the characters does not matter.
  obtain ⟨tail, htail⟩ : ∃ tail, chars ++ 0 :: rest = chars.takeWhile (· ≠ 0) ++ 0 :: tail := by
    have hsplit := List.takeWhile_append_dropWhile (p := (· ≠ (0 : ℕ))) (l := chars)
    cases hdrop : chars.dropWhile (· ≠ 0) with
    | nil =>
        rw [hdrop, List.append_nil] at hsplit
        exact ⟨rest, by rw [hsplit]⟩
    | cons v tail =>
        have hv : v = 0 := by
          have hhead := List.head_dropWhile_not (p := (· ≠ (0 : ℕ))) (l := chars) (by rw [hdrop]; simp)
          simp only [hdrop, List.head_cons] at hhead
          simpa using hhead
        refine ⟨tail ++ 0 :: rest, ?_⟩
        conv_lhs => rw [← hsplit, hdrop, hv]
        rw [List.append_assoc]
        rfl
  rw [htail]
  exact nameOf_append hname rfl tail

end Neos.Fat
