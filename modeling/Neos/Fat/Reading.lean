import Neos.Fat.Files

/-!
# Reading a file

What `fat_fread` transfers from a file on a well-formed volume: for a cursor in the
file the bytes from there on, and for a cursor that `fat_fseek` left behind the end
of the file.
-/

namespace Neos.Fat

open ByteRange

variable {g : Bpb} {s : State} {l : List ℕ} {file : FatFile} {n : ℕ}

/-! ## Files on the disk -/

/-- The number of the first cluster, with both of its halves. -/
def DirEntry.firstCluster (e : DirEntry) : ℕ := e.dirFstClusHI * 2 ^ 16 + e.dirFstClusLO

/-- The entry of a file with the chain `l`, of the length that the size asks for. -/
structure StoredFile (g : Bpb) (disk : ℕ → UInt8) (e : DirEntry) (l : List ℕ) : Prop where
  first_lt : e.firstCluster < 2 ^ 16
  chain : FileChain g disk e.firstCluster l
  clusters : l.length = max 1 (clustersFor g e.dirFileSize)
  size_lt : e.dirFileSize < 2 ^ 31

namespace StoredFile

/-- The half of the number that `fat_fread` uses is the number. -/
theorem chain_low (h : StoredFile g s.disk file.fatDir l) :
    FileChain g s.disk file.fatDir.dirFstClusLO l := by
  have hlow : file.fatDir.firstCluster = file.fatDir.dirFstClusLO := by
    have hlt := h.first_lt
    unfold DirEntry.firstCluster at hlt ⊢
    omega
  rw [← hlow]
  exact h.chain

theorem sizeFits (hg : Geometry g) (h : StoredFile g s.disk file.fatDir l) :
    SizeFits g file.fatDir.dirFileSize l.length :=
  sizeFits_of_length hg.clusterSize_pos h.clusters

end StoredFile

/-! ## The data reads -/

/-- A call of `read_func` in `fat_fread`: the place in the output buffer, the offset
on the disk, and the number of bytes. -/
structure DataRead where
  position : ℕ
  address : ℕ
  size : ℕ
deriving DecidableEq

/-- The output buffer after a call of `read_func`. -/
def DataRead.fill (disk : ℕ → UInt8) (out : ℕ → UInt8) (r : DataRead) : ℕ → UInt8 :=
  writeBytes out r.position (readBytes disk r.address r.size)

/-- The call of `read_func` in the round for one cluster, with `offset` already
advanced past it. -/
def roundReads (g : Bpb) (cursor cluster offset total : ℕ) (part : ℕ × ℕ) : List DataRead :=
  if offset > cursor ∧ part.2 > 0 then
    [⟨total, u32 (g.clusterOffset cluster + part.1), part.2⟩]
  else []

/-- The loop of `fat_fread` with the list of its data reads in place of the output
buffer. -/
def freadRequests (g : Bpb) (file : FatFile) (dataSize : ℕ) :
    ℕ → ℕ → ℕ → ℕ → State → Option (List DataRead × ℕ × State)
  | 0, _, _, _, _ => none
  | rounds + 1, cluster, offset, total, s =>
      if cluster < 2 then some ([], total, s)
      else
        let (nextCluster, s) := fatReadFatEntry g s cluster true
        if nextCluster = 0 then some ([], total, s)
        else if nextCluster = badCluster then some ([], total, s)
        else
          let offset := u32 (offset + g.clusterSize)
          let part := transferPart g file.cursor dataSize offset (readPartSize g file offset) total
          let reads := roundReads g file.cursor cluster offset total part
          let total := if offset > file.cursor then u32 (total + part.2) else total
          if isLast nextCluster then some (reads, total, s)
          else (freadRequests g file dataSize rounds (nextCluster % 2 ^ 28) offset total s).map
            fun r => (reads ++ r.1, r.2)

/-- The data reads of a call of `fat_fread`. -/
def dataReads (g : Bpb) (dataSize : ℕ) (file : FatFile) (s : State) : Option (List DataRead) :=
  (freadRequests g file dataSize loopBound file.fatDir.dirFstClusLO 0 0
    (fatInvalidateCache s)).map fun r => r.1

theorem fatReadFatEntry_disk (g : Bpb) (s : State) (c : ℕ) :
    (fatReadFatEntry g s c true).2.disk = s.disk := by
  rw [fatReadFatEntry_eq]
  dsimp only
  unfold loadSector
  split <;> rfl

/-- A read of no bytes leaves the buffer as it is. -/
theorem foldl_roundReads (disk out : ℕ → UInt8) (cursor cluster offset total : ℕ)
    (part : ℕ × ℕ) :
    (roundReads g cursor cluster offset total part).foldl (DataRead.fill disk) out =
      if offset > cursor then
        writeBytes out total (readBytes disk (u32 (g.clusterOffset cluster + part.1)) part.2)
      else out := by
  unfold roundReads
  by_cases hoffset : offset > cursor
  · by_cases hsize : part.2 > 0
    · rw [if_pos ⟨hoffset, hsize⟩, if_pos hoffset]
      rfl
    · rw [if_neg (fun h => hsize h.2), if_pos hoffset]
      have hzero : part.2 = 0 := by omega
      funext x
      rw [hzero, writeBytes_outside]
      · rfl
      · rw [length_readBytes]
        omega
  · rw [if_neg (fun h => hoffset h.1), if_neg hoffset]
    rfl

/-- The output buffer is filled by the data reads, one after the other. -/
theorem freadLoop_requests :
    ∀ (rounds cluster offset total : ℕ) (out : ℕ → UInt8) (s : State),
      freadLoop g file n rounds cluster offset total out s =
        (freadRequests g file n rounds cluster offset total s).map
          fun r => (r.1.foldl (DataRead.fill s.disk) out, r.2)
  | 0, _, _, _, _, _ => rfl
  | rounds + 1, cluster, offset, total, out, s => by
      have hdisk := fatReadFatEntry_disk g s cluster
      unfold freadLoop freadRequests
      generalize fatReadFatEntry g s cluster true = entry at hdisk ⊢
      obtain ⟨nextCluster, s'⟩ := entry
      dsimp only at hdisk ⊢
      by_cases hend : cluster < 2
      · rw [if_pos hend, if_pos hend]
        rfl
      rw [if_neg hend, if_neg hend]
      by_cases hfree : nextCluster = 0
      · rw [if_pos hfree, if_pos hfree]
        rfl
      rw [if_neg hfree, if_neg hfree]
      by_cases hbad : nextCluster = badCluster
      · rw [if_pos hbad, if_pos hbad]
        rfl
      rw [if_neg hbad, if_neg hbad, ← foldl_roundReads, hdisk]
      by_cases hlast : isLast nextCluster = true
      · rw [if_pos hlast, if_pos hlast, Option.map_some]
      · rw [if_neg hlast, if_neg hlast, freadLoop_requests rounds, Option.map_map, hdisk]
        congr 1
        funext r
        rw [Function.comp_apply, List.foldl_append]

theorem fatFread_requests (out : ℕ → UInt8) :
    fatFread g out n file s =
      (freadRequests g file n loopBound file.fatDir.dirFstClusLO 0 0 (fatInvalidateCache s)).map
        fun r => (r.1.foldl (DataRead.fill s.disk) out,
          { file with cursor := u32 (file.cursor + r.2.1) }, r.2.2) := by
  unfold fatFread
  rw [freadLoop_requests]
  cases freadRequests g file n loopBound file.fatDir.dirFstClusLO 0 0 (fatInvalidateCache s) <;> rfl

/-! ## A cursor in the file -/

/-- With the cursor in the file, no data read goes past the bytes that the call
transfers. -/
theorem freadRequests_inside (hg : Geometry g) (hn : n < 2 ^ 32)
    (hp : file.cursor ≤ file.fatDir.dirFileSize) :
    ∀ {rounds : ℕ} {rest : List ℕ} {c a : ℕ} {s : State}, FileChain g s.disk c rest →
      CacheFresh s → rest.length ≤ rounds →
        a + (rest.length - 1) * g.clusterSize ≤ file.fatDir.dirFileSize →
        file.fatDir.dirFileSize ≤ a + rest.length * g.clusterSize →
        a + rest.length * g.clusterSize < 2 ^ 32 →
          ∃ reads total s',
            freadRequests g file n rounds c a (min n (a - file.cursor)) s =
              some (reads, total, s') ∧
            ∀ r ∈ reads, r.position + r.size ≤ min n (file.fatDir.dirFileSize - file.cursor)
  | 0, _, _, _, _, h, _, hrounds, _, _, _ => by
      have hpos := h.chain.length_pos
      omega
  | rounds + 1, rest, c, a, s, h, hs, hrounds, hlo, hhi, hlt => by
      have hc := h.valid c h.chain.head_mem
      have hC := hg.clusterSize_lt
      obtain ⟨s', hread, hlooked⟩ := fatReadFatEntry_cached hg hs (hc.lt28 hg)
      generalize hS : file.fatDir.dirFileSize = S at hp hlo hhi
      generalize hcur : file.cursor = p at hp
      have hone : a + g.clusterSize ≤ a + rest.length * g.clusterSize :=
        Nat.add_le_add_left (Nat.le_mul_of_pos_left _ h.chain.length_pos) a
      have hlt' : a + g.clusterSize < 2 ^ 32 := by omega
      have hpart := readPartSize_eq file hC hlt' (by omega)
      rw [hS] at hpart
      have hpe : p ≤ a + min g.clusterSize (S - a) ∨ a + g.clusterSize ≤ p := by omega
      have htotal := transferTotal_eq (p := p) (n := n) hC (min_le_left g.clusterSize (S - a))
        hpe hlt' hn
      have hround : ∀ r ∈ roundReads g p c (a + g.clusterSize) (min n (a - p))
          (transferPart g p n (a + g.clusterSize) (min g.clusterSize (S - a)) (min n (a - p))),
          r.position + r.size ≤ min n (S - p) := by
        intro r hr
        unfold roundReads at hr
        split at hr
        · rename_i hcond
          rw [transferPart_eq hC (min_le_left _ _) hcond.1 (by omega) hlt' hn,
            List.mem_singleton] at hr
          rw [hr]
          dsimp only
          omega
        · exact absurd hr List.not_mem_nil
      unfold freadRequests
      rw [if_neg (not_lt.mpr hc.ge_two), hread]
      simp only [hpart, hcur, u32_of_lt hlt', htotal]
      rcases h.entry_cases with ⟨rfl, hmark⟩ | ⟨rest', rfl, hrest, hnext⟩
      · obtain ⟨h0, hbad, hlast⟩ := hmark.not_special
        rw [if_neg h0, if_neg hbad, if_pos hlast]
        exact ⟨_, _, _, rfl, hround⟩
      · obtain ⟨h0, hbad, hlast, hmod⟩ := hnext.not_special hg
        rw [if_neg h0, if_neg hbad, if_neg (by rw [hlast]; exact Bool.false_ne_true), hmod]
        have hlen' := hrest.chain.length_pos
        rw [List.length_cons, Nat.succ_mul] at hhi hlt
        rw [List.length_cons, Nat.add_sub_cancel] at hlo
        have hwhole : rest'.length * g.clusterSize =
            (rest'.length - 1) * g.clusterSize + g.clusterSize := by
          rw [← Nat.succ_mul, Nat.succ_eq_add_one, Nat.sub_add_cancel hlen']
        have hend : a + min g.clusterSize (S - a) = a + g.clusterSize := by omega
        rw [← hlooked.disk] at hrest
        obtain ⟨reads, total, s'', hloop, hreads⟩ := freadRequests_inside hg hn
          (by rw [hS, hcur]; exact hp) (a := a + g.clusterSize) hrest hlooked.fresh
          (Nat.le_of_succ_le_succ hrounds) (by omega) (by omega) (by omega)
        rw [hcur, hlooked.disk] at hloop
        rw [hcur, hS] at hreads
        rw [hend, hloop]
        refine ⟨_, _, _, rfl, ?_⟩
        intro r hr
        rcases List.mem_append.mp hr with hr | hr
        · exact hround r hr
        · exact hreads r hr

theorem dataReads_inside (hg : Geometry g) (hn : n < 2 ^ 32)
    (h : StoredFile g s.disk file.fatDir l) (hp : file.cursor ≤ file.fatDir.dirFileSize) :
    ∃ reads, dataReads g n file s = some reads ∧
      ∀ r ∈ reads, r.position + r.size ≤ min n (file.fatDir.dirFileSize - file.cursor) := by
  have hchain := h.chain_low
  have hsize := h.sizeFits hg
  have hbytes := hchain.bytes_lt hg
  have hneeded := hsize.needed
  have henough := hsize.enough
  obtain ⟨reads, total, s', hloop, hreads⟩ := freadRequests_inside (a := 0)
    (s := fatInvalidateCache s) hg hn hp hchain (.inl rfl) (hchain.length_lt hg).le (by omega)
    (by omega) (by omega)
  have hzero : min n (0 - file.cursor) = 0 := by omega
  rw [hzero] at hloop
  refine ⟨reads, ?_, hreads⟩
  rw [dataReads, hloop, Option.map_some]

/-- For a file of `S` bytes and a cursor `p` in it, a request of `d` bytes transfers
the `min d (S - p)` bytes at `p` to the start of the buffer, and nothing else. -/
theorem fatFread_transfers (hg : Geometry g) (h : StoredFile g s.disk file.fatDir l)
    (hp : file.cursor ≤ file.fatDir.dirFileSize) {d : ℕ} (hd : d < 2 ^ 31) (out : ℕ → UInt8) :
    ∃ out' s' reads, fatFread g out d file s =
        some (out', { file with
          cursor := file.cursor + min d (file.fatDir.dirFileSize - file.cursor) }, s') ∧
      readBytes out' 0 (min d (file.fatDir.dirFileSize - file.cursor)) =
        readBytes (chainByte g s.disk l) file.cursor
          (min d (file.fatDir.dirFileSize - file.cursor)) ∧
      (∀ i, min d (file.fatDir.dirFileSize - file.cursor) ≤ i → out' i = out i) ∧
      s'.disk = s.disk ∧
      dataReads g d file s = some reads ∧
      ∀ r ∈ reads, r.position + r.size ≤ min d (file.fatDir.dirFileSize - file.cursor) := by
  obtain ⟨s', hread, hlooked⟩ := fatFread_spec (n := d) hg file (by omega) h.chain_low
    (h.sizeFits hg) hp out
  obtain ⟨reads, hreads, hinside⟩ := dataReads_inside (n := d) hg (by omega) h hp
  refine ⟨_, s', reads, hread, ?_, ?_, hlooked.disk, hreads, hinside⟩
  · apply readBytes_congr
    intro i hi
    rw [Nat.zero_add, if_pos hi]
  · intro i hi
    rw [if_neg (not_lt.mpr hi)]

theorem smallFile_stored : StoredFile smallVolume smallState.disk smallFile.fatDir [3] where
  first_lt := by decide +kernel
  chain := by
    have hfirst : smallFile.fatDir.firstCluster = 3 := by decide +kernel
    rw [hfirst]
    exact smallState_cluster (by decide) (by decide) (by decide +kernel)
  clusters := by decide +kernel
  size_lt := by decide +kernel

/-- Of two hundred bytes asked for at offset 50, the fifty of the file are
transferred. -/
theorem fatFread_transfers_smallFile : ∃ out' s',
    fatFread smallVolume (fun _ => 7) 200 smallFile smallState =
        some (out', { smallFile with cursor := 100 }, s') ∧
      readBytes out' 0 50 = readBytes (chainByte smallVolume smallState.disk [3]) 50 50 ∧
      out' 50 = 7 := by
  have hsize : smallFile.fatDir.dirFileSize = 100 := by decide +kernel
  have hcursor : smallFile.cursor = 50 := rfl
  obtain ⟨out', s', reads, hread, hbytes, hbeyond, -⟩ := fatFread_transfers
    smallVolume_geometry smallFile_stored (by decide +kernel) (d := 200) (by decide) fun _ => 7
  rw [hsize, hcursor] at hread hbytes hbeyond
  exact ⟨out', s', hread, hbytes, hbeyond 50 (by decide)⟩

/-! ## A cursor behind the end -/

/-- `fat_fseek` to a signed offset from one of the three origins; other origins are
ignored. -/
def fatFseek (file : FatFile) (offset origin : ℤ) : FatFile :=
  if origin = 0 then fatFseekSet file (offset % 2 ^ 32).toNat
  else if origin = 1 then fatFseekCur file (offset % 2 ^ 32).toNat
  else if origin = 2 then fatFseekEnd file (offset % 2 ^ 32).toNat
  else file

/-- A sequence of calls of `fat_fseek`. -/
def seekAll (file : FatFile) (seeks : List (ℤ × ℤ)) : FatFile :=
  seeks.foldl (fun file seek => fatFseek file seek.1 seek.2) file

theorem fatFseek_spec (file : FatFile) (offset origin : ℤ) (hcursor : file.cursor < 2 ^ 32) :
    (fatFseek file offset origin).fatDir = file.fatDir ∧
      (fatFseek file offset origin).cursor < 2 ^ 32 := by
  unfold fatFseek
  split
  · exact ⟨rfl, u32_lt _⟩
  · split
    · exact ⟨rfl, u32_lt _⟩
    · split
      · exact ⟨rfl, u32_lt _⟩
      · exact ⟨rfl, hcursor⟩

/-- Seeking changes nothing but the cursor, which stays an `unsigned int`. -/
theorem seekAll_spec : ∀ (seeks : List (ℤ × ℤ)) {file : FatFile}, file.cursor < 2 ^ 32 →
    (seekAll file seeks).fatDir = file.fatDir ∧ (seekAll file seeks).cursor < 2 ^ 32
  | [], _, hcursor => ⟨rfl, hcursor⟩
  | seek :: seeks, file, hcursor => by
      obtain ⟨hdir, hword⟩ := fatFseek_spec file seek.1 seek.2 hcursor
      obtain ⟨hdir', hword'⟩ := seekAll_spec seeks hword
      exact ⟨hdir'.trans hdir, hword'⟩

/-- In the last cluster of a file that ends before the cursor, the size of the
transfer wraps around. -/
theorem transferPart_beyond (hC : g.clusterSize < 2 ^ 17) {a p n S : ℕ} (ha : a ≤ S)
    (hSp : S < p) (hp : p < a + g.clusterSize) (hlt : a + g.clusterSize < 2 ^ 32)
    (hn : n < 2 ^ 32) :
    transferPart g p n (a + g.clusterSize) (S - a) 0 = (p - a, 2 ^ 32 - (p - S)) := by
  have hsub : sub32 (a + g.clusterSize) p = a + g.clusterSize - p := sub32_of_le hp.le hlt
  have hpart : u32 (S - a) = S - a := u32_of_lt (by omega)
  have hleft : sub32 n 0 = n := sub32_of_le (by omega) hn
  have hskip : sub32 g.clusterSize (a + g.clusterSize - p) = p - a := by
    rw [sub32_of_le (by omega) (by omega)]
    omega
  obtain ⟨bytes, hbytes, hle⟩ : ∃ bytes, (if n > S - a then S - a else n) = bytes ∧ bytes ≤ S - a := by
    refine ⟨_, rfl, ?_⟩
    split <;> omega
  have hwhole : u32 (bytes + (p - a)) = bytes + (p - a) := u32_of_lt (by omega)
  have htrim : sub32 (bytes + (p - a)) (S - a) = bytes + (p - S) := by
    rw [sub32_of_le (by omega) (by omega)]
    omega
  unfold transferPart
  rw [hsub, Nat.add_zero, hpart, hleft]
  simp only [hbytes]
  rw [if_pos (by omega), hskip, hwhole, if_pos (by omega), htrim]
  congr 1
  unfold sub32
  omega

/-- With the cursor behind the end of the file, the loop of `fat_fread` reads nothing
when the last cluster ends before the cursor, and otherwise it asks for almost
`2 ^ 32` bytes. -/
theorem freadRequests_beyond (hg : Geometry g) (hn : n < 2 ^ 32)
    (hbeyond : file.fatDir.dirFileSize < file.cursor) :
    ∀ {rounds : ℕ} {rest : List ℕ} {c a : ℕ} {s : State}, FileChain g s.disk c rest →
      CacheFresh s → rest.length ≤ rounds →
        a + (rest.length - 1) * g.clusterSize ≤ file.fatDir.dirFileSize →
        file.fatDir.dirFileSize ≤ a + rest.length * g.clusterSize →
        a + rest.length * g.clusterSize < 2 ^ 32 →
          ∃ reads total s', freadRequests g file n rounds c a 0 s = some (reads, total, s') ∧
            (a + rest.length * g.clusterSize ≤ file.cursor → reads = [] ∧ total = 0) ∧
            (file.cursor < a + rest.length * g.clusterSize →
              ∃ address, total = 2 ^ 32 - (file.cursor - file.fatDir.dirFileSize) ∧
                reads = [⟨0, address, total⟩])
  | 0, _, _, _, _, h, _, hrounds, _, _, _ => by
      have hpos := h.chain.length_pos
      omega
  | rounds + 1, rest, c, a, s, h, hs, hrounds, hlo, hhi, hlt => by
      have hc := h.valid c h.chain.head_mem
      have hC := hg.clusterSize_lt
      obtain ⟨s', hread, hlooked⟩ := fatReadFatEntry_cached hg hs (hc.lt28 hg)
      generalize hS : file.fatDir.dirFileSize = S at hbeyond hlo hhi
      generalize hcur : file.cursor = p at hbeyond
      have hone : a + g.clusterSize ≤ a + rest.length * g.clusterSize :=
        Nat.add_le_add_left (Nat.le_mul_of_pos_left _ h.chain.length_pos) a
      have hlt' : a + g.clusterSize < 2 ^ 32 := by omega
      have hpart := readPartSize_eq file hC hlt' (by omega)
      rw [hS] at hpart
      unfold freadRequests
      rw [if_neg (not_lt.mpr hc.ge_two), hread]
      simp only [hpart, hcur, u32_of_lt hlt', roundReads]
      rcases h.entry_cases with ⟨rfl, hmark⟩ | ⟨rest', rfl, hrest, hnext⟩
      · obtain ⟨h0, hbad, hlast⟩ := hmark.not_special
        rw [if_neg h0, if_neg hbad, if_pos hlast]
        rw [List.length_singleton, Nat.one_mul] at hhi ⊢
        refine ⟨_, _, _, rfl, ?_, ?_⟩
        · intro hend
          rw [if_neg (fun hcond => not_lt.mpr hend hcond.1), if_neg (not_lt.mpr hend)]
          exact ⟨rfl, rfl⟩
        · intro hp
          have hmin : min g.clusterSize (S - a) = S - a := by omega
          rw [hmin, transferPart_beyond hC (by omega) hbeyond hp hlt' hn, if_pos hp,
            if_pos ⟨hp, by dsimp only; omega⟩]
          have htotal : u32 (0 + (2 ^ 32 - (p - S))) = 2 ^ 32 - (p - S) := by
            rw [Nat.zero_add]
            exact u32_of_lt (by omega)
          dsimp only
          rw [htotal]
          exact ⟨u32 (g.clusterOffset c + (p - a)), rfl, rfl⟩
      · obtain ⟨h0, hbad, hlast, hmod⟩ := hnext.not_special hg
        rw [if_neg h0, if_neg hbad, if_neg (by rw [hlast]; exact Bool.false_ne_true), hmod]
        have hlen' := hrest.chain.length_pos
        rw [List.length_cons, Nat.succ_mul] at hhi hlt ⊢
        rw [List.length_cons, Nat.add_sub_cancel] at hlo
        have hwhole : rest'.length * g.clusterSize =
            (rest'.length - 1) * g.clusterSize + g.clusterSize := by
          rw [← Nat.succ_mul, Nat.succ_eq_add_one, Nat.sub_add_cancel hlen']
        -- A cluster that another one follows ends in the file, before the cursor.
        have hbefore : ¬ a + g.clusterSize > p := by omega
        rw [← hlooked.disk] at hrest
        obtain ⟨reads, total, s'', hloop, hquiet, hwrap⟩ := freadRequests_beyond hg hn
          (by rw [hS, hcur]; exact hbeyond) (a := a + g.clusterSize) hrest hlooked.fresh
          (Nat.le_of_succ_le_succ hrounds) (by omega) (by omega) (by omega)
        rw [hlooked.disk] at hloop
        rw [hcur] at hquiet hwrap
        rw [hS] at hwrap
        rw [if_neg hbefore, if_neg (fun hcond => hbefore hcond.1), hloop]
        refine ⟨reads, total, s'', rfl, ?_, ?_⟩
        · intro hend
          exact hquiet (by omega)
        · intro hp
          exact hwrap (by omega)

/-- A call of `fat_fread` that transfers nothing: the buffer and the handle stay as
they are, and no data read is longer than the request. -/
structure NothingRead (g : Bpb) (out : ℕ → UInt8) (d : ℕ) (file : FatFile) (s : State) :
    Prop where
  result : ∃ s', fatFread g out d file s = some (out, file, s')
  reads : ∃ reads, dataReads g d file s = some reads ∧ ∀ r ∈ reads, r.size ≤ d

/-- After seeking behind the end of the file nothing is transferred if and only if
the cursor is not in the last cluster of the file either. -/
theorem fatFread_beyond_iff (hg : Geometry g) (h : StoredFile g s.disk file.fatDir l)
    (hcursor : file.cursor < 2 ^ 32) (seeks : List (ℤ × ℤ))
    (hbeyond : file.fatDir.dirFileSize < (seekAll file seeks).cursor) {d : ℕ} (hd : d < 2 ^ 32)
    (out : ℕ → UInt8) :
    NothingRead g out d (seekAll file seeks) s ↔
      max 1 (clustersFor g file.fatDir.dirFileSize) * g.clusterSize ≤
        (seekAll file seeks).cursor := by
  obtain ⟨hdir, hword⟩ := seekAll_spec seeks hcursor
  generalize seekAll file seeks = file' at hdir hword hbeyond ⊢
  rw [← hdir] at h hbeyond ⊢
  have hchain := h.chain_low
  have hsize := h.sizeFits hg
  have hbytes := hchain.bytes_lt hg
  have hneeded := hsize.needed
  have henough := hsize.enough
  rw [← h.clusters]
  obtain ⟨reads, total, s', hloop, hquiet, hwrap⟩ := freadRequests_beyond (a := 0)
    (s := fatInvalidateCache s) hg hd hbeyond hchain (.inl rfl) (hchain.length_lt hg).le (by omega)
    (by omega) (by omega)
  rw [Nat.zero_add] at hquiet hwrap
  have hread : fatFread g out d file' s =
      (freadRequests g file' d loopBound file'.fatDir.dirFstClusLO 0 0
        (fatInvalidateCache s)).map _ := fatFread_requests out
  rw [hloop, Option.map_some] at hread
  constructor
  · intro hnothing
    by_contra hinside
    obtain ⟨address, htotal, -⟩ := hwrap (not_le.mp hinside)
    obtain ⟨s'', hresult⟩ := hnothing.result
    rw [hread] at hresult
    -- The cursor ends at the end of the file.
    have hmoved : u32 (file'.cursor + total) = file'.cursor :=
      congrArg (fun r => r.2.1.cursor) (Option.some_inj.mp hresult)
    unfold u32 at hmoved
    omega
  · intro hend
    obtain ⟨rfl, rfl⟩ := hquiet hend
    refine ⟨⟨s', ?_⟩, [], ?_, ?_⟩
    · rw [hread, Nat.add_zero, u32_of_lt hword]
      rfl
    · rw [dataReads, hloop, Option.map_some]
    · intro r hr
      exact absurd hr List.not_mem_nil

/-- A cursor behind the only cluster of the file. -/
theorem fatFread_beyond_iff_smallFile :
    NothingRead smallVolume (fun _ => 7) 10 (seekAll smallFile [(600, 0), (-88, 1)])
      smallState := by
  have hcursor : (seekAll smallFile [(600, 0), (-88, 1)]).cursor = 512 := by decide +kernel
  have hsize : smallFile.fatDir.dirFileSize = 100 := by decide +kernel
  refine (fatFread_beyond_iff smallVolume_geometry smallFile_stored (by decide)
    [(600, 0), (-88, 1)] ?_ (by decide) fun _ => 7).mpr ?_
  · rw [hcursor, hsize]
    decide
  · rw [hcursor]
    decide +kernel

/-- With the cursor at offset 200, between the end of the file and the end of its
cluster, a request of ten bytes reads almost the whole address space. -/
theorem seek_into_last_cluster_reads :
    smallFile.fatDir.dirFileSize < (seekAll smallFile [(200, 0)]).cursor ∧
      dataReads smallVolume 10 (seekAll smallFile [(200, 0)]) smallState =
        some [⟨0, smallVolume.clusterOffset 3 + 200, 2 ^ 32 - 100⟩] ∧
      ¬ NothingRead smallVolume (fun _ => 7) 10 (seekAll smallFile [(200, 0)]) smallState := by
  have hreads : dataReads smallVolume 10 (seekAll smallFile [(200, 0)]) smallState =
      some [⟨0, smallVolume.clusterOffset 3 + 200, 2 ^ 32 - 100⟩] := by decide +kernel
  refine ⟨by decide +kernel, hreads, ?_⟩
  rintro ⟨-, reads, hsome, hle⟩
  obtain rfl := Option.some_inj.mp (hreads.symm.trans hsome)
  exact absurd (hle _ (List.mem_singleton_self _)) (by decide)

end Neos.Fat
