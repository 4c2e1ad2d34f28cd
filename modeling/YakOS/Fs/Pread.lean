import YakOS.Fs.Fat

/-!
# Reading a file

`fatfs_pread` of `fs/vfsfat.c` reads a file at any offset.  Between calls it keeps
a cursor in the `fatfs_dirent`: a cluster of the file and the offset that cluster
starts at.  It goes back to the first cluster only for an offset before the
cursor, walks the chain from the cursor otherwise, copies what it needs of one
cluster and calls itself for the rest.

The recursion and the loop around it are modelled with a number of calls they may
nest; `none` is a run that needs more.

## Main definitions

* `fatfsOpen`, `walkClustersGiven`, `fatfsPreadGiven`, `fatfsReadGiven` — the code.
* `IsFile`, `fileBytes` — a file with a chain that covers its length, and the
  bytes of its clusters.
* `AtCursor` — the invariant of the cursor.

## Main results

* `fatfsPreadGiven_spec` — one call, from any position of the cursor.
* `preadAll_eq` — any sequence of calls after `fatfs_open` returns what the same
  calls on a freshly opened file return.
-/

namespace YakOS

open Bytes

/-- `IS_DIR`. -/
def isDir (flag : ℕ) : Bool := flag.testBit 4

/-- `IS_FILE`: neither a directory nor a volume label. -/
def isFile (flag : ℕ) : Bool := !flag.testBit 4 && !flag.testBit 3

/-- `fatfs_open`. -/
def fatfsOpen (d : FatfsDirent) : FatfsDirent :=
  { d with cluster := d.entry, offset := 0, lseek := 0 }

/-- The loop of `fatfs_pread` that follows the chain for `n` clusters: the file with
its cursor moved, or the file and the value the call returns early. -/
def walkClustersGiven (fs : FatfsPriv) : ℕ → FatfsDirent → Except (FatfsDirent × ℤ) FatfsDirent
  | 0, file => .ok file
  | n + 1, file =>
    match fs.opvector.fatNextCluster fs.toVolume file.cluster with
    | none => .error (file, -1)
    | some cluster =>
      if cluster ≥ fs.opvector.fatMaxCluster then .error (file, 0)
      else walkClustersGiven fs n
        { file with
          offset := (file.offset + fs.bytesPerCluster) % 2 ^ 32
          cluster := cluster }

/-- What a call of `fatfs_pread` leaves behind: the file with its cursor, the value
returned, and the bytes stored from the start of the caller's buffer on. -/
abbrev PreadResult := FatfsDirent × ℤ × List UInt8

/-- The loop at the end of `fatfs_pread`, which calls `pread` for what is left;
`data` are the bytes stored so far. -/
def preadRestGiven (pread : FatfsDirent → ℕ → ℕ → Option PreadResult) :
    ℕ → FatfsDirent → ℕ → ℕ → List UInt8 → Option PreadResult
  | 0, _, _, _, _ => none
  | n + 1, file, count, off, data =>
    if off < file.length ∧ count > 0 then do
      let (file, hr, more) ← pread file count off
      if hr = -1 then return (file, -1, data ++ more)
      if hr = 0 then return (file, data.length, data)
      preadRestGiven pread n file (count - hr.toNat) ((off + hr.toNat) % 2 ^ 32) (data ++ more)
    else some (file, data.length, data)

/-- `fatfs_pread` after its checks: rewind, walk, copy out of one cluster, and call
`pread` for the rest. -/
def preadBodyGiven (fs : FatfsPriv) (pread : FatfsDirent → ℕ → ℕ → Option PreadResult) (n : ℕ)
    (file : FatfsDirent) (count off : ℕ) : Option PreadResult :=
  let file := if off < file.offset then { file with cluster := file.entry, offset := 0 } else file
  let bytesPerCluster := fs.bytesPerCluster
  let clusterCount := (off - file.offset) / bytesPerCluster
  match walkClustersGiven fs clusterCount file with
  | .error (file, ret) => some (file, ret, [])
  | .ok file =>
    match fatReadCluster fs.toVolume file.cluster with
    | none => some (file, -1, [])
    | some clusterBuffer =>
      let clusterOffset := off - file.offset
      let cpcnt := if bytesPerCluster > (clusterOffset + count) % 2 ^ 32
        then count else bytesPerCluster - clusterOffset
      let data := (clusterBuffer.drop clusterOffset).take cpcnt
      preadRestGiven pread n file (count - cpcnt) ((off + cpcnt) % 2 ^ 32) data

/-- `fatfs_pread`, with at most the given number of nested calls. -/
def fatfsPreadGiven (fs : FatfsPriv) : ℕ → FatfsDirent → ℕ → ℕ → Option PreadResult
  | 0, _, _, _ => none
  | n + 1, file, count, off =>
    if ¬ isDir file.flag ∧ off > file.length then some (file, -1, [])
    else
      let count := if ¬ isDir file.flag ∧ (off + count) % 2 ^ 32 > file.length
        then file.length - off else count
      if count = 0 then some (file, 0, [])
      else preadBodyGiven fs (fatfsPreadGiven fs n) (n + 1) file count off

/-- `fatfs_read`: the file, whether the call succeeded, and the bytes read. -/
def fatfsReadGiven (fs : FatfsPriv) (n : ℕ) (d : FatfsDirent) (count : ℕ) :
    Option (FatfsDirent × Bool × List UInt8) := do
  let (d, ret, data) ← fatfsPreadGiven fs n d count d.lseek
  return if ret = -1 then (d, false, [])
    else ({ d with lseek := (d.lseek + ret.toNat) % 2 ^ 32 }, true, data)

/-- A sequence of calls `(count, off)`, and what each returns. -/
def preadAll (fs : FatfsPriv) (n : ℕ) :
    FatfsDirent → List (ℕ × ℕ) → Option (List (ℤ × List UInt8))
  | _, [] => some []
  | file, (count, off) :: calls => do
    let (file, res) ← fatfsPreadGiven fs n file count off
    let rest ← preadAll fs n file calls
    return res :: rest

/-! ### Files and what they hold -/

/-- A regular file whose cluster chain `cs`, followed by the volume's
`fat_next_cluster`, covers its length. -/
structure IsFile (fs : FatfsPriv) (d : FatfsDirent) (cs : List ℕ) : Prop where
  sector : 512 ≤ fs.bytesPerSector
  cluster : 1 ≤ fs.sectorsPerCluster
  regular : isFile d.flag = true
  head : cs[0]? = some d.entry
  chain : ∀ i c c', cs[i]? = some c → cs[i + 1]? = some c' →
    fs.opvector.fatNextCluster fs.toVolume c = some c' ∧ c' < fs.opvector.fatMaxCluster
  covers : d.length ≤ cs.length * fs.bytesPerCluster

/-- The bytes of the clusters `cs`, one after the other. -/
def fileBytes (fs : FatfsPriv) (cs : List ℕ) : List UInt8 := cs.flatMap (clusterBytes fs.toVolume)

/-- What reading `count` bytes at `off` of a file of `length` bytes is to return. -/
def preadSpec (bytes : List UInt8) (length count off : ℕ) : ℤ × List UInt8 :=
  if off > length then (-1, [])
  else
    let n := min count (length - off)
    (n, (bytes.drop off).take n)

/-- The file `file` is `d` with its cursor on one of its clusters. -/
structure AtCursor (fs : FatfsPriv) (d : FatfsDirent) (cs : List ℕ) (file : FatfsDirent) (i : ℕ) :
    Prop where
  cluster : cs[i]? = some file.cluster
  offset : file.offset = i * fs.bytesPerCluster
  length : file.length = d.length
  entry : file.entry = d.entry
  flag : file.flag = d.flag

variable {fs : FatfsPriv} {d : FatfsDirent} {cs : List ℕ}

theorem IsFile.bytesPerCluster_pos (h : IsFile fs d cs) : 0 < fs.bytesPerCluster :=
  Nat.mul_pos (by have := h.sector; omega) h.cluster

theorem IsFile.not_isDir (h : IsFile fs d cs) : isDir d.flag = false := by
  have := h.regular
  simp only [isFile, Bool.and_eq_true, Bool.not_eq_true'] at this
  exact this.1

theorem atCursor_fatfsOpen (h : IsFile fs d cs) : AtCursor fs d cs (fatfsOpen d) 0 :=
  ⟨h.head, by simp [fatfsOpen], rfl, rfl, rfl⟩

/-- The rewind of `fatfs_pread` leaves the cursor on a cluster at or before `off`. -/
theorem AtCursor.rewind (h : IsFile fs d cs) {file : FatfsDirent} {i : ℕ}
    (hc : AtCursor fs d cs file i) (off : ℕ) :
    ∃ j, AtCursor fs d cs
        (if off < file.offset then { file with cluster := file.entry, offset := 0 } else file) j ∧
      j * fs.bytesPerCluster ≤ off := by
  by_cases hoff : off < file.offset
  · rw [if_pos hoff]
    refine ⟨0, { hc with cluster := ?_, offset := by simp }, by simp⟩
    rw [h.head]
    exact congrArg some hc.entry.symm
  · rw [if_neg hoff]
    refine ⟨i, hc, ?_⟩
    rw [← hc.offset]
    omega

/-- Following the chain moves the cursor, as long as the chain lasts. -/
theorem walkClustersGiven_eq (h : IsFile fs d cs) : ∀ (n i : ℕ) (file : FatfsDirent),
    AtCursor fs d cs file i → i + n < cs.length → (i + n) * fs.bytesPerCluster < 2 ^ 31 →
    ∃ file', walkClustersGiven fs n file = .ok file' ∧ AtCursor fs d cs file' (i + n) := by
  intro n
  induction n with
  | zero => intro i file hc _ _; exact ⟨file, rfl, hc⟩
  | succ n ih =>
    intro i file hc hlt hsmall
    obtain ⟨c', hc'⟩ : ∃ c', cs[i + 1]? = some c' := ⟨_, List.getElem?_eq_getElem (by omega)⟩
    obtain ⟨hnext, hmax⟩ := h.chain i file.cluster c' hc.cluster hc'
    have hoff : (file.offset + fs.bytesPerCluster) % 2 ^ 32 = (i + 1) * fs.bytesPerCluster := by
      rw [hc.offset, ← Nat.succ_mul, Nat.mod_eq_of_lt]
      rw [Nat.succ_eq_add_one]
      have : (i + 1) * fs.bytesPerCluster ≤ (i + (n + 1)) * fs.bytesPerCluster :=
        Nat.mul_le_mul_right _ (by omega)
      omega
    obtain ⟨file', hw, hcur⟩ := ih (i + 1)
      { file with
        offset := (file.offset + fs.bytesPerCluster) % 2 ^ 32
        cluster := c' }
      ⟨hc', hoff, hc.length, hc.entry, hc.flag⟩ (by omega) (by rwa [Nat.add_right_comm])
    refine ⟨file', ?_, by rwa [Nat.add_right_comm] at hcur⟩
    simp only [walkClustersGiven, hnext, if_neg (Nat.not_le.mpr hmax)]
    exact hw

/-- The bytes a call copies out of one cluster and those of the rest of the read. -/
theorem fileBytes_split {off c : ℕ} (count cpcnt : ℕ)
    (hc : cs[off / fs.bytesPerCluster]? = some c)
    (hcp : off % fs.bytesPerCluster + cpcnt ≤ fs.bytesPerCluster) (hle : cpcnt ≤ count) :
    ((fileBytes fs cs).drop off).take count =
      ((clusterBytes fs.toVolume c).drop (off % fs.bytesPerCluster)).take cpcnt ++
        ((fileBytes fs cs).drop (off + cpcnt)).take (count - cpcnt) := by
  have hsplit : off = off / fs.bytesPerCluster * fs.bytesPerCluster + off % fs.bytesPerCluster := by
    rw [Nat.mul_comm]
    exact (Nat.div_add_mod _ _).symm
  have hfirst : ((fileBytes fs cs).drop off).take cpcnt =
      ((clusterBytes fs.toVolume c).drop (off % fs.bytesPerCluster)).take cpcnt := by
    conv_lhs => rw [hsplit]
    exact take_drop_flatMap_chunks (length_clusterBytes fs.toVolume) hc hcp
  rw [← hfirst, ← List.drop_drop]
  obtain ⟨k, rfl⟩ := Nat.exists_eq_add_of_le hle
  rw [List.take_add, Nat.add_sub_cancel_left]

/-- The bytes of a file reach to its length. -/
theorem IsFile.length_le (h : IsFile fs d cs) : d.length ≤ (fileBytes fs cs).length := by
  rw [fileBytes, length_flatMap_chunks (length_clusterBytes fs.toVolume)]
  exact h.covers

theorem IsFile.length_take (h : IsFile fs d cs) {off n : ℕ} (hn : off + n ≤ d.length) :
    (((fileBytes fs cs).drop off).take n).length = n := by
  have := h.length_le
  rw [List.length_take, List.length_drop]
  omega

/-- The checks at the head of `fatfs_pread`, for a regular file. -/
theorem fatfsPreadGiven_checks (h : IsFile fs d cs) {file : FatfsDirent} {i : ℕ}
    (hc : AtCursor fs d cs file i) {count off : ℕ} (hsmall : off + count < 2 ^ 31) (n : ℕ) :
    fatfsPreadGiven fs (n + 1) file count off =
      if off > d.length then some (file, -1, [])
      else if min count (d.length - off) = 0 then some (file, 0, [])
      else preadBodyGiven fs (fatfsPreadGiven fs n) (n + 1) file (min count (d.length - off)) off := by
  have hdir : isDir file.flag = false := by rw [hc.flag]; exact h.not_isDir
  simp only [fatfsPreadGiven, hdir, Bool.false_eq_true, not_false_eq_true, true_and, hc.length]
  by_cases hoff : off > d.length
  · rw [if_pos hoff, if_pos hoff]
  · have hcut : (if (off + count) % 2 ^ 32 > d.length then d.length - off else count) =
        min count (d.length - off) := by
      rw [Nat.mod_eq_of_lt (by omega)]
      split <;> omega
    rw [if_neg hoff, if_neg hoff, hcut]

/-- Up to the loop at its end, a read of `count ≥ 1` bytes inside the file copies
what lies in the cluster of `off`. -/
theorem preadBodyGiven_eq (h : IsFile fs d cs) {file : FatfsDirent} {i count off : ℕ}
    (hc : AtCursor fs d cs file i) (hpos : 0 < count) (hin : off + count ≤ d.length)
    (hsmall : off + count < 2 ^ 31) (pread : FatfsDirent → ℕ → ℕ → Option PreadResult) (n : ℕ) :
    ∃ file' c cpcnt, AtCursor fs d cs file' (off / fs.bytesPerCluster) ∧
      cs[off / fs.bytesPerCluster]? = some c ∧
      cpcnt = min count (fs.bytesPerCluster - off % fs.bytesPerCluster) ∧
      preadBodyGiven fs pread n file count off =
        preadRestGiven pread n file' (count - cpcnt) (off + cpcnt)
          (((clusterBytes fs.toVolume c).drop (off % fs.bytesPerCluster)).take cpcnt) := by
  have hb := h.bytesPerCluster_pos
  have hbl := fs.bytesPerCluster_lt
  -- the walk ends on the cluster that holds `off`
  obtain ⟨j, hj, hjoff⟩ := hc.rewind h off
  set file₀ := if off < file.offset then { file with cluster := file.entry, offset := 0 } else file
    with hfile₀
  have hwalk : j + (off - file₀.offset) / fs.bytesPerCluster = off / fs.bytesPerCluster := by
    rw [hj.offset, Nat.mul_comm j, Nat.sub_mul_div]
    have : j ≤ off / fs.bytesPerCluster := (Nat.le_div_iff_mul_le hb).mpr hjoff
    omega
  have hlast : off / fs.bytesPerCluster < cs.length := by
    rw [Nat.div_lt_iff_lt_mul hb]
    have := h.covers
    omega
  have hmul : off / fs.bytesPerCluster * fs.bytesPerCluster ≤ off := Nat.div_mul_le_self _ _
  obtain ⟨file', hw, hcur⟩ := walkClustersGiven_eq h _ j file₀ hj (by rw [hwalk]; exact hlast)
    (by rw [hwalk]; omega)
  rw [hwalk] at hcur
  have hmod : off - file'.offset = off % fs.bytesPerCluster := by
    rw [hcur.offset]
    have := Nat.div_add_mod off fs.bytesPerCluster
    rw [Nat.mul_comm] at this
    omega
  have hmodlt : off % fs.bytesPerCluster < fs.bytesPerCluster := Nat.mod_lt _ hb
  have hcp : (if fs.bytesPerCluster > (off % fs.bytesPerCluster + count) % 2 ^ 32 then count
      else fs.bytesPerCluster - off % fs.bytesPerCluster) =
      min count (fs.bytesPerCluster - off % fs.bytesPerCluster) := by
    rw [Nat.mod_eq_of_lt (show off % fs.bytesPerCluster + count < 2 ^ 32 by omega)]
    split <;> omega
  refine ⟨file', file'.cluster, _, hcur, hcur.cluster, rfl, ?_⟩
  simp only [preadBodyGiven]
  rw [← hfile₀, hw]
  dsimp only
  rw [fatReadCluster_eq h.sector h.cluster]
  dsimp only
  rw [hmod, hcp, Nat.mod_eq_of_lt (show off + min count _ < 2 ^ 32 by omega)]

/-- **One read, from wherever the cursor stands.**  What does not lie in the
cluster of `off` comes from a nested call that starts at the next cluster. -/
theorem fatfsPreadGiven_inside (h : IsFile fs d cs) : ∀ (n : ℕ) (file : FatfsDirent) (i count off : ℕ),
    AtCursor fs d cs file i → 0 < count → count < n → off + count ≤ d.length →
    off + count < 2 ^ 31 →
    ∃ file' j, fatfsPreadGiven fs n file count off =
        some (file', (count : ℤ), ((fileBytes fs cs).drop off).take count) ∧
      AtCursor fs d cs file' j := by
  intro n
  induction n with
  | zero => intro file i count off _ _ hn; omega
  | succ n ih =>
    intro file i count off hc hpos hn hin hsmall
    have hmodlt : off % fs.bytesPerCluster < fs.bytesPerCluster :=
      Nat.mod_lt _ h.bytesPerCluster_pos
    obtain ⟨file₁, c, cpcnt, hcur, hcl, hcp, hrun⟩ :=
      preadBodyGiven_eq h hc hpos hin hsmall (fatfsPreadGiven fs n) (n + 1)
    have hbytes := fileBytes_split count cpcnt hcl (by omega) (by omega)
    have hlen₁ : (((clusterBytes fs.toVolume c).drop
        (off % fs.bytesPerCluster)).take cpcnt).length = cpcnt := by
      rw [List.length_take, List.length_drop, length_clusterBytes]
      omega
    have hcount : min count (d.length - off) = count := by omega
    rw [fatfsPreadGiven_checks h hc hsmall, if_neg (by omega), hcount, if_neg (by omega), hrun]
    by_cases hdone : count - cpcnt = 0
    · -- the cluster held all of it
      have hall : cpcnt = count := by omega
      refine ⟨file₁, _, ?_, hcur⟩
      rw [preadRestGiven, if_neg (by omega), hlen₁, hbytes, hdone, List.take_zero, List.append_nil, hall]
    -- the nested call reads the rest, and the loop around it ends
    · obtain ⟨file₂, k, hrec, hcur₂⟩ := ih file₁ _ (count - cpcnt) (off + cpcnt) hcur (by omega)
        (by omega) (by omega) (by omega)
      refine ⟨file₂, k, ?_, hcur₂⟩
      obtain ⟨n, rfl⟩ : ∃ n', n = n' + 1 := ⟨n - 1, by omega⟩
      rw [preadRestGiven, if_pos (by rw [hcur.length]; omega), hrec]
      simp only [Option.bind_eq_bind, Option.bind_some]
      rw [if_neg (by omega), if_neg (by omega), Int.toNat_natCast, preadRestGiven,
        if_neg (by omega), ← hbytes, h.length_take hin]

/-- **One call of `fatfs_pread`** returns what it should, whatever position the
earlier calls have left the cursor in, and leaves it on a cluster of the file. -/
theorem fatfsPreadGiven_spec (h : IsFile fs d cs) {n : ℕ} {file : FatfsDirent} {i count off : ℕ}
    (hc : AtCursor fs d cs file i) (hn : count < n) (hsmall : off + count < 2 ^ 31) :
    ∃ file' j, fatfsPreadGiven fs n file count off =
        some (file', preadSpec (fileBytes fs cs) d.length count off) ∧
      AtCursor fs d cs file' j := by
  obtain ⟨n, rfl⟩ : ∃ k, n = k + 1 := ⟨n - 1, by omega⟩
  by_cases hoff : off > d.length
  · refine ⟨file, i, ?_, hc⟩
    rw [fatfsPreadGiven_checks h hc hsmall, if_pos hoff, preadSpec, if_pos hoff]
  · rw [preadSpec, if_neg hoff]
    by_cases hzero : min count (d.length - off) = 0
    · refine ⟨file, i, ?_, hc⟩
      rw [fatfsPreadGiven_checks h hc hsmall, if_neg hoff, if_pos hzero]
      simp [hzero]
    · -- with the count cut down beforehand the call runs the same way
      obtain ⟨file', j, hrun, hcur⟩ := fatfsPreadGiven_inside h (n + 1) file i
        (min count (d.length - off)) off hc (by omega) (by omega) (by omega) (by omega)
      refine ⟨file', j, ?_, hcur⟩
      rw [← hrun, fatfsPreadGiven_checks h hc hsmall, fatfsPreadGiven_checks h hc (by omega),
        Nat.min_assoc, Nat.min_self]

/-- The calls made before do not matter: from any position of the cursor a
sequence of calls returns what each of them is to return. -/
theorem preadAll_of_atCursor (h : IsFile fs d cs) {n : ℕ} :
    ∀ (calls : List (ℕ × ℕ)) (file : FatfsDirent) (i : ℕ), AtCursor fs d cs file i →
      (∀ c ∈ calls, c.1 < n ∧ c.2 + c.1 < 2 ^ 31) →
      preadAll fs n file calls =
        some (calls.map fun c => preadSpec (fileBytes fs cs) d.length c.1 c.2) := by
  intro calls
  induction calls with
  | nil => intro file i _ _; rfl
  | cons c calls ih =>
    intro file i hc hcalls
    obtain ⟨count, off⟩ := c
    obtain ⟨hn, hsmall⟩ := hcalls (count, off) (by simp)
    obtain ⟨file', j, hrun, hcur⟩ := fatfsPreadGiven_spec h hc hn hsmall
    have hrest := ih file' j hcur fun c hc => hcalls c (by simp [hc])
    simp only [preadAll, hrun, Option.bind_eq_bind, Option.bind_some, hrest, List.map_cons]
    rfl

/-- **Reads of a file.**  On a volume with sectors of at least 512 bytes and
clusters of at least one sector, every sequence of `fatfs_pread` calls on a
regular file whose chain covers its length, made after `fatfs_open` with offsets
and counts that add up to less than `2 ^ 31`, terminates, and each call returns
`-1` behind the end of the file and otherwise exactly the bytes of the
concatenated clusters, independently of the calls made before. -/
theorem preadAll_eq (fs : FatfsPriv) (d : FatfsDirent) (cs : List ℕ) (h : IsFile fs d cs)
    (calls : List (ℕ × ℕ)) (hcalls : ∀ c ∈ calls, c.2 + c.1 < 2 ^ 31)
    (n : ℕ) (hn : ∀ c ∈ calls, c.1 < n) :
    preadAll fs n (fatfsOpen d) calls =
      some (calls.map fun c => preadSpec (fileBytes fs cs) d.length c.1 c.2) :=
  preadAll_of_atCursor h calls _ 0 (atCursor_fatfsOpen h) fun c hc => ⟨hn c hc, hcalls c hc⟩

/-- A FAT16 volume with one FAT sector, whose entry for cluster 2 is 3. -/
def demoFs : FatfsPriv where
  image := fun a => if a = 516 then 3 else if a < 1024 then 0 else UInt8.ofNat a
  bytesPerSector := 512
  sectorsPerCluster := 1
  firstClusterSector := 2
  reservedSector := 1
  sectorsPerFat := 1
  numberOfFAT := 1
  rootEntries := 0
  bytesPerSector_lt := Volume.sectorBytes_lt
  sectorsPerCluster_lt := Volume.clusterSectors_lt
  opvector := fat16fsOpvector fun _ => 0

/-- A file of 600 bytes in the clusters 2 and 3. -/
def demoFile : FatfsDirent :=
  { lseek := 0, cluster := 0, offset := 0, length := 600, entry := 2, flag := 0x20 }

theorem isFile_demo : IsFile demoFs demoFile [2, 3] where
  sector := by decide
  cluster := by decide
  regular := by decide
  head := rfl
  chain := by
    intro i c c' hc hc'
    match i with
    | 0 =>
      obtain rfl : 2 = c := by simpa using hc
      obtain rfl : 3 = c' := by simpa using hc'
      exact ⟨by decide +kernel, by decide⟩
    | 1 => simp at hc'
    | i + 2 => simp at hc
  covers := by decide

/-- A read across the cluster boundary, one back to the start and one behind the
end. -/
theorem preadAll_demo :
    preadAll demoFs 100 (fatfsOpen demoFile) [(20, 500), (7, 3), (1, 601)] =
      some ([(20, 500), (7, 3), (1, 601)].map fun c =>
        preadSpec (fileBytes demoFs [2, 3]) 600 c.1 c.2) :=
  preadAll_eq demoFs demoFile [2, 3] isFile_demo _ (by decide) 100 (by decide)

end YakOS
