import YakOS.Fs.Pread

/-!
# Directories

The part of `fs/vfsfat.c` that looks names up in directories and lists them.  A
directory is a sequence of 32-byte entries: the root directory of a FAT12 or FAT16
volume lies in its own sectors and is marked by the flag `0xFF00`, any other
directory is a cluster chain.

The calls are given the buffers they ask `kmalloc` for, as in `YakOS.Fs.Fat`.

## Main definitions

* `FatEntry`, `direntAt`, `name83` — directory entries and their names.
* `fatDirentLookup`, `fatfsRootGiven`, `lookupRoundGiven`, `fatfsLookupGiven` — looking a name up.
* `fatfsRootDirReadGiven`, `fatfsDirReadGiven` — listing a directory.
-/

namespace YakOS

open Bytes

/-! ### Directory entries -/

/-- `struct fat_entry`, as far as it is read. -/
structure FatEntry where
  name : List UInt8
  fext : List UInt8
  attr : ℕ
  clusterHigh : ℕ
  clusterEntry : ℕ
  length : ℕ
  deriving DecidableEq, Repr

/-- The `j`-th entry of a buffer. -/
def direntAt (buf : List UInt8) (j : ℕ) : FatEntry :=
  let b : ℕ → UInt8 := fun i => buf.getD (32 * j + i) 0
  { name := read b 0 8
    fext := read b 8 3
    attr := (b 11).toNat
    clusterHigh := u16 b 20
    clusterEntry := u16 b 26
    length := u32 b 28 }

/-- `DENTRY_IS_LONG_NAME`. -/
def FatEntry.isLongName (e : FatEntry) : Bool := e.attr == 0x0F

/-- `DENTRY_IS_DELETED`. -/
def FatEntry.isDeleted (e : FatEntry) : Bool := e.name.head? == some 0xE5

/-- `DENTRY_IS_ZERO`. -/
def FatEntry.isZero (e : FatEntry) : Bool := e.name.head? == some 0

/-- `dirent_trim`: the number of characters before the first blank or NUL. -/
def direntTrim (buf : List UInt8) (count : ℕ) : ℕ :=
  ((buf.take count).takeWhile fun c => c != 0 && c != 0x20).length

/-- The name built from an entry: the trimmed name, and a point and the trimmed extension
unless that is empty. -/
def name83 (e : FatEntry) : List UInt8 :=
  let cpcnt := direntTrim e.name 8
  let cpcntext := direntTrim e.fext 3
  e.name.take cpcnt ++ (if cpcntext ≠ 0 then [0x2E] else []) ++ e.fext.take cpcntext

/-! ### Looking a name up -/

/-- What a lookup stores in the `fatfs_dirent` of the node it finds. -/
structure Found where
  length : ℕ
  entry : ℕ
  flag : ℕ
  deriving DecidableEq, Repr

/-- `fat_dirent_lookup` among the first `dpcnt` entries of a buffer. -/
def fatDirentLookup (buf : List UInt8) (dpcnt : ℕ) (path : List UInt8) : Option FatEntry :=
  ((List.range dpcnt).map (direntAt buf)).find? fun e =>
    decide (0 < direntTrim e.name 8) && strcmp path (name83 e) == 0

/-- The first sector of the root directory. -/
def rootSector (v : Volume) : ℕ := (v.reservedSector + v.sectorsPerFat * v.numberOfFAT) % 2 ^ 32

/-- The loop of `fatfs_root` from sector `idx` on, at most `fuel` rounds: each round passes at
least one entry. -/
def rootRounds (v : Volume) (name : List UInt8) : ℕ → ℕ → ℕ → Option Found
  | 0, _, _ => none
  | fuel + 1, idx, count =>
      if count < v.rootEntries then
        match fatReadSector v idx with
        | none => none
        | some buf =>
            let dpcnt := v.bytesPerSector / 32
            let dpcnt := if dpcnt + count > v.rootEntries then v.rootEntries - count else dpcnt
            match fatDirentLookup buf dpcnt name with
            | some e => some ⟨e.length, e.clusterEntry, e.attr⟩
            | none => rootRounds v name fuel ((idx + 1) % 2 ^ 32) (count + dpcnt)
      else none

/-- `fatfs_root`. -/
def fatfsRootGiven (v : Volume) (name : List UInt8) : Option Found :=
  rootRounds v name (v.rootEntries + 1) (rootSector v) 0

/-- Where the loop of `fatfs_lookup` stands. -/
inductive LookupState where
  /-- At the head of the loop, with this value of `valid_cluster`. -/
  | walking (validCluster : ℕ)
  /-- The loop has ended, with the node it found, if any. -/
  | done (found : Option Found)
  deriving DecidableEq, Repr

/-- One round of the loop of `fatfs_lookup`. -/
def lookupRoundGiven (fs : FatfsPriv) (name : List UInt8) (validCluster : ℕ) : LookupState :=
  if validCluster < fs.opvector.fatMaxCluster then
    match fatReadCluster fs.toVolume validCluster with
    | none => .done none
    | some buf =>
        match fatDirentLookup buf (fs.bytesPerCluster / 32) name with
        | some e =>
            .done (some ⟨e.length,
              (e.clusterEntry ||| e.clusterHigh <<< 16) &&& fs.opvector.fatClusterMask, e.attr⟩)
        | none =>
            match fs.opvector.fatNextCluster fs.toVolume validCluster with
            | none => .done none
            | some cluster => .walking cluster
  else .done none

/-- `n` rounds of the loop of `fatfs_lookup`. -/
def lookupRoundsGiven (fs : FatfsPriv) (name : List UInt8) : ℕ → ℕ → LookupState
  | 0, c => .walking c
  | n + 1, c =>
      match lookupRoundGiven fs name c with
      | .walking c' => lookupRoundsGiven fs name n c'
      | .done found => .done found

/-- `fatfs_lookup`, with at most `n` rounds of its loop; `none` when it needs more. -/
def fatfsLookupGiven (fs : FatfsPriv) (n : ℕ) (d : FatfsDirent) (name : List UInt8) :
    Option (Option Found) :=
  if d.flag &&& 0xFF00 ≠ 0 then some (fatfsRootGiven fs.toVolume name)
  else if ¬ isDir d.flag then some none
  else
    match lookupRoundsGiven fs name n d.entry with
    | .walking _ => none
    | .done found => some found

/-! ### Listing a directory -/

/-- What one call of a directory's `read` comes to. -/
inductive DirRead where
  /-- It returns `-1`. -/
  | fail
  /-- It returns 0 with a count of `-1` and stores nothing. -/
  | skip
  /-- It returns 0, and this name and its NUL are stored. -/
  | name (bs : List UInt8)
  deriving DecidableEq, Repr

/-- The sector of `fatfs_root_dir_read` follows the position. -/
def rootSeek (v : Volume) (d : FatfsDirent) : FatfsDirent :=
  if d.lseek > (d.offset + 1) * v.bytesPerSector % 2 ^ 32
    then { d with offset := (d.offset + 1) % 2 ^ 32 } else d

/-- What `fatfs_root_dir_read` makes of an entry. -/
def rootDirEntry (d : FatfsDirent) (dent : FatEntry) : FatfsDirent × DirRead :=
  if dent.isZero then (d, .fail)
  else if dent.isDeleted || dent.isLongName then
    ({ d with lseek := (d.lseek + 32) % 2 ^ 32 }, .skip)
  else if 0 < direntTrim dent.name 8 then
    ({ d with lseek := (d.lseek + 32) % 2 ^ 32 }, .name (name83 dent))
  else (d, .fail)

/-- `fatfs_root_dir_read`: the position is kept as `lseek`, and the sector as `offset`. -/
def fatfsRootDirReadGiven (v : Volume) (d : FatfsDirent) : FatfsDirent × DirRead :=
  let entryCnt := d.lseek / 32
  if entryCnt ≥ v.rootEntries then (d, .fail)
  else
    let d := rootSeek v d
    let idx := (rootSector v + d.offset) % 2 ^ 32
    match fatReadSector v idx with
    | none => (d, .fail)
    | some buf => rootDirEntry d (direntAt buf (entryCnt % (v.bytesPerSector / 32)))

/-- `fatfs_dir_read`, with at most `n` nested calls of `fatfs_pread` for a directory that is a
cluster chain; `old` is what the caller's buffer holds. -/
def fatfsDirReadGiven (fs : FatfsPriv) (n : ℕ) (old : List UInt8) (d : FatfsDirent) (count : ℕ) :
    Option (FatfsDirent × DirRead) :=
  if count = 0 then some (d, .fail)
  else if d.flag &&& 0xFF00 ≠ 0 then some (fatfsRootDirReadGiven fs.toVolume d)
  else if ¬ isDir d.flag then some (d, .fail)
  else do
    let (d, ret, data) ← fatfsPreadGiven fs n d 32 d.lseek
    if ret = -1 then return (d, .fail)
    let d := { d with lseek := (d.lseek + ret.toNat) % 2 ^ 32 }
    let dent := direntAt (data ++ old.drop data.length) 0
    if 0 < direntTrim dent.name 8 then return (d, .name (name83 dent)) else return (d, .fail)

end YakOS
