import YakOS.Lib.Alloc
import YakOS.Mm.Extents
import YakOS.Fs.SameFile

/-!
# The buffers of the file system

`fs/vfsfat.c` reads sectors, clusters and FAT entries into buffers that it asks
`kmalloc` for, and keeps what a lookup finds in a new `fatfs_dirent`.  A call that is
refused one of them returns `-1`, by `VFS_ASSERT`.  Not every buffer is given back:
`fatfs_root_dir_read` frees its sector buffer only when the sector cannot be read, and
`fatfs_lookup` leaves its cluster buffer behind when it goes on to `fatfs_root`.

What a call returns when it is given all it asks for is computed by the functions of
`YakOS.Fs.Pread` and `YakOS.Fs.Dir`; the calls here do the same on a memory.

## Main definitions

* `kernelAllocator` — `kmalloc` and `kfree` as an allocator.
* `fatfsPread`, `fatfsRead`, `fatfsRootDirRead`, `fatfsDirRead` — reading.
* `fatfsRoot`, `lookupRound`, `fatfsLookup` — looking a name up.

## Main results

* `fatfsRead_outcome`, `fatfsDirRead_outcome`, `fatfsLookup_outcome` — **a call returns what
  it returns when it is given all it asks for, or has been refused and fails.**
-/

namespace YakOS

open Bytes
open Allocator (Prog Outcome Store)

/-- `kmalloc` and `kfree`, on the heap of the kernel. -/
def kernelAllocator : Allocator Heap := ⟨kmalloc, kfree⟩

/-- The heap that `kmalloc_init` leaves behind on five pages. -/
def bootHeap : Option Heap :=
  (pageAllocInit blankMem 4096 (5 * 4096)).map fun z => (kmallocInit z fun _ => 0).heap

/-- `sizeof(struct fatfs_dirent)`. -/
def direntSize : ℕ := 32

section Programs

variable {μ : Type} (H : Allocator μ)

/-- A call of `fat_next_cluster`. -/
def fatNextCluster (fs : FatfsPriv) (cluster : ℕ) : Prog μ (Option ℕ) := do
  match ← H.request (fs.bytesPerSector * fs.opvector.bufferSectors) with
  | none => return none
  | some sectorBuffer =>
    H.release sectorBuffer
    return fs.opvector.fatNextCluster fs.toVolume cluster

/-- The loop of `fatfs_pread` that follows the chain for `n` clusters. -/
def walkClusters (fs : FatfsPriv) :
    ℕ → FatfsDirent → Prog μ (Except (FatfsDirent × ℤ) FatfsDirent)
  | 0, file => return .ok file
  | n + 1, file => do
    match ← fatNextCluster H fs file.cluster with
    | none => return .error (file, -1)
    | some cluster =>
      if cluster ≥ fs.opvector.fatMaxCluster then return .error (file, 0)
      else
        walkClusters fs n { file with
          offset := (file.offset + fs.bytesPerCluster) % 2 ^ 32
          cluster := cluster }

/-- The loop at the end of `fatfs_pread`. -/
def preadRest (pread : FatfsDirent → ℕ → ℕ → Prog μ PreadResult) :
    ℕ → FatfsDirent → ℕ → ℕ → List UInt8 → Prog μ PreadResult
  | 0, _, _, _, _ => failure
  | n + 1, file, count, off, data =>
    if off < file.length ∧ count > 0 then do
      let (file, hr, more) ← pread file count off
      if hr = -1 then return (file, -1, data ++ more)
      if hr = 0 then return (file, data.length, data)
      preadRest pread n file (count - hr.toNat) ((off + hr.toNat) % 2 ^ 32) (data ++ more)
    else return (file, data.length, data)

/-- `fatfs_pread` behind the walk; the cluster buffer is given back in any case. -/
def preadCluster (fs : FatfsPriv) (pread : FatfsDirent → ℕ → ℕ → Prog μ PreadResult) (n count off : ℕ) :
    Except (FatfsDirent × ℤ) FatfsDirent → Prog μ PreadResult
  | .error (file, ret) => return (file, ret, [])
  | .ok file => do
    let bytesPerCluster := fs.bytesPerCluster
    match ← H.request bytesPerCluster with
    | none => return (file, -1, [])
    | some buffer =>
      H.release buffer
      match fatReadCluster fs.toVolume file.cluster with
      | none => return (file, -1, [])
      | some clusterBuffer =>
        let clusterOffset := off - file.offset
        let cpcnt := if bytesPerCluster > (clusterOffset + count) % 2 ^ 32
          then count else bytesPerCluster - clusterOffset
        let data := (clusterBuffer.drop clusterOffset).take cpcnt
        preadRest pread n file (count - cpcnt) ((off + cpcnt) % 2 ^ 32) data

/-- `fatfs_pread` after its checks. -/
def preadBody (fs : FatfsPriv) (pread : FatfsDirent → ℕ → ℕ → Prog μ PreadResult) (n : ℕ)
    (file : FatfsDirent) (count off : ℕ) : Prog μ PreadResult := do
  let file := if off < file.offset then { file with cluster := file.entry, offset := 0 } else file
  let clusterCount := (off - file.offset) / fs.bytesPerCluster
  preadCluster H fs pread n count off (← walkClusters H fs clusterCount file)

/-- `fatfs_pread`, with at most the given number of nested calls. -/
def fatfsPread (fs : FatfsPriv) : ℕ → FatfsDirent → ℕ → ℕ → Prog μ PreadResult
  | 0, _, _, _ => failure
  | n + 1, file, count, off =>
    if ¬ isDir file.flag ∧ off > file.length then return (file, -1, [])
    else
      let count := if ¬ isDir file.flag ∧ (off + count) % 2 ^ 32 > file.length
        then file.length - off else count
      if count = 0 then return (file, 0, [])
      else preadBody H fs (fatfsPread fs n) (n + 1) file count off

/-- `fatfs_read`. -/
def fatfsRead (fs : FatfsPriv) (n : ℕ) (d : FatfsDirent) (count : ℕ) :
    Prog μ (FatfsDirent × Bool × List UInt8) := do
  let (d, ret, data) ← fatfsPread H fs n d count d.lseek
  return if ret = -1 then (d, false, [])
    else ({ d with lseek := (d.lseek + ret.toNat) % 2 ^ 32 }, true, data)

/-- `fatfs_root_dir_read`. -/
def fatfsRootDirRead (v : Volume) (d : FatfsDirent) : Prog μ (FatfsDirent × DirRead) :=
  let entryCnt := d.lseek / 32
  if entryCnt ≥ v.rootEntries then return (d, .fail)
  else do
    let d := rootSeek v d
    let idx := (rootSector v + d.offset) % 2 ^ 32
    match ← H.request v.bytesPerSector with
    | none => return (d, .fail)
    | some sectorBuffer =>
      match fatReadSector v idx with
      | none =>
        H.release sectorBuffer
        return (d, .fail)
      -- nothing below gives the buffer back
      | some buf => return rootDirEntry d (direntAt buf (entryCnt % (v.bytesPerSector / 32)))

/-- `fatfs_dir_read`, with at most `n` nested calls of `fatfs_pread`. -/
def fatfsDirRead (fs : FatfsPriv) (n : ℕ) (old : List UInt8) (d : FatfsDirent) (count : ℕ) :
    Prog μ (FatfsDirent × DirRead) :=
  if count = 0 then return (d, .fail)
  else if d.flag &&& 0xFF00 ≠ 0 then fatfsRootDirRead H fs.toVolume d
  else if ¬ isDir d.flag then return (d, .fail)
  else do
    let (d, ret, data) ← fatfsPread H fs n d 32 d.lseek
    if ret = -1 then return (d, .fail)
    let d := { d with lseek := (d.lseek + ret.toNat) % 2 ^ 32 }
    let dent := direntAt (data ++ old.drop data.length) 0
    if 0 < direntTrim dent.name 8 then return (d, .name (name83 dent)) else return (d, .fail)

/-- `fatfs_root`.  The dirent is kept when the name is found, and when there is no sector buffer. -/
def fatfsRoot (v : Volume) (name : List UInt8) : Prog μ (Option Found) := do
  match ← H.request direntSize with
  | none => return none
  | some dirent =>
    match ← H.request v.bytesPerSector with
    | none => return none
    | some sectorBuffer =>
      H.release sectorBuffer
      match fatfsRootGiven v name with
      | some found => return some found
      | none =>
        H.release dirent
        return none

/-- One round of the loop of `fatfs_lookup`; the cluster buffer is given back where the call ends,
except when there is no dirent. -/
def lookupRound (fs : FatfsPriv) (name : List UInt8) (clusterBuffer validCluster : ℕ) :
    Prog μ LookupState :=
  if validCluster < fs.opvector.fatMaxCluster then
    match fatReadCluster fs.toVolume validCluster with
    | none => do
      H.release clusterBuffer
      return .done none
    | some buf =>
      match fatDirentLookup buf (fs.bytesPerCluster / 32) name with
      | some e => do
        match ← H.request direntSize with
        | none => return .done none
        | some _ =>
          H.release clusterBuffer
          return .done (some ⟨e.length,
            (e.clusterEntry ||| e.clusterHigh <<< 16) &&& fs.opvector.fatClusterMask, e.attr⟩)
      | none => do
        match ← fatNextCluster H fs validCluster with
        | none =>
          H.release clusterBuffer
          return .done none
        | some cluster => return .walking cluster
  else do
    H.release clusterBuffer
    return .done none

/-- `n` rounds of the loop of `fatfs_lookup`. -/
def lookupRounds (fs : FatfsPriv) (name : List UInt8) (clusterBuffer : ℕ) :
    ℕ → ℕ → Prog μ LookupState
  | 0, c => return .walking c
  | n + 1, c => do
    match ← lookupRound H fs name clusterBuffer c with
    | .walking c' => lookupRounds fs name clusterBuffer n c'
    | .done found => return .done found

/-- `fatfs_lookup`, with at most `n` rounds of its loop. -/
def fatfsLookup (fs : FatfsPriv) (n : ℕ) (d : FatfsDirent) (name : List UInt8) :
    Prog μ (Option Found) := do
  match ← H.request fs.bytesPerCluster with
  | none => return none
  | some clusterBuffer =>
    -- the first two of these leave the buffer behind
    if d.flag &&& 0xFF00 ≠ 0 then fatfsRoot H fs.toVolume name
    else if ¬ isDir d.flag then return none
    else
      match ← lookupRounds H fs name clusterBuffer n d.entry with
      | .walking _ => failure
      | .done found => return found

end Programs

section Outcomes

variable {μ : Type} {H : Allocator μ} {fs : FatfsPriv} {m : μ}

/-! ### Reading -/

/-- What a read that was refused a buffer leaves behind. -/
def ReadRefused (file : FatfsDirent) (r : PreadResult) : Prop := r.2.1 = -1 ∧ SameFile file r.1

theorem fatNextCluster_outcome (c : ℕ) :
    Outcome (· = none) (fatNextCluster H fs c (.fresh m))
      (some (fs.opvector.fatNextCluster fs.toVolume c)) := by
  unfold fatNextCluster
  refine Outcome.request (fun p m => ?_) fun m => ⟨none, m, rfl, rfl⟩
  exact .served _ (H.free m p)

theorem walkClusters_outcome (n : ℕ) (file : FatfsDirent) (m : μ) :
    Outcome (fun r => ∃ f, r = .error (f, -1) ∧ SameFile file f)
      (walkClusters H fs n file (.fresh m)) (some (walkClustersGiven fs n file)) := by
  induction n generalizing file m with
  | zero => exact .served _ m
  | succ n ih =>
    unfold walkClusters walkClustersGiven
    refine (fatNextCluster_outcome file.cluster).after ?_ ?_
    · intro m
      cases fs.opvector.fatNextCluster fs.toVolume file.cluster with
      | none => exact .served _ m
      | some cluster =>
        by_cases hmax : cluster ≥ fs.opvector.fatMaxCluster
        · simp only [if_pos hmax]
          exact .served _ m
        · simp only [if_neg hmax]
          refine (ih _ m).mono ?_
          rintro r ⟨f, hf, hsame⟩
          exact ⟨f, hf, ⟨hsame.length, hsame.entry, hsame.flag⟩⟩
    · rintro r m rfl
      exact ⟨_, m, ⟨file, rfl, SameFile.refl file⟩, rfl⟩

variable {pread : FatfsDirent → ℕ → ℕ → Prog μ PreadResult}
  {preadGiven : FatfsDirent → ℕ → ℕ → Option PreadResult}

theorem preadRest_outcome (hkeeps : KeepsFile preadGiven)
    (hpread : ∀ file count off m,
      Outcome (ReadRefused file) (pread file count off (.fresh m)) (preadGiven file count off))
    (n : ℕ) (file : FatfsDirent) (count off : ℕ) (data : List UInt8) (m : μ) :
    Outcome (ReadRefused file) (preadRest pread n file count off data (.fresh m))
      (preadRestGiven preadGiven n file count off data) := by
  induction n generalizing file count off data m with
  | zero => exact .stuck
  | succ n ih =>
    unfold preadRest preadRestGiven
    by_cases hmore : off < file.length ∧ count > 0
    · rw [if_pos hmore, if_pos hmore]
      refine Outcome.bind (hpread file count off m) ?_ ?_
      · intro r m hr
        obtain ⟨file', hr', more⟩ := r
        have hfile : SameFile file file' := hkeeps _ _ _ _ hr
        by_cases hneg : hr' = -1
        · simp only [if_pos hneg]
          exact .served _ m
        · by_cases hzero : hr' = 0
          · simp only [if_neg hneg, if_pos hzero]
            exact .served _ m
          · simp only [if_neg hneg, if_neg hzero]
            exact (ih _ _ _ _ m).mono fun r hrefused => ⟨hrefused.1, hfile.trans hrefused.2⟩
      · rintro ⟨file', hr', more⟩ m ⟨hret, hsame⟩
        obtain rfl : hr' = -1 := hret
        exact ⟨(file', -1, data ++ more), m, ⟨rfl, hsame⟩, rfl⟩
    · rw [if_neg hmore, if_neg hmore]
      exact .served _ m

theorem preadBody_outcome (hkeeps : KeepsFile preadGiven)
    (hpread : ∀ file count off m,
      Outcome (ReadRefused file) (pread file count off (.fresh m)) (preadGiven file count off))
    (n : ℕ) (file : FatfsDirent) (count off : ℕ) (m : μ) :
    Outcome (ReadRefused file) (preadBody H fs pread n file count off (.fresh m))
      (preadBodyGiven fs preadGiven n file count off) := by
  unfold preadBody preadBodyGiven
  have hrewind : SameFile file
      (if off < file.offset then { file with cluster := file.entry, offset := 0 } else file) := by
    split
    · exact ⟨rfl, rfl, rfl⟩
    · exact SameFile.refl file
  generalize (if off < file.offset then { file with cluster := file.entry, offset := 0 } else file) =
    start at hrewind
  refine @Outcome.mono _ _ (ReadRefused start) _ _ _ ?_ ?_
  swap
  · exact fun r ⟨hret, hsame⟩ => ⟨hret, hrewind.trans hsame⟩
  dsimp only
  obtain ⟨hok, -⟩ := @walkClustersGiven_sameFile fs ((off - start.offset) / fs.bytesPerCluster) start
  refine (walkClusters_outcome _ start m).after ?_ ?_
  · intro m
    cases hwalk : walkClustersGiven fs ((off - start.offset) / fs.bytesPerCluster) start with
    | error p => exact .served _ m
    | ok file' =>
      have hfile := hok file' hwalk
      refine Outcome.request (fun p m => ?_) fun m => ⟨_, m, ⟨rfl, hfile⟩, rfl⟩
      dsimp only
      rw [Allocator.release_bind]
      cases fatReadCluster fs.toVolume file'.cluster with
      | none => exact .served _ _
      | some buf =>
        refine (preadRest_outcome hkeeps hpread _ _ _ _ _ _).mono ?_
        rintro r ⟨hret, hsame⟩
        exact ⟨hret, hfile.trans hsame⟩
  · rintro r m ⟨f, rfl, hsame⟩
    exact ⟨_, m, ⟨rfl, hsame⟩, rfl⟩

theorem fatfsPread_outcome (n : ℕ) (file : FatfsDirent) (count off : ℕ) (m : μ) :
    Outcome (ReadRefused file) (fatfsPread H fs n file count off (.fresh m))
      (fatfsPreadGiven fs n file count off) := by
  induction n generalizing file count off m with
  | zero => exact .stuck
  | succ n ih =>
    unfold fatfsPread fatfsPreadGiven
    by_cases hend : ¬ isDir file.flag ∧ off > file.length
    · rw [if_pos hend, if_pos hend]
      exact .served _ m
    · rw [if_neg hend, if_neg hend]
      dsimp only
      generalize (if ¬ isDir file.flag ∧ (off + count) % 2 ^ 32 > file.length then file.length - off
        else count) = count'
      by_cases hzero : count' = 0
      · rw [if_pos hzero, if_pos hzero]
        exact .served _ m
      · rw [if_neg hzero, if_neg hzero]
        exact preadBody_outcome (fatfsPreadGiven_sameFile n) ih _ _ _ _ m

theorem fatfsRead_outcome (n : ℕ) (d : FatfsDirent) (count : ℕ) (m : μ) :
    Outcome (fun r => r.2.1 = false ∧ SameFile d r.1) (fatfsRead H fs n d count (.fresh m))
      (fatfsReadGiven fs n d count) := by
  refine (fatfsPread_outcome n d count d.lseek m).bind (fun r m _ => .served _ m) ?_
  rintro ⟨d', ret, data⟩ m ⟨hret, hsame⟩
  obtain rfl : ret = -1 := hret
  exact ⟨_, m, ⟨rfl, hsame⟩, rfl⟩

/-- The position that `fatfs_root_dir_read` looks at. -/
theorem fatfsRootDirRead_outcome (v : Volume) (d : FatfsDirent) (m : μ) :
    Outcome (fun r => r.2 = .fail ∧ SameFile d r.1) (fatfsRootDirRead H v d (.fresh m))
      (some (fatfsRootDirReadGiven v d)) := by
  unfold fatfsRootDirRead fatfsRootDirReadGiven
  dsimp only
  by_cases hend : d.lseek / 32 ≥ v.rootEntries
  · rw [if_pos hend, if_pos hend]
    exact .served _ m
  · rw [if_neg hend, if_neg hend]
    have hstep := sameFile_rootSeek v d
    refine Outcome.request (fun p m => ?_) fun m => ⟨_, m, ⟨rfl, hstep⟩, rfl⟩
    dsimp only
    cases fatReadSector v _ with
    | none => exact .served _ _
    | some buf => exact .served _ m

theorem fatfsDirRead_outcome (n : ℕ) (old : List UInt8) (d : FatfsDirent) (count : ℕ) (m : μ) :
    Outcome (fun r => r.2 = .fail ∧ SameFile d r.1) (fatfsDirRead H fs n old d count (.fresh m))
      (fatfsDirReadGiven fs n old d count) := by
  unfold fatfsDirRead fatfsDirReadGiven
  by_cases hcount : count = 0
  · rw [if_pos hcount, if_pos hcount]
    exact .served _ m
  rw [if_neg hcount, if_neg hcount]
  by_cases hroot : d.flag &&& 0xFF00 ≠ 0
  · rw [if_pos hroot, if_pos hroot]
    exact fatfsRootDirRead_outcome fs.toVolume d m
  rw [if_neg hroot, if_neg hroot]
  by_cases hdir : ¬ isDir d.flag
  · rw [if_pos hdir, if_pos hdir]
    exact .served _ m
  rw [if_neg hdir, if_neg hdir]
  refine (fatfsPread_outcome n d 32 d.lseek m).bind ?_ ?_
  · intro r m _
    obtain ⟨d', ret, data⟩ := r
    by_cases hret : ret = -1
    · simp only [if_pos hret]
      exact .served _ m
    · simp only [if_neg hret]
      split
      · exact .served _ m
      · exact .served _ m
  · rintro ⟨d', ret, data⟩ m ⟨hret, hsame⟩
    obtain rfl : ret = -1 := hret
    exact ⟨(d', .fail), m, ⟨rfl, hsame⟩, rfl⟩

/-! ### Looking a name up -/

theorem fatfsRoot_outcome (v : Volume) (name : List UInt8) (m : μ) :
    Outcome (· = none) (fatfsRoot H v name (.fresh m)) (some (fatfsRootGiven v name)) := by
  unfold fatfsRoot
  refine Outcome.request (fun p m => ?_) fun m => ⟨none, m, rfl, rfl⟩
  refine Outcome.request (fun q m => ?_) fun m => ⟨none, m, rfl, rfl⟩
  cases fatfsRootGiven v name with
  | none => exact .served _ _
  | some found => exact .served _ _

theorem lookupRound_outcome (name : List UInt8) (buf c : ℕ) (m : μ) :
    Outcome (· = .done none) (lookupRound H fs name buf c (.fresh m))
      (some (lookupRoundGiven fs name c)) := by
  unfold lookupRound lookupRoundGiven
  by_cases hmax : c < fs.opvector.fatMaxCluster
  · rw [if_pos hmax, if_pos hmax]
    cases fatReadCluster fs.toVolume c with
    | none => exact .served _ _
    | some bytes =>
      cases hfind : fatDirentLookup bytes (fs.bytesPerCluster / 32) name with
      | some e =>
        simp only [hfind]
        exact Outcome.request (fun p m => .served _ _) fun m => ⟨_, m, rfl, rfl⟩
      | none =>
        simp only [hfind]
        refine (fatNextCluster_outcome c).after ?_ ?_
        · intro m
          cases fs.opvector.fatNextCluster fs.toVolume c with
          | none => exact .served _ _
          | some cluster => exact .served _ m
        · rintro r m rfl
          exact ⟨_, _, rfl, rfl⟩
  · rw [if_neg hmax, if_neg hmax]
    exact .served _ _

theorem lookupRounds_outcome (name : List UInt8) (buf n c : ℕ) (m : μ) :
    Outcome (· = .done none) (lookupRounds H fs name buf n c (.fresh m))
      (some (lookupRoundsGiven fs name n c)) := by
  induction n generalizing c m with
  | zero => exact .served _ m
  | succ n ih =>
    unfold lookupRounds lookupRoundsGiven
    refine (lookupRound_outcome name buf c m).after ?_ ?_
    · intro m
      cases lookupRoundGiven fs name c with
      | walking c' => exact ih c' m
      | done found => exact .served _ m
    · rintro r m rfl
      exact ⟨_, m, rfl, rfl⟩

theorem fatfsLookup_outcome (n : ℕ) (d : FatfsDirent) (name : List UInt8) (m : μ) :
    Outcome (· = none) (fatfsLookup H fs n d name (.fresh m)) (fatfsLookupGiven fs n d name) := by
  unfold fatfsLookup fatfsLookupGiven
  refine Outcome.request (fun buf m => ?_) fun m => ⟨none, m, rfl, rfl⟩
  dsimp only
  by_cases hroot : d.flag &&& 0xFF00 ≠ 0
  · rw [if_pos hroot, if_pos hroot]
    exact fatfsRoot_outcome fs.toVolume name m
  rw [if_neg hroot, if_neg hroot]
  by_cases hdir : ¬ isDir d.flag
  · rw [if_pos hdir, if_pos hdir]
    exact .served _ m
  rw [if_neg hdir, if_neg hdir]
  refine (lookupRounds_outcome name buf n d.entry m).after ?_ ?_
  · intro m
    cases lookupRoundsGiven fs name n d.entry with
    | walking c => exact .stuck
    | done found => exact .served _ m
  · rintro r m rfl
    exact ⟨none, m, rfl, rfl⟩

end Outcomes

end YakOS
