import YakOS.Fs.Clip
import YakOS.Fs.Layout

/-!
# The bytes a read stores

`vfs_read` on a node of a FAT volume, with what it stores in the caller's buffer and what it reports.  A
regular file is read by `fatfs_pread`, which cuts the count.  The two directory reads compare the count with
zero only: a subdirectory stores the 32 bytes of an entry and then its name, the root directory the name
alone.  A deleted or long-name entry of the root directory is skipped: nothing is stored, and `-1` is
reported, which is larger than any buffer.

## Main definitions

* `ReadCall` — what a call leaves behind.
* `fatfsReadStores`, `rootDirReadStores`, `fatfsDirReadStores`, `vfsReadStores` — the code.
* `ReadBounded` — the bounds.
* `ReadFits` — the condition under which they hold.

## Main results

* `fatfsRootDirReadGiven_cases` — what a read of the root directory does with the entry it finds.
* `vfs_read_bounded_iff` — **every read ends, and keeps the bounds exactly under the condition.**
-/

namespace YakOS

open Bytes Vfs

/-! ### The code -/

/-- What a call of `vfs_read` leaves behind: the dirent, what `*ready` holds if it returns 0, and the bytes
stored from the start of the caller's buffer on. -/
structure ReadCall where
  file : FatfsDirent
  ready : Option ℕ
  stored : List UInt8

/-- `fatfs_read`. -/
def fatfsReadStores (fs : FatfsPriv) (slack : ℕ → UInt8) (n : ℕ) (d : FatfsDirent) (count : ℕ) :
    Option ReadCall := do
  let (d, ret, data) ← fatfsPreadStores fs slack n d count d.lseek
  return if ret = minusOne then ⟨d, none, data⟩
    else ⟨{ d with lseek := (d.lseek + ret) % 2 ^ 32 }, some ret, data⟩

/-- `fatfs_root_dir_read`: a name is stored with its NUL. -/
def rootDirReadStores (v : Volume) (d : FatfsDirent) : ReadCall :=
  match fatfsRootDirReadGiven v d with
  | (d, .fail) => ⟨d, none, []⟩
  | (d, .skip) => ⟨d, some minusOne, []⟩
  | (d, .name bs) => ⟨d, some (bs.length + 1), bs ++ [0]⟩

/-- `fatfs_dir_read`: the name is stored over the entry that was read. -/
def fatfsDirReadStores (fs : FatfsPriv) (slack : ℕ → UInt8) (n : ℕ) (old : List UInt8) (d : FatfsDirent)
    (count : ℕ) : Option ReadCall :=
  if count = 0 then some ⟨d, none, []⟩
  else if d.flag &&& 0xFF00 ≠ 0 then some (rootDirReadStores fs.toVolume d)
  else if ¬ isDir d.flag then some ⟨d, none, []⟩
  else do
    let (d, ret, data) ← fatfsPreadStores fs slack n d 32 d.lseek
    if ret = minusOne then return ⟨d, none, data⟩
    let d := { d with lseek := (d.lseek + ret) % 2 ^ 32 }
    let dent := direntAt (data ++ old.drop data.length) 0
    if 0 < direntTrim dent.name 8 then
      let name := name83 dent ++ [0]
      return ⟨d, some name.length, name ++ data.drop name.length⟩
    else return ⟨d, none, data⟩

/-- `vfs_read`, with the `read` operation of the node. -/
def vfsReadStores (fs : FatfsPriv) (slack : ℕ → UInt8) (n : ℕ) (vops : FatVops) (old : List UInt8)
    (d : FatfsDirent) (count : ℕ) : Option ReadCall :=
  match vops with
  | .file => fatfsReadStores fs slack n d count
  | .dir => fatfsDirReadStores fs slack n old d count

/-! ### The entries of the root directory -/

/-- The entry that a read of the root directory finds. -/
def entryFound (v : Volume) (d : FatfsDirent) : Option FatEntry :=
  if d.lseek / 32 ≥ v.rootEntries then none
  else
    let offset := if d.lseek > (d.offset + 1) * v.bytesPerSector % 2 ^ 32
      then (d.offset + 1) % 2 ^ 32 else d.offset
    (fatReadSector v ((rootSector v + offset) % 2 ^ 32)).map fun buf =>
      direntAt buf (d.lseek / 32 % (v.bytesPerSector / 32))

/-- An entry that is skipped. -/
def FatEntry.Skipped (e : FatEntry) : Prop := ¬ e.isZero ∧ (e.isDeleted || e.isLongName)

/-- An entry whose name is reported. -/
def FatEntry.Named (e : FatEntry) : Prop :=
  ¬ e.isZero ∧ ¬ (e.isDeleted || e.isLongName) ∧ 0 < direntTrim e.name 8

/-- A read of the root directory does with the entry what it has to, and fails for any other. -/
theorem fatfsRootDirReadGiven_cases (v : Volume) (d : FatfsDirent) :
    (∃ e, entryFound v d = some e ∧ e.Skipped ∧ (fatfsRootDirReadGiven v d).2 = .skip) ∨
    (∃ e, entryFound v d = some e ∧ e.Named ∧ (fatfsRootDirReadGiven v d).2 = .name (name83 e)) ∨
    (∀ e, entryFound v d = some e → ¬ e.Skipped ∧ ¬ e.Named) ∧ (fatfsRootDirReadGiven v d).2 = .fail := by
  unfold fatfsRootDirReadGiven rootSeek rootDirEntry entryFound
  dsimp only
  by_cases hend : d.lseek / 32 ≥ v.rootEntries
  · rw [if_pos hend, if_pos hend]
    exact Or.inr (Or.inr ⟨fun e he => (by cases he), rfl⟩)
  rw [if_neg hend, if_neg hend]
  have hoffset : (if d.lseek > (d.offset + 1) * v.bytesPerSector % 2 ^ 32
      then { d with offset := (d.offset + 1) % 2 ^ 32 } else d).offset =
      if d.lseek > (d.offset + 1) * v.bytesPerSector % 2 ^ 32 then (d.offset + 1) % 2 ^ 32
        else d.offset := by
    split <;> rfl
  rw [hoffset]
  generalize (if d.lseek > (d.offset + 1) * v.bytesPerSector % 2 ^ 32
    then { d with offset := (d.offset + 1) % 2 ^ 32 } else d) = d'
  cases fatReadSector v _ with
  | none => exact Or.inr (Or.inr ⟨fun e he => (by cases he), rfl⟩)
  | some buf =>
    dsimp only
    rw [Option.map_some]
    generalize direntAt buf (d.lseek / 32 % (v.bytesPerSector / 32)) = e
    by_cases hzero : e.isZero
    · rw [if_pos hzero]
      refine Or.inr (Or.inr ⟨?_, rfl⟩)
      rintro e' he'
      obtain rfl := Option.some.inj he'
      exact ⟨fun h => h.1 hzero, fun h => h.1 hzero⟩
    rw [if_neg hzero]
    by_cases hskip : (e.isDeleted || e.isLongName) = true
    · rw [if_pos hskip]
      exact Or.inl ⟨e, rfl, ⟨hzero, hskip⟩, rfl⟩
    rw [if_neg hskip]
    by_cases hname : 0 < direntTrim e.name 8
    · rw [if_pos hname]
      exact Or.inr (Or.inl ⟨e, rfl, ⟨hzero, hskip, hname⟩, rfl⟩)
    · rw [if_neg hname]
      refine Or.inr (Or.inr ⟨?_, rfl⟩)
      rintro e' he'
      obtain rfl := Option.some.inj he'
      exact ⟨fun h => hskip h.2, fun h => hname h.2.2⟩

/-! ### The bounds -/

/-- A read stores at most the count, and no more than what is left of a regular file, and it reports at most
the count. -/
structure ReadBounded (vops : FatVops) (d : FatfsDirent) (count : ℕ) (r : ReadCall) : Prop where
  stored : r.stored.length ≤ count
  clipped : vops = .file → r.stored.length ≤ d.length - d.lseek
  ready : ∀ k, r.ready = some k → k ≤ count

/-- The name of an entry, if it has one, and its NUL fit the count. -/
def FatEntry.Fits (e : FatEntry) (count : ℕ) : Prop :=
  0 < direntTrim e.name 8 → (name83 e).length + 1 ≤ count

/-- What a read of the root directory reports of an entry is within the count: a name that fits; for a skipped
entry, only a count of `2 ^ 32 - 1` is. -/
def FatEntry.FitsRoot (e : FatEntry) (count : ℕ) : Prop :=
  (e.Skipped → minusOne ≤ count) ∧ (e.Named → e.Fits count)

/-- For a subdirectory: the bytes of the entry, up to 32, fit the count, and so does the name that is then
found in the buffer, unless the read fails. -/
def SubdirFits (fs : FatfsPriv) (n : ℕ) (old : List UInt8) (d : FatfsDirent) (count : ℕ) : Prop :=
  ∀ r, fatfsPreadGiven fs n d 32 d.lseek = some r → r.2.2.length ≤ count ∧
    (r.2.1 ≠ -1 → (direntAt (r.2.2 ++ old.drop r.2.2.length) 0).Fits count)

/-- The condition under which a read keeps the bounds. -/
def ReadFits (fs : FatfsPriv) (n : ℕ) (vops : FatVops) (old : List UInt8) (d : FatfsDirent) (count : ℕ) :
    Prop :=
  match vops with
  | .file =>
    d.length < d.lseek ∨ d.lseek + count < 2 ^ 32 ∨ ClipRight fs (rewind d d.lseek) count d.lseek
  | .dir =>
    count = 0 ∨
      if d.flag &&& 0xFF00 ≠ 0 then ∀ e, entryFound fs.toVolume d = some e → e.FitsRoot count
      else isDir d.flag → SubdirFits fs n old d count

section Bounds

variable {fs : FatfsPriv} {d : FatfsDirent} {count n : ℕ}

/-- A regular file. -/
theorem fatfsReadStores_bounded (slack : ℕ → UInt8) (old : List UInt8) (hfile : isDir d.flag = false)
    (hlength : d.length < 2 ^ 32) (hlseek : d.lseek < 2 ^ 32) (hcount : count < 2 ^ 32) (hn : count < n) :
    ∃ r, fatfsReadStores fs slack n d count = some r ∧
      (ReadBounded .file d count r ↔ ReadFits fs n .file old d count) := by
  obtain ⟨⟨file, ret, data⟩, hrun, hok, hclip⟩ :=
    fatfsPreadStores_clip_iff fs slack hfile hlength hlseek hcount hn
  have hle : data.length ≤ count := hok.le
  dsimp only at hclip
  unfold fatfsReadStores
  rw [hrun]
  simp only [Option.bind_eq_bind, Option.bind_some, Option.pure_def]
  refine ⟨_, rfl, ?_⟩
  unfold ReadFits
  rw [← hclip]
  have hstored : (if ret = minusOne then ReadCall.mk file none data
      else ⟨{ file with lseek := (file.lseek + ret) % 2 ^ 32 }, some ret, data⟩).stored = data := by
    split <;> rfl
  constructor
  · intro h
    exact hstored ▸ h.clipped rfl
  · intro h
    refine ⟨hstored.symm ▸ hle, fun _ => hstored.symm ▸ h, ?_⟩
    intro k hk
    split at hk
    · cases hk
    next hret =>
      obtain rfl := Option.some.inj hk
      have hlen : ret = data.length := hok.ret.resolve_left hret
      rwa [hlen]

/-- A directory has no bytes past its end. -/
theorem ReadBounded.of_dir {r : ReadCall} (hstored : r.stored.length ≤ count)
    (hready : ∀ k, r.ready = some k → k ≤ count) : ReadBounded .dir d count r where
  stored := hstored
  clipped := fun h => by cases h
  ready := hready

/-- A directory read that fails is bounded when what it has stored is. -/
theorem ReadBounded.of_failed {r : ReadCall} (hstored : r.stored.length ≤ count) (hready : r.ready = none) :
    ReadBounded .dir d count r :=
  .of_dir hstored fun k hk => by cases hready.symm.trans hk

/-- The root directory. -/
theorem rootDirReadStores_bounded (fs : FatfsPriv) :
    ReadBounded .dir d count (rootDirReadStores fs.toVolume d) ↔
      ∀ e, entryFound fs.toVolume d = some e → e.FitsRoot count := by
  have hcases := fatfsRootDirReadGiven_cases fs.toVolume d
  unfold rootDirReadStores
  generalize fatfsRootDirReadGiven fs.toVolume d = call at hcases
  obtain ⟨d', res⟩ := call
  dsimp only at hcases
  rcases hcases with ⟨e, he, hskip, rfl⟩ | ⟨e, he, hname, rfl⟩ | ⟨hnone, rfl⟩
  · constructor
    · intro h e' he'
      obtain rfl := Option.some.inj (he.symm.trans he')
      exact ⟨fun _ => h.ready minusOne rfl, fun hname => absurd hskip.2 hname.2.1⟩
    · intro h
      refine .of_dir (Nat.zero_le _) ?_
      intro k hk
      obtain rfl := Option.some.inj hk
      exact (h e he).1 hskip
  · constructor
    · intro h e' he'
      obtain rfl := Option.some.inj (he.symm.trans he')
      refine ⟨fun hskip => absurd hskip.2 hname.2.1, fun _ _ => ?_⟩
      have hstored := h.stored
      rwa [List.length_append, List.length_singleton] at hstored
    · intro h
      have hfits : (name83 e).length + 1 ≤ count := (h e he).2 hname hname.2.2
      refine .of_dir (by rwa [List.length_append, List.length_singleton]) ?_
      intro k hk
      obtain rfl := Option.some.inj hk
      exact hfits
  · refine iff_of_true (.of_failed (Nat.zero_le _) rfl) ?_
    intro e he
    exact ⟨fun hskip => absurd hskip (hnone e he).1, fun hname => absurd hname (hnone e he).2⟩

/-- A directory. -/
theorem fatfsDirReadStores_bounded (slack : ℕ → UInt8) (old : List UInt8) (hlseek : d.lseek < 2 ^ 32)
    (hn : 32 < n) : ∃ r, fatfsDirReadStores fs slack n old d count = some r ∧
      (ReadBounded .dir d count r ↔ ReadFits fs n .dir old d count) := by
  unfold fatfsDirReadStores ReadFits
  by_cases hzero : count = 0
  · rw [if_pos hzero]
    exact ⟨_, rfl, iff_of_true (.of_failed (Nat.zero_le _) rfl) (Or.inl hzero)⟩
  rw [if_neg hzero, or_iff_right hzero]
  by_cases hroot : d.flag &&& 0xFF00 ≠ 0
  · rw [if_pos hroot, if_pos hroot]
    exact ⟨_, rfl, rootDirReadStores_bounded fs⟩
  rw [if_neg hroot, if_neg hroot]
  by_cases hdir : isDir d.flag
  · rw [if_neg (not_not.mpr hdir), forall_prop_of_true hdir]
    obtain ⟨⟨file, ret, data⟩, hpread, hstores, hret, hle⟩ :=
      fatfsPreadStores_eq fs slack d hn (by decide : 32 < 2 ^ 31) hlseek
    dsimp only at hret hle
    have hfits : SubdirFits fs n old d count ↔ data.length ≤ count ∧
        (ret ≠ -1 → (direntAt (data ++ old.drop data.length) 0).Fits count) := by
      unfold SubdirFits
      rw [hpread]
      constructor
      · exact fun h => h _ rfl
      · rintro h r hr
        obtain rfl := Option.some.inj hr
        exact h
    rw [hstores, hfits]
    simp only [Option.bind_eq_bind, Option.bind_some, Option.pure_def, toStores]
    by_cases hfail : ret = -1
    · rw [if_pos hfail, if_pos rfl]
      refine ⟨_, rfl, ?_⟩
      constructor
      · exact fun h => ⟨h.stored, fun hne => absurd hfail hne⟩
      · exact fun h => .of_failed h.1 rfl
    obtain rfl := hret.resolve_left hfail
    rw [if_neg hfail, if_neg (toNat_ne_minusOne (by omega))]
    generalize direntAt (data ++ old.drop data.length) 0 = e
    unfold FatEntry.Fits
    by_cases hname : 0 < direntTrim e.name 8
    · rw [if_pos hname]
      refine ⟨_, rfl, ?_⟩
      have hlen : (name83 e ++ [0]).length = (name83 e).length + 1 := by
        rw [List.length_append, List.length_singleton]
      constructor
      · intro h
        have hstored := h.stored
        rw [List.length_append, List.length_drop, hlen] at hstored
        exact ⟨by omega, fun _ _ => by omega⟩
      · rintro ⟨hdata, hfit⟩
        have hfit := hfit hfail hname
        refine .of_dir ?_ ?_
        · rw [List.length_append, List.length_drop, hlen]
          omega
        · intro k hk
          obtain rfl := Option.some.inj hk
          rwa [hlen]
    · rw [if_neg hname]
      refine ⟨_, rfl, ?_⟩
      constructor
      · exact fun h => ⟨h.stored, fun _ hpos => absurd hpos hname⟩
      · exact fun h => .of_failed h.1 rfl
  · rw [if_pos hdir]
    exact ⟨_, rfl, iff_of_true (.of_failed (Nat.zero_le _) rfl) fun h => absurd h hdir⟩

/-- **The bounds of a read.**  For every node of a FAT volume, whatever its position, and every count,
`vfs_read` ends, and it keeps the bounds exactly under the condition. -/
theorem vfs_read_bounded_iff (fs : FatfsPriv) (slack : ℕ → UInt8) (vops : FatVops) (old : List UInt8)
    (d : FatfsDirent) (count n : ℕ) (hfile : vops = .file → isDir d.flag = false)
    (hlength : d.length < 2 ^ 32) (hlseek : d.lseek < 2 ^ 32) (hcount : count < 2 ^ 32)
    (hn : max count 32 < n) :
    ∃ r, vfsReadStores fs slack n vops old d count = some r ∧
      (ReadBounded vops d count r ↔ ReadFits fs n vops old d count) := by
  cases vops with
  | file => exact fatfsReadStores_bounded slack old (hfile rfl) hlength hlseek hcount (by omega)
  | dir => exact fatfsDirReadStores_bounded slack old hlseek (by omega)

end Bounds

/-- A file of 600 bytes, of which 100 are read. -/
theorem vfs_read_bounded_iff_demo :
    ∃ r, vfsReadStores demoFs (fun _ => 0) 101 .file [] demoFile 100 = some r ∧
      ReadBounded .file demoFile 100 r := by
  obtain ⟨r, hr, hiff⟩ := vfs_read_bounded_iff demoFs (fun _ => 0) .file [] demoFile 100 101
    (fun _ => by decide) (by decide) (by decide) (by decide) (by decide)
  exact ⟨r, hr, hiff.mpr (Or.inr (Or.inl (by decide)))⟩

/-- A volume with a root directory of deleted entries. -/
def deletedFs : FatfsPriv := { demoFs with image := fun _ => 0xE5, rootEntries := 16 }

/-- A read of one byte of a subdirectory stores 32, and a deleted entry of the root directory, read with a
buffer of 1024 bytes, is reported by `-1`. -/
theorem dir_reads_unbounded :
    (∃ r, vfsReadStores demoFs (fun _ => 0) 33 .dir [] (mountRoot (some 2)) 1 = some r ∧
      ¬ ReadBounded .dir (mountRoot (some 2)) 1 r) ∧
    ∃ r, vfsReadStores deletedFs (fun _ => 0) 1025 .dir [] (mountRoot none) 1024 = some r ∧
      ¬ ReadBounded .dir (mountRoot none) 1024 r := by
  constructor
  · have hstored : (vfsReadStores demoFs (fun _ => 0) 33 .dir [] (mountRoot (some 2)) 1).map
        (fun r => r.stored.length) = some 32 := by decide +kernel
    obtain ⟨r, hr, hlen⟩ := Option.map_eq_some_iff.mp hstored
    refine ⟨r, hr, fun h => ?_⟩
    have hle := h.stored
    omega
  · have hready : (vfsReadStores deletedFs (fun _ => 0) 1025 .dir [] (mountRoot none) 1024).map
        ReadCall.ready = some (some minusOne) := by decide +kernel
    obtain ⟨r, hr, hminus⟩ := Option.map_eq_some_iff.mp hready
    exact ⟨r, hr, fun h => absurd (h.ready minusOne hminus) (by decide)⟩

end YakOS
