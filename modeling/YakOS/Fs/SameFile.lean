import YakOS.Fs.Dir

/-!
# Reading moves the position

A read of a file or of a directory moves the position that its `fatfs_dirent` keeps, and
leaves the file that it is of.

## Main definitions

* `SameFile` — two dirents of one file.

## Main results

* `fatfsReadGiven_sameFile`, `fatfsDirReadGiven_sameFile` — **reading moves the position,
  nothing else.**
-/

namespace YakOS

/-- Two dirents of one file: only the position may differ. -/
structure SameFile (d d' : FatfsDirent) : Prop where
  length : d'.length = d.length
  entry : d'.entry = d.entry
  flag : d'.flag = d.flag

theorem SameFile.refl (d : FatfsDirent) : SameFile d d := ⟨rfl, rfl, rfl⟩

theorem SameFile.symm {d d' : FatfsDirent} (h : SameFile d d') : SameFile d' d :=
  ⟨h.length.symm, h.entry.symm, h.flag.symm⟩

theorem SameFile.trans {d d' d'' : FatfsDirent} (h : SameFile d d') (h' : SameFile d' d'') :
    SameFile d d'' :=
  ⟨h'.length.trans h.length, h'.entry.trans h.entry, h'.flag.trans h.flag⟩

theorem sameFile_fatfsOpen (d : FatfsDirent) : SameFile d (fatfsOpen d) := ⟨rfl, rfl, rfl⟩

/-- Opening sets all of the position. -/
theorem SameFile.fatfsOpen_eq {d d' : FatfsDirent} (h : SameFile d d') :
    fatfsOpen d' = fatfsOpen d := by
  unfold fatfsOpen
  rw [h.length, h.entry, h.flag]

section Reading

variable {fs : FatfsPriv}

/-- The walk along the chain keeps the file, whether it gets to its end or not. -/
theorem walkClustersGiven_sameFile (n : ℕ) (file : FatfsDirent) :
    (∀ file', walkClustersGiven fs n file = .ok file' → SameFile file file') ∧
      ∀ file' ret, walkClustersGiven fs n file = .error (file', ret) → SameFile file file' := by
  induction n generalizing file with
  | zero =>
    constructor
    · intro file' h
      obtain rfl := Except.ok.inj h
      exact SameFile.refl file
    · intro file' ret h
      cases h
  | succ n ih =>
    unfold walkClustersGiven
    split
    · refine ⟨fun file' h => (by cases h), ?_⟩
      intro file' ret h
      cases h
      exact SameFile.refl file
    · rename_i cluster _
      split
      · refine ⟨fun file' h => (by cases h), ?_⟩
        intro file' ret h
        cases h
        exact SameFile.refl file
      · have hmove : SameFile file
            { file with
              offset := (file.offset + fs.bytesPerCluster) % 2 ^ 32
              cluster := cluster } := ⟨rfl, rfl, rfl⟩
        obtain ⟨hok, herror⟩ := ih
          { file with
            offset := (file.offset + fs.bytesPerCluster) % 2 ^ 32
            cluster := cluster }
        exact ⟨fun file' h => hmove.trans (hok file' h),
          fun file' ret h => hmove.trans (herror file' ret h)⟩

/-- A call that keeps the file. -/
def KeepsFile (pread : FatfsDirent → ℕ → ℕ → Option PreadResult) : Prop :=
  ∀ file count off r, pread file count off = some r → SameFile file r.1

theorem preadRestGiven_sameFile {pread : FatfsDirent → ℕ → ℕ → Option PreadResult} (h : KeepsFile pread)
    {n : ℕ} {file : FatfsDirent} {count off : ℕ} {data : List UInt8} {r : PreadResult}
    (hr : preadRestGiven pread n file count off data = some r) : SameFile file r.1 := by
  induction n generalizing file count off data with
  | zero => cases hr
  | succ n ih =>
    unfold preadRestGiven at hr
    split at hr
    · obtain ⟨⟨file', ret, more⟩, hcall, hr⟩ := Option.bind_eq_some_iff.mp hr
      have hfile : SameFile file file' := h _ _ _ _ hcall
      simp only at hr
      split at hr
      · obtain rfl := Option.some.inj hr
        exact hfile
      · split at hr
        · obtain rfl := Option.some.inj hr
          exact hfile
        · exact hfile.trans (ih hr)
    · obtain rfl := Option.some.inj hr
      exact SameFile.refl file

theorem preadBodyGiven_sameFile {pread : FatfsDirent → ℕ → ℕ → Option PreadResult} (h : KeepsFile pread)
    {n : ℕ} {file : FatfsDirent} {count off : ℕ} {r : PreadResult}
    (hr : preadBodyGiven fs pread n file count off = some r) : SameFile file r.1 := by
  unfold preadBodyGiven at hr
  simp only at hr
  have hrewind : SameFile file
      (if off < file.offset then { file with cluster := file.entry, offset := 0 } else file) := by
    split
    · exact ⟨rfl, rfl, rfl⟩
    · exact SameFile.refl file
  generalize (if off < file.offset then { file with cluster := file.entry, offset := 0 } else file) =
    start at *
  refine hrewind.trans ?_
  obtain ⟨hok, herror⟩ := @walkClustersGiven_sameFile fs
    ((off - start.offset) / fs.bytesPerCluster) start
  split at hr
  · rename_i file' ret heq
    obtain rfl := Option.some.inj hr
    exact herror file' ret heq
  · rename_i file' heq
    refine (hok file' heq).trans ?_
    split at hr
    · obtain rfl := Option.some.inj hr
      exact SameFile.refl file'
    · exact preadRestGiven_sameFile h hr

/-- `fatfs_pread` moves the cursor. -/
theorem fatfsPreadGiven_sameFile (n : ℕ) : KeepsFile (fatfsPreadGiven fs n) := by
  induction n with
  | zero => exact fun _ _ _ _ h => by cases h
  | succ n ih =>
    intro file count off r hr
    unfold fatfsPreadGiven at hr
    split at hr
    · obtain rfl := Option.some.inj hr
      exact SameFile.refl file
    · simp only at hr
      generalize (if ¬ isDir file.flag ∧ (off + count) % 2 ^ 32 > file.length then file.length - off
        else count) = count' at hr
      split at hr
      · obtain rfl := Option.some.inj hr
        exact SameFile.refl file
      · exact preadBodyGiven_sameFile ih hr

theorem fatfsReadGiven_sameFile {n count : ℕ} {d : FatfsDirent} {r : FatfsDirent × Bool × List UInt8}
    (hr : fatfsReadGiven fs n d count = some r) : SameFile d r.1 := by
  obtain ⟨⟨d', ret, data⟩, hcall, hr⟩ := Option.bind_eq_some_iff.mp hr
  have hd : SameFile d d' := fatfsPreadGiven_sameFile n _ _ _ _ hcall
  simp only at hr
  split at hr
  · obtain rfl := Option.some.inj hr
    exact hd
  · obtain rfl := Option.some.inj hr
    exact hd.trans ⟨rfl, rfl, rfl⟩

theorem sameFile_rootSeek (v : Volume) (d : FatfsDirent) : SameFile d (rootSeek v d) := by
  unfold rootSeek
  split
  · exact ⟨rfl, rfl, rfl⟩
  · exact SameFile.refl d

theorem sameFile_rootDirEntry (d : FatfsDirent) (e : FatEntry) : SameFile d (rootDirEntry d e).1 := by
  unfold rootDirEntry
  split
  · exact SameFile.refl d
  · split
    · exact ⟨rfl, rfl, rfl⟩
    · split
      · exact ⟨rfl, rfl, rfl⟩
      · exact SameFile.refl d

theorem fatfsRootDirReadGiven_sameFile (v : Volume) (d : FatfsDirent) :
    SameFile d (fatfsRootDirReadGiven v d).1 := by
  unfold fatfsRootDirReadGiven
  simp only
  split
  · exact SameFile.refl d
  · refine (sameFile_rootSeek v d).trans ?_
    split
    · exact SameFile.refl _
    · exact sameFile_rootDirEntry _ _

theorem fatfsDirReadGiven_sameFile {n count : ℕ} {old : List UInt8} {d : FatfsDirent}
    {r : FatfsDirent × DirRead} (hr : fatfsDirReadGiven fs n old d count = some r) : SameFile d r.1 := by
  unfold fatfsDirReadGiven at hr
  split at hr
  · obtain rfl := Option.some.inj hr
    exact SameFile.refl d
  · split at hr
    · obtain rfl := Option.some.inj hr
      exact fatfsRootDirReadGiven_sameFile fs.toVolume d
    · split at hr
      · obtain rfl := Option.some.inj hr
        exact SameFile.refl d
      · obtain ⟨⟨d', ret, data⟩, hcall, hr⟩ := Option.bind_eq_some_iff.mp hr
        have hd : SameFile d d' := fatfsPreadGiven_sameFile n _ _ _ _ hcall
        simp only at hr
        split at hr
        · obtain rfl := Option.some.inj hr
          exact hd
        · split at hr
          · obtain rfl := Option.some.inj hr
            exact hd.trans ⟨rfl, rfl, rfl⟩
          · obtain rfl := Option.some.inj hr
            exact hd.trans ⟨rfl, rfl, rfl⟩

/-- What a lookup finds does not depend on a position. -/
theorem SameFile.fatfsLookupGiven_eq {d d' : FatfsDirent} (h : SameFile d d') (n : ℕ) (name : List UInt8) :
    fatfsLookupGiven fs n d' name = fatfsLookupGiven fs n d name := by
  unfold fatfsLookupGiven
  rw [h.flag, h.entry]

end Reading

end YakOS
