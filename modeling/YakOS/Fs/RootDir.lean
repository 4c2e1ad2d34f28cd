import YakOS.Fs.Memory

/-!
# Listing the root directory

The root directory of a FAT12 or FAT16 volume is read one entry at a time.  The
position is kept twice: `lseek` counts 32 bytes for each entry passed, and `offset`
counts the sectors, advanced when `lseek` is *beyond* the end of the sector.  The
first entry of the next sector is at the end of the sector, not beyond it, so that
in its place the first entry of the sector before is read once more.

## Main definitions

* `rootEntry`, `rootDir` — the entries of the root directory, in the order on disk.
* `liveNames` — the names that a listing should yield.
* `listDir` — calling `fatfs_dir_read` until it returns `-1`.
* `EndsInFirstSector` — the condition under which the listing reads the entries on disk.
* `liveSpan` — the number of buffers it needs.

## Main results

* `fatfsRootDirRead_rootAt` — one call, up to the first entry of the second sector.
* `root_listing` — **a root directory that ends in its first sector is listed correctly exactly
  when there is a buffer for each entry up to the last live one**; one that does not, whose
  first entry is live and where no name occurs twice, is not.
-/

namespace YakOS

open Bytes
open Allocator (Prog)

/-! ### The directory on disk -/

/-- The number of entries in a sector. -/
def Volume.entriesPerSector (v : Volume) : ℕ := v.bytesPerSector / 32

/-- The `i`-th entry of the root directory. -/
def rootEntry (v : Volume) (i : ℕ) : FatEntry :=
  direntAt (read v.byteAt ((rootSector v + i / v.entriesPerSector) % 2 ^ 32 * v.bytesPerSector)
    v.bytesPerSector) (i % v.entriesPerSector)

/-- The entries of the root directory, in the order on disk. -/
def rootDir (v : Volume) : List FatEntry := (List.range v.rootEntries).map (rootEntry v)

/-- An entry that is neither deleted nor part of a long name. -/
def FatEntry.isLive (e : FatEntry) : Bool := !(e.isDeleted || e.isLongName)

/-- The entries before the end marker. -/
def beforeEnd (es : List FatEntry) : List FatEntry := es.takeWhile fun e => !e.isZero

/-- The names of the live entries before the end marker. -/
def liveNames (es : List FatEntry) : List (List UInt8) :=
  ((beforeEnd es).filter FatEntry.isLive).map name83

/-- No live entry before the end marker has a blank name. -/
def NonBlank (es : List FatEntry) : Prop :=
  ∀ e ∈ beforeEnd es, e.isLive = true → 0 < direntTrim e.name 8

/-- The root directory has no entry beyond its first sector, or the end marker is in it. -/
def EndsInFirstSector (v : Volume) : Prop :=
  v.rootEntries ≤ v.entriesPerSector ∨ ∃ i < v.entriesPerSector, (rootEntry v i).isZero = true

/-! ### The listing -/

/-- The results of calling `fatfs_dir_read` until it returns `-1`, if at most `n` calls do;
`old` is what the caller's buffer holds. -/
def listDir {μ : Type} (H : Allocator μ) (fs : FatfsPriv) (old : List UInt8) (count : ℕ) :
    ℕ → FatfsDirent → Prog μ (List DirRead)
  | 0, _ => failure
  | n + 1, d => do
    match ← fatfsDirRead H fs n old d count with
    | (_, .fail) => return []
    | (d, r) => return r :: (← listDir H fs old count n d)

/-- The names among the results, apart from the skipped entries. -/
def listedNames (rs : List DirRead) : List (List UInt8) :=
  rs.filterMap fun r =>
    match r with
    | .name bs => some bs
    | _ => none

/-- The listing of an opened directory ends and yields these names. -/
def Lists {μ : Type} (H : Allocator μ) (m : μ) (fs : FatfsPriv) (old : List UInt8) (count : ℕ)
    (d : FatfsDirent) (names : List (List UInt8)) : Prop :=
  ∃ n rs s, listDir H fs old count n (fatfsOpen d) (.fresh m) = some (rs, s) ∧ listedNames rs = names

/-- The number of entries up to the last live one before the end marker. -/
def liveSpan : List FatEntry → ℕ
  | [] => 0
  | e :: es => if e.isZero then 0 else if e.isLive || 0 < liveSpan es then liveSpan es + 1 else 0

/-- The requests of `k` reads of the root directory. -/
def sectorBuffers (v : Volume) (k : ℕ) : List Request := List.replicate k (.keep v.bytesPerSector)

/-- What a call returns for an entry. -/
def outcome (e : FatEntry) : DirRead :=
  if e.isZero then .fail
  else if e.isDeleted || e.isLongName then .skip
  else if 0 < direntTrim e.name 8 then .name (name83 e)
  else .fail

/-- The opened directory after `i` entries, as long as the sector is the first. -/
def rootAt (d : FatfsDirent) (i : ℕ) : FatfsDirent := { fatfsOpen d with lseek := 32 * i }

variable {μ : Type} {H : Allocator μ} {m : μ} {fs : FatfsPriv} {old : List UInt8} {count : ℕ}
  {d : FatfsDirent}

theorem Volume.entriesPerSector_pos {v : Volume} (hb : 512 ≤ v.bytesPerSector) :
    0 < v.entriesPerSector := Nat.div_pos (by omega) (by decide)

/-- The position right behind the first sector does not move on to the next one. -/
theorem rootSeek_rootAt {v : Volume} (d : FatfsDirent) {i : ℕ} (hi : i ≤ v.entriesPerSector) :
    rootSeek v (rootAt d i) = rootAt d i := by
  have hsmall := v.bytesPerSector_lt
  have hdiv : 32 * v.entriesPerSector ≤ v.bytesPerSector := Nat.mul_div_le _ _
  refine if_neg ?_
  show ¬ 32 * i > (0 + 1) * v.bytesPerSector % 2 ^ 32
  omega

/-- A position in the first sector or right behind it does not wrap. -/
theorem small_of_le {v : Volume} {i : ℕ} (hi : i ≤ v.entriesPerSector) : 32 * (i + 1) < 2 ^ 32 := by
  have hsmall := v.bytesPerSector_lt
  have hdiv : 32 * v.entriesPerSector ≤ v.bytesPerSector := Nat.mul_div_le _ _
  omega

/-- What is made of an entry, and the position behind it. -/
theorem rootDirEntry_rootAt (d : FatfsDirent) {i : ℕ} (hi : 32 * (i + 1) < 2 ^ 32) (e : FatEntry) :
    (rootDirEntry (rootAt d i) e).2 = outcome e ∧
      (outcome e ≠ .fail → (rootDirEntry (rootAt d i) e).1 = rootAt d (i + 1)) := by
  have hnext : { rootAt d i with lseek := ((rootAt d i).lseek + 32) % 2 ^ 32 } = rootAt d (i + 1) := by
    have : (32 * i + 32) % 2 ^ 32 = 32 * (i + 1) := by omega
    simp only [rootAt, this]
  unfold rootDirEntry outcome
  simp only [hnext]
  split
  · exact ⟨rfl, fun h => absurd rfl h⟩
  · split
    · exact ⟨rfl, fun _ => rfl⟩
    · split
      · exact ⟨rfl, fun _ => rfl⟩
      · exact ⟨rfl, fun h => absurd rfl h⟩

/-- **One call on the first sector**, the position right behind it included: there the remainder
of the position is 0 and the sector is still the first. -/
theorem fatfsRootDirRead_rootAt {v : Volume} (hb : 512 ≤ v.bytesPerSector) (d : FatfsDirent) {i : ℕ}
    (hi : i ≤ v.entriesPerSector) (hroot : i < v.rootEntries) (m : μ) :
    fatfsRootDirRead H v (rootAt d i) (.fresh m) =
      match H.alloc m v.bytesPerSector with
      | (none, m) => some ((rootAt d i, .fail), .spent m)
      | (some _, m) =>
        some (rootDirEntry (rootAt d i) (rootEntry v (i % v.entriesPerSector)), .fresh m) := by
  have hpos := Volume.entriesPerSector_pos hb
  have hcnt : (rootAt d i).lseek / 32 = i := Nat.mul_div_cancel_left i (by decide)
  have hsector : (rootSector v + (rootAt d i).offset) % 2 ^ 32
      = (rootSector v + i % v.entriesPerSector / v.entriesPerSector) % 2 ^ 32 := by
    rw [Nat.div_eq_of_lt (Nat.mod_lt _ hpos)]
    rfl
  have hentry : direntAt (read v.byteAt
      ((rootSector v + i % v.entriesPerSector / v.entriesPerSector) % 2 ^ 32 * v.bytesPerSector)
      v.bytesPerSector) (i % (v.bytesPerSector / 32)) = rootEntry v (i % v.entriesPerSector) := by
    rw [rootEntry, Nat.mod_mod]
    rfl
  simp only [fatfsRootDirRead, hcnt, if_neg (Nat.not_le.mpr hroot), rootSeek_rootAt d hi, hsector,
    fatReadSector, if_pos hb, hentry, Allocator.bind_apply, Allocator.request, Allocator.Store.fresh]
  rcases H.alloc m v.bytesPerSector with ⟨_ | p, m'⟩ <;> rfl

/-- Behind the last entry, a call asks for no buffer. -/
theorem fatfsRootDirRead_behind {v : Volume} (d : FatfsDirent) {i : ℕ} (hroot : v.rootEntries ≤ i)
    (s : Allocator.Store μ) :
    fatfsRootDirRead H v (rootAt d i) s = some ((rootAt d i, .fail), s) := by
  have hcnt : (rootAt d i).lseek / 32 = i := Nat.mul_div_cancel_left i (by decide)
  simp only [fatfsRootDirRead, hcnt]
  rw [if_pos hroot]
  rfl

/-- A call on the opened root directory. -/
theorem fatfsDirRead_root (hcount : count ≠ 0) (hflag : d.flag &&& 0xFF00 ≠ 0) (n i : ℕ) :
    fatfsDirRead H fs n old (rootAt d i) count = fatfsRootDirRead H fs.toVolume (rootAt d i) := by
  have hflag' : (rootAt d i).flag &&& 0xFF00 ≠ 0 := hflag
  rw [fatfsDirRead, if_neg hcount, if_pos hflag']

/-- A call that returns `-1` ends the listing. -/
theorem listDir_fail {n : ℕ} {d e : FatfsDirent} {s s' : Allocator.Store μ}
    (h : fatfsDirRead H fs n old d count s = some ((e, .fail), s')) :
    listDir H fs old count (n + 1) d s = some ([], s') := by
  rw [listDir, Allocator.bind_apply, h]
  rfl

/-- A call that passes an entry. -/
theorem listDir_pass {n : ℕ} {d d' : FatfsDirent} {r : DirRead} {s s' : Allocator.Store μ}
    (h : fatfsDirRead H fs n old d count s = some ((d', r), s')) (hr : r ≠ .fail) :
    listDir H fs old count (n + 1) d s =
      (listDir H fs old count n d' s').map fun p => (r :: p.1, p.2) := by
  rw [listDir, Allocator.bind_apply, h, Option.map_eq_bind]
  cases r with
  | fail => exact absurd rfl hr
  | skip => rfl
  | name bs => rfl

/-- The root directory ends the listing when there is no buffer. -/
theorem listDir_root_refused (hb : 512 ≤ fs.bytesPerSector) (hcount : count ≠ 0)
    (hflag : d.flag &&& 0xFF00 ≠ 0) {i : ℕ} (hi : i ≤ fs.entriesPerSector) (hroot : i < fs.rootEntries)
    {m' : μ} (halloc : H.alloc m fs.bytesPerSector = (none, m')) (n : ℕ) :
    listDir H fs old count (n + 1) (rootAt d i) (.fresh m) = some ([], .spent m') := by
  refine listDir_fail (e := rootAt d i) ?_
  rw [fatfsDirRead_root hcount hflag, fatfsRootDirRead_rootAt hb d hi hroot, halloc]

/-- A call on the root directory that is given its buffer: the entry ends the listing, -/
theorem listDir_root_fail (hb : 512 ≤ fs.bytesPerSector) (hcount : count ≠ 0)
    (hflag : d.flag &&& 0xFF00 ≠ 0) {i p : ℕ} (hi : i ≤ fs.entriesPerSector)
    (hroot : i < fs.rootEntries) {m' : μ} (halloc : H.alloc m fs.bytesPerSector = (some p, m'))
    (hfail : outcome (rootEntry fs.toVolume (i % fs.entriesPerSector)) = .fail) (n : ℕ) :
    listDir H fs old count (n + 1) (rootAt d i) (.fresh m) = some ([], .fresh m') := by
  have hres := (rootDirEntry_rootAt d (small_of_le hi) (rootEntry fs.toVolume (i % fs.entriesPerSector))).1
  rw [hfail] at hres
  refine listDir_fail (e := (rootDirEntry (rootAt d i)
    (rootEntry fs.toVolume (i % fs.entriesPerSector))).1) ?_
  rw [fatfsDirRead_root hcount hflag, fatfsRootDirRead_rootAt hb d hi hroot, halloc, ← hres]

/-- or is passed. -/
theorem listDir_root_pass (hb : 512 ≤ fs.bytesPerSector) (hcount : count ≠ 0)
    (hflag : d.flag &&& 0xFF00 ≠ 0) {i p : ℕ} (hi : i ≤ fs.entriesPerSector)
    (hroot : i < fs.rootEntries) {m' : μ} (halloc : H.alloc m fs.bytesPerSector = (some p, m'))
    (hpass : outcome (rootEntry fs.toVolume (i % fs.entriesPerSector)) ≠ .fail) (n : ℕ) :
    listDir H fs old count (n + 1) (rootAt d i) (.fresh m) =
      (listDir H fs old count n (rootAt d (i + 1)) (.fresh m')).map fun q =>
        (outcome (rootEntry fs.toVolume (i % fs.entriesPerSector)) :: q.1, q.2) := by
  obtain ⟨hres, hnext⟩ :=
    rootDirEntry_rootAt d (small_of_le hi) (rootEntry fs.toVolume (i % fs.entriesPerSector))
  refine listDir_pass ?_ hpass
  rw [fatfsDirRead_root hcount hflag, fatfsRootDirRead_rootAt hb d hi hroot, halloc, ← hres,
    ← hnext hpass]

/-! ### The end in the first sector -/

/-- What a call returns for an entry that is not the end marker. -/
theorem outcome_of_not_zero {e : FatEntry} (hzero : e.isZero = false)
    (hblank : e.isLive = true → 0 < direntTrim e.name 8) :
    outcome e = if e.isLive then .name (name83 e) else .skip := by
  cases hlive : e.isLive with
  | true =>
    have hkeep : (e.isDeleted || e.isLongName) = false := by simpa [FatEntry.isLive] using hlive
    simp [outcome, hzero, hkeep, hblank hlive]
  | false =>
    have hskip : (e.isDeleted || e.isLongName) = true := by
      simpa only [FatEntry.isLive, Bool.not_eq_false'] using hlive
    simp [outcome, hzero, hskip]

theorem NonBlank.head {e : FatEntry} {es : List FatEntry} (hzero : e.isZero = false)
    (h : NonBlank (e :: es)) : e.isLive = true → 0 < direntTrim e.name 8 :=
  h e (by simp [beforeEnd, hzero])

theorem NonBlank.tail {e : FatEntry} {es : List FatEntry} (hzero : e.isZero = false)
    (h : NonBlank (e :: es)) : NonBlank es := fun e' he' =>
  h e' (by rw [beforeEnd, List.takeWhile_cons, hzero]; exact List.mem_cons_of_mem _ he')

theorem liveNames_eq_nil_iff (es : List FatEntry) : liveNames es = [] ↔ liveSpan es = 0 := by
  induction es with
  | nil => exact iff_of_true rfl rfl
  | cons e es ih =>
    cases hzero : e.isZero with
    | true => simp [liveNames, beforeEnd, liveSpan, hzero]
    | false =>
      cases hlive : e.isLive with
      | true => simp [liveNames, beforeEnd, liveSpan, hzero, hlive]
      | false =>
        have hnames : liveNames (e :: es) = liveNames es := by
          simp [liveNames, beforeEnd, hzero, hlive]
        rw [hnames, ih, liveSpan, hzero, hlive]
        by_cases hspan : liveSpan es = 0 <;> simp [hspan, Nat.pos_iff_ne_zero]

theorem grants_sectorBuffers_succ {v : Volume} {k : ℕ} (h : H.Grants m (sectorBuffers v (k + 1))) :
    ∃ p m', H.alloc m v.bytesPerSector = (some p, m') ∧ H.Grants m' (sectorBuffers v k) := by
  rcases halloc : H.alloc m v.bytesPerSector with ⟨_ | p, m'⟩
  · exact absurd h (Allocator.not_grants_keep halloc)
  · exact ⟨p, m', rfl, (Allocator.grants_keep halloc).mp h⟩

/-- A listing that is refused its first buffer is right when there is nothing to list. -/
theorem nil_eq_liveNames_iff {v : Volume} {es : List FatEntry} {m' : μ}
    (halloc : H.alloc m v.bytesPerSector = (none, m')) :
    [] = liveNames es ↔ H.Grants m (sectorBuffers v (liveSpan es)) := by
  rw [eq_comm, liveNames_eq_nil_iff]
  cases liveSpan es with
  | zero => exact iff_of_true rfl rfl
  | succ k =>
    exact iff_of_false (Nat.succ_ne_zero k) (Allocator.not_grants_keep halloc)

/-- The listing of the entries from `i` on, when the directory ends in its first sector. -/
theorem listDir_root (hb : 512 ≤ fs.bytesPerSector) (hcount : count ≠ 0)
    (hflag : d.flag &&& 0xFF00 ≠ 0) : ∀ (k i : ℕ) (m : μ), i + k = fs.rootEntries →
    NonBlank ((List.range' i k).map (rootEntry fs.toVolume)) →
    (fs.rootEntries ≤ fs.entriesPerSector ∨
      ∃ j < fs.entriesPerSector, i ≤ j ∧ (rootEntry fs.toVolume j).isZero = true) →
    ∃ rs s, Run.Yields (fun n => listDir H fs old count n (rootAt d i) (.fresh m)) (rs, s) ∧
      (listedNames rs = liveNames ((List.range' i k).map (rootEntry fs.toVolume)) ↔
        H.Grants m (sectorBuffers fs.toVolume
          (liveSpan ((List.range' i k).map (rootEntry fs.toVolume))))) := by
  intro k
  induction k with
  | zero =>
    intro i m hi _ _
    refine ⟨[], .fresh m, Run.Yields.of_succ rfl fun n => listDir_fail (e := rootAt d i) ?_,
      iff_of_true rfl rfl⟩
    rw [fatfsDirRead_root hcount hflag, fatfsRootDirRead_behind d (by omega)]
  | succ k ih =>
    intro i m hi hblank hend
    -- the end marker is not passed, so the entry is still in the first sector
    have hsec : i < fs.entriesPerSector := by
      rcases hend with hend | ⟨j, hj, hij, -⟩ <;> omega
    have hroot : i < fs.rootEntries := by omega
    have hmod : i % fs.entriesPerSector = i := Nat.mod_eq_of_lt hsec
    rw [List.range'_succ, List.map_cons] at hblank ⊢
    rcases halloc : H.alloc m fs.bytesPerSector with ⟨_ | p, m'⟩
    · exact ⟨[], .spent m', Run.Yields.of_succ rfl
        (listDir_root_refused hb hcount hflag hsec.le hroot halloc), nil_eq_liveNames_iff halloc⟩
    cases hzero : (rootEntry fs.toVolume i).isZero with
    -- the end marker
    | true =>
      refine ⟨[], .fresh m', Run.Yields.of_succ rfl
        (listDir_root_fail hb hcount hflag hsec.le hroot halloc ?_), ?_⟩
      · rw [hmod]
        simp [outcome, hzero]
      · refine iff_of_true ?_ ?_
        · simp [listedNames, liveNames, beforeEnd, hzero]
        · rw [liveSpan, hzero, if_pos rfl]
          rfl
    | false =>
      have hout := outcome_of_not_zero hzero (hblank.head hzero)
      obtain ⟨rs, s, hyields, hnames⟩ := ih (i + 1) m' (by omega) (hblank.tail hzero) (by
        rcases hend with hend | ⟨j, hj, hij, hjz⟩
        · exact Or.inl hend
        · refine Or.inr ⟨j, hj, lt_of_le_of_ne hij ?_, hjz⟩
          rintro rfl
          rw [hzero] at hjz
          cases hjz)
      have hpass : outcome (rootEntry fs.toVolume (i % fs.entriesPerSector)) ≠ .fail := by
        rw [hmod, hout]
        split <;> simp
      refine ⟨outcome (rootEntry fs.toVolume i) :: rs, s, ?_, ?_⟩
      · refine hyields.succ (k := fun _ q => some (outcome (rootEntry fs.toVolume i) :: q.1, q.2)) rfl
          (fun n => ?_) (Run.Yields.const fun n => rfl)
        rw [listDir_root_pass hb hcount hflag hsec.le hroot halloc hpass, hmod, Option.map_eq_bind]
        rfl
      · -- the buffer of this entry is needed when it is live, or a later one is
        generalize (List.range' (i + 1) k).map (rootEntry fs.toVolume) = es at hnames ⊢
        have hgrants : ∀ k, H.Grants m (sectorBuffers fs.toVolume (k + 1)) ↔
            H.Grants m' (sectorBuffers fs.toVolume k) := fun k => Allocator.grants_keep halloc
        rw [hout]
        cases hlive : (rootEntry fs.toVolume i).isLive with
        | true =>
          have hspan : liveSpan (rootEntry fs.toVolume i :: es) = liveSpan es + 1 := by
            simp [liveSpan, hzero, hlive]
          have hlist : liveNames (rootEntry fs.toVolume i :: es) =
              name83 (rootEntry fs.toVolume i) :: liveNames es := by
            simp [liveNames, beforeEnd, hzero, hlive]
          rw [hspan, hgrants, hlist, ← hnames]
          simp [listedNames]
        | false =>
          have hlist : liveNames (rootEntry fs.toVolume i :: es) = liveNames es := by
            simp [liveNames, beforeEnd, hzero, hlive]
          have hskip : listedNames (.skip :: rs) = listedNames rs := rfl
          rw [hlist, if_neg (by decide), hskip, hnames]
          by_cases hrest : liveSpan es = 0
          · have hspan : liveSpan (rootEntry fs.toVolume i :: es) = 0 := by
              simp [liveSpan, hzero, hlive, hrest]
            rw [hspan, hrest]
            exact iff_of_true rfl rfl
          · have hspan : liveSpan (rootEntry fs.toVolume i :: es) = liveSpan es + 1 := by
              simp [liveSpan, hzero, hlive, Nat.pos_iff_ne_zero, hrest]
            rw [hspan, hgrants]

/-! ### Beyond the first sector -/

/-- Behind a first sector without an end marker, the first entry is listed once more, if there are
buffers to get there. -/
theorem first_mem_listedNames (hb : 512 ≤ fs.bytesPerSector) (hcount : count ≠ 0)
    (hflag : d.flag &&& 0xFF00 ≠ 0) (hlong : fs.entriesPerSector < fs.rootEntries)
    (hpass : ∀ i < fs.entriesPerSector, outcome (rootEntry fs.toVolume i) ≠ .fail)
    {bs : List UInt8} (hfirst : outcome (rootEntry fs.toVolume 0) = .name bs) :
    ∀ (k i n : ℕ) (m : μ) (rs : List DirRead) (s : Allocator.Store μ), i + k = fs.entriesPerSector →
      H.Grants m (sectorBuffers fs.toVolume (k + 1)) →
      listDir H fs old count n (rootAt d i) (.fresh m) = some (rs, s) → bs ∈ listedNames rs := by
  have hpos := Volume.entriesPerSector_pos hb
  intro k
  induction k with
  -- at the end of the sector: the call reads its first entry again
  | zero =>
    intro i n m rs s hi hgrants hrs
    obtain rfl : i = fs.entriesPerSector := hi
    obtain ⟨p, m', halloc, -⟩ := grants_sectorBuffers_succ hgrants
    cases n with
    | zero => cases hrs
    | succ n =>
      rw [listDir_root_pass hb hcount hflag le_rfl hlong halloc (by rw [Nat.mod_self]; exact hpass 0 hpos),
        Nat.mod_self, hfirst] at hrs
      obtain ⟨rest, -, heq⟩ := Option.map_eq_some_iff.mp hrs
      obtain ⟨rfl, -⟩ := Prod.mk.inj heq
      simp [listedNames]
  | succ k ih =>
    intro i n m rs s hi hgrants hrs
    have hsec : i < fs.entriesPerSector := by omega
    obtain ⟨p, m', halloc, hgrants⟩ := grants_sectorBuffers_succ hgrants
    cases n with
    | zero => cases hrs
    | succ n =>
      rw [listDir_root_pass hb hcount hflag hsec.le (by omega) halloc
        (by rw [Nat.mod_eq_of_lt hsec]; exact hpass i hsec)] at hrs
      obtain ⟨⟨rest, s'⟩, hrest, heq⟩ := Option.map_eq_some_iff.mp hrs
      obtain ⟨rfl, rfl⟩ := Prod.mk.inj heq
      have hmem := ih (i + 1) n m' rest s' (by omega) hgrants hrest
      rw [listedNames, List.filterMap_cons]
      split
      · exact hmem
      · exact List.mem_cons_of_mem _ hmem

/-- The entries of a first sector without an end marker are before the end marker. -/
theorem mem_beforeEnd {v : Volume} (hlong : v.entriesPerSector < v.rootEntries)
    (hzero : ∀ i < v.entriesPerSector, (rootEntry v i).isZero = false) {i : ℕ}
    (hi : i < v.entriesPerSector) : rootEntry v i ∈ beforeEnd (rootDir v) := by
  have hsplit : rootDir v = (List.range' 0 v.entriesPerSector).map (rootEntry v) ++
      (List.range' (0 + v.entriesPerSector) (v.rootEntries - v.entriesPerSector)).map
        (rootEntry v) := by
    rw [rootDir, ← List.map_append, List.range'_append_1, List.range_eq_range',
      Nat.add_sub_cancel' hlong.le]
  have hall : ∀ e ∈ (List.range' 0 v.entriesPerSector).map (rootEntry v), (!e.isZero) = true := by
    intro e he
    obtain ⟨j, hj, rfl⟩ := List.mem_map.mp he
    rw [List.mem_range'_1] at hj
    rw [hzero j (by omega), Bool.not_false]
  rw [beforeEnd, hsplit, List.takeWhile_append_of_pos hall]
  refine List.mem_append_left _ (List.mem_map.mpr ⟨i, ?_, rfl⟩)
  rw [List.mem_range'_1]
  omega

/-- A directory that goes on behind its first sector and whose first entry is live is not listed
correctly when there are buffers to get there, unless some name occurs twice in it. -/
theorem endsInFirstSector_of_lists (hb : 512 ≤ fs.bytesPerSector) (hcount : count ≠ 0)
    (hflag : d.flag &&& 0xFF00 ≠ 0) (hblank : NonBlank (rootDir fs.toVolume))
    (hlive : (rootEntry fs.toVolume 0).isLive = true)
    (hnodup : (liveNames (rootDir fs.toVolume)).Nodup)
    (hgrants : H.Grants m (sectorBuffers fs.toVolume (fs.entriesPerSector + 1)))
    (h : Lists H m fs old count d (liveNames (rootDir fs.toVolume))) :
    EndsInFirstSector fs.toVolume := by
  by_contra hends
  have hlong : fs.entriesPerSector < fs.rootEntries := by
    by_contra hle
    exact hends (Or.inl (Nat.not_lt.mp hle))
  have hzero : ∀ i < fs.entriesPerSector, (rootEntry fs.toVolume i).isZero = false := by
    intro i hi
    by_contra hz
    exact hends (Or.inr ⟨i, hi, by simpa using hz⟩)
  have hpos := Volume.entriesPerSector_pos hb
  have hout : ∀ i < fs.entriesPerSector, outcome (rootEntry fs.toVolume i) =
      if (rootEntry fs.toVolume i).isLive then .name (name83 (rootEntry fs.toVolume i)) else .skip :=
    fun i hi => outcome_of_not_zero (hzero i hi) (hblank _ (mem_beforeEnd hlong hzero hi))
  have hpass : ∀ i < fs.entriesPerSector, outcome (rootEntry fs.toVolume i) ≠ .fail := by
    intro i hi
    rw [hout i hi]
    split <;> simp
  have hfirst : outcome (rootEntry fs.toVolume 0) = .name (name83 (rootEntry fs.toVolume 0)) := by
    rw [hout 0 hpos, hlive, if_pos rfl]
  obtain ⟨n, rs, s, hrs, hnames⟩ := h
  obtain ⟨p, m', halloc, hrest⟩ := grants_sectorBuffers_succ hgrants
  cases n with
  | zero => cases hrs
  | succ n =>
    -- the first call yields the first name, and the rest of the listing yields it again
    have hopen : fatfsOpen d = rootAt d 0 := rfl
    rw [hopen, listDir_root_pass hb hcount hflag (Nat.zero_le _) (by omega) halloc
      (by rw [Nat.zero_mod]; exact hpass 0 hpos), Nat.zero_mod, hfirst] at hrs
    obtain ⟨⟨rest, s'⟩, hlist, heq⟩ := Option.map_eq_some_iff.mp hrs
    obtain ⟨rfl, rfl⟩ := Prod.mk.inj heq
    obtain ⟨k, hk⟩ := Nat.exists_eq_add_of_le' hpos
    have hmem := first_mem_listedNames hb hcount hflag hlong hpass hfirst k 1 n m'
      rest s' (by omega) (by rwa [hk] at hrest) hlist
    have hcons : listedNames (.name (name83 (rootEntry fs.toVolume 0)) :: rest)
        = name83 (rootEntry fs.toVolume 0) :: listedNames rest := rfl
    rw [← hnames, hcons, List.nodup_cons] at hnodup
    exact hnodup.1 hmem

/-- **The listing of the root directory** of a volume with sectors of at least 512 bytes and non-blank
names.  When the directory ends in its first sector, it is right exactly if there is a sector buffer
for each entry up to the last live one.  When the first entry is live, no name occurs twice and
there are buffers for the first sector and one more entry, it is right only if the directory ends in
its first sector. -/
theorem root_listing (H : Allocator μ) (m : μ) (fs : FatfsPriv) (old : List UInt8) (count : ℕ)
    (d : FatfsDirent) (hb : 512 ≤ fs.bytesPerSector) (hcount : count ≠ 0)
    (hflag : d.flag &&& 0xFF00 ≠ 0) (hblank : NonBlank (rootDir fs.toVolume)) :
    (EndsInFirstSector fs.toVolume →
        (Lists H m fs old count d (liveNames (rootDir fs.toVolume)) ↔
          H.Grants m (sectorBuffers fs.toVolume (liveSpan (rootDir fs.toVolume))))) ∧
      ((rootEntry fs.toVolume 0).isLive = true → (liveNames (rootDir fs.toVolume)).Nodup →
        H.Grants m (sectorBuffers fs.toVolume (fs.entriesPerSector + 1)) →
        Lists H m fs old count d (liveNames (rootDir fs.toVolume)) → EndsInFirstSector fs.toVolume) := by
  refine ⟨fun hends => ?_, fun hlive hnodup hgrants h =>
    endsInFirstSector_of_lists hb hcount hflag hblank hlive hnodup hgrants h⟩
  rw [rootDir, List.range_eq_range'] at hblank ⊢
  obtain ⟨rs, s, hyields, hnames⟩ := listDir_root hb hcount hflag fs.rootEntries 0 m (Nat.zero_add _)
    hblank (hends.imp id fun ⟨i, hi, hz⟩ => ⟨i, hi, Nat.zero_le _, hz⟩)
  rw [← hnames]
  constructor
  · rintro ⟨n, rs', s', hrs, heq⟩
    obtain ⟨rfl, -⟩ := Prod.mk.inj (hyields.sound n (rs', s') hrs)
    exact heq
  · intro heq
    obtain ⟨n, hn⟩ := hyields.exists_iff.mpr rfl
    exact ⟨n, rs, s, hn, heq⟩

/-- A FAT16 volume whose root directory holds the files `A`, `B` and so on, `k` of them. -/
def filesVolume (k : ℕ) : FatfsPriv where
  image := fun a =>
    if 1024 ≤ a ∧ a < 1024 + 32 * k then
      let r := (a - 1024) % 32
      if r = 0 then UInt8.ofNat (0x41 + (a - 1024) / 32)
      else if r < 11 then 0x20
      else if r = 11 then 0x20
      else 0
    else 0
  bytesPerSector := 512
  sectorsPerCluster := 1
  firstClusterSector := 4
  reservedSector := 1
  sectorsPerFat := 1
  numberOfFAT := 1
  rootEntries := 32
  bytesPerSector_lt := Volume.sectorBytes_lt
  sectorsPerCluster_lt := Volume.clusterSectors_lt
  opvector := fat16fsOpvector fun _ => 0

/-- The `fatfs_dirent` of the root directory that `fatfs_mount` sets up. -/
def rootDirent : FatfsDirent :=
  { lseek := 0, cluster := 0, offset := 0, length := 0, entry := 0, flag := 0xFF00 }

/-- A directory of three files is listed correctly on the heap after boot. -/
theorem root_listing_three : ∃ h ∈ bootHeap,
    Lists kernelAllocator h (filesVolume 3) [] 1024 rootDirent [[0x41], [0x42], [0x43]] := by
  have hnames : liveNames (rootDir (filesVolume 3).toVolume) = [[0x41], [0x42], [0x43]] := by
    decide +kernel
  have hends : EndsInFirstSector (filesVolume 3).toVolume :=
    Or.inr ⟨3, by decide, by decide +kernel⟩
  have hblank : NonBlank (rootDir (filesVolume 3).toVolume) := by
    unfold NonBlank
    decide +kernel
  obtain ⟨h, hh⟩ := Option.isSome_iff_exists.mp (by decide : bootHeap.isSome)
  have hgrants : (bootHeap.all fun h => decide (kernelAllocator.Grants h
      (sectorBuffers (filesVolume 3).toVolume (liveSpan (rootDir (filesVolume 3).toVolume))))) = true := by
    decide +kernel
  rw [hh, Option.all_some, decide_eq_true_iff] at hgrants
  rw [← hnames]
  exact ⟨h, hh, ((root_listing kernelAllocator h (filesVolume 3) [] 1024 rootDirent (by decide) (by decide)
    (by decide) hblank).1 hends).mpr hgrants⟩

/-- A directory of seventeen files, in sectors of sixteen entries, is not. -/
theorem root_listing_seventeen :
    ¬ ∀ (h : Heap) (fs : FatfsPriv) (old : List UInt8) (count : ℕ) (d : FatfsDirent),
      512 ≤ fs.bytesPerSector → count ≠ 0 → d.flag &&& 0xFF00 ≠ 0 → NonBlank (rootDir fs.toVolume) →
      Lists kernelAllocator h fs old count d (liveNames (rootDir fs.toVolume)) := by
  intro hall
  have hblank : NonBlank (rootDir (filesVolume 17).toVolume) := by
    unfold NonBlank
    decide +kernel
  obtain ⟨h, hh⟩ := Option.isSome_iff_exists.mp (by decide : bootHeap.isSome)
  have hgrants : (bootHeap.all fun h => decide (kernelAllocator.Grants h
      (sectorBuffers (filesVolume 17).toVolume 17))) = true := by
    decide +kernel
  rw [hh, Option.all_some, decide_eq_true_iff] at hgrants
  have hlists := hall h (filesVolume 17) [] 1024 rootDirent (by decide) (by decide)
    (by decide) hblank
  have hends := endsInFirstSector_of_lists (by decide) (by decide) (by decide) hblank
    (by decide +kernel) (by decide +kernel) hgrants hlists
  rcases hends with hle | ⟨i, hi, hz⟩
  · exact absurd hle (by decide)
  · have hlive : ∀ i < 16, (rootEntry (filesVolume 17).toVolume i).isZero = false := by decide +kernel
    rw [hlive i hi] at hz
    cases hz

end YakOS
