import YakOS.Fs.Dir

/-!
# Following a cluster chain

`fatfs_pread` and `fatfs_lookup` follow the chain of a file: a value taken from the
FAT is the next data cluster if it is below `fat_max_cluster` and ends the walk
otherwise.  On a volume the values from 2 to the reserved range are data clusters,
after masking to the significant bits of the FAT type: 12, 16, or the lower 28 of 32.
The test has no lower bound, and the limit of a FAT32 volume is compared with all
32 bits.

## Main definitions

* `FatType`, `FatType.DataCluster` — the three types, and their data clusters.
* `PreadTakes`, `PreadUses`, `LookupTakes`, `LookupUses` — the FAT entries that the two
  loops take and those they go on with.
* `FatType.Harmless` — the entries that the test treats as it should.

## Main results

* `preadUses_iff` — the loop of `fatfs_pread` goes on with the entries below the limit.
* `followsData_iff` — when a loop that does so follows the data clusters.
* `chain_walks_iff` — **the walks only use data clusters exactly when every entry they meet
  is harmless.**
-/

namespace YakOS

open Bytes

/-! ### The three types of volumes -/

/-- The type of a FAT volume. -/
inductive FatType where
  | fat12 | fat16 | fat32
  deriving DecidableEq, Repr

namespace FatType

/-- The number of bits of a FAT entry. -/
def width : FatType → ℕ
  | fat12 => 12
  | fat16 => 16
  | fat32 => 32

/-- The number of bits of a FAT entry that are significant. -/
def bits : FatType → ℕ
  | fat12 => 12
  | fat16 => 16
  | fat32 => 28

/-- The first of the reserved, bad and end-of-chain values. -/
def reserved : FatType → ℕ
  | fat12 => 0xFF0
  | fat16 => 0xFFF0
  | fat32 => 0x0FFFFFF0

/-- The first of the end-of-chain values. -/
def endOfChain : FatType → ℕ
  | fat12 => 0xFF8
  | fat16 => 0xFFF8
  | fat32 => 0x0FFFFFF8

/-- The significant bits of a FAT entry. -/
def masked (t : FatType) (e : ℕ) : ℕ := e % 2 ^ t.bits

/-- A FAT entry that names a data cluster. -/
def DataCluster (t : FatType) (e : ℕ) : Prop := 2 ≤ t.masked e ∧ t.masked e < t.reserved

/-- The operations `fatfs_mount` gives a volume of the type. -/
def opvector (slack : ℕ → UInt8) : FatType → FatOpvector
  | fat12 => fat12fsOpvector slack
  | fat16 => fat16fsOpvector slack
  | fat32 => fat32fsOpvector slack

/-- A mounted volume of the type. -/
def mounted (t : FatType) (slack : ℕ → UInt8) (v : Volume) : FatfsPriv :=
  { v with opvector := t.opvector slack }

/-- The FAT entries that the code treats as it should.  On FAT12 and FAT16 volumes these are
all but the values 0 and 1; on FAT32 volumes those whose 28 significant bits name a data
cluster, and those whose 32 bits are beyond the limit. -/
def Harmless (t : FatType) (e : ℕ) : Prop :=
  match t with
  | fat12 | fat16 => 2 ≤ e
  | fat32 => 0xFFFFFFF0 ≤ e ∨ t.DataCluster e

end FatType

/-- A value that `fat_next_cluster` returns has the width of an entry. -/
theorem fatNextCluster_lt {t : FatType} {slack : ℕ → UInt8} {v : Volume} {c e : ℕ}
    (h : (t.opvector slack).fatNextCluster v c = some e) : e < 2 ^ t.width := by
  cases t with
  | fat12 =>
    have hlt : ∀ (b : Prop) [Decidable b] (m : ℕ → UInt8) (a : ℕ),
        (if b then u16 m a / 2 ^ 4 else u16 m a % 2 ^ 12) < 2 ^ 12 := by
      intro b _ m a
      have := u16_lt m a
      split <;> omega
    simp only [FatType.opvector, fat12fsOpvector, fatNextCluster12, Option.bind_eq_bind,
      Option.bind_eq_some_iff, Option.pure_def] at h
    obtain ⟨buf, -, h⟩ := h
    split at h
    · obtain ⟨more, -, h⟩ := Option.bind_eq_some_iff.mp h
      rw [← Option.some.inj h]
      exact hlt _ _ _
    · rw [← Option.some.inj h]
      exact hlt _ _ _
  | fat16 =>
    simp only [FatType.opvector, fat16fsOpvector, fatNextCluster16, Option.bind_eq_bind,
      Option.bind_eq_some_iff, Option.pure_def, Option.some.injEq] at h
    obtain ⟨buf, -, rfl⟩ := h
    exact u16_lt _ _
  | fat32 =>
    simp only [FatType.opvector, fat32fsOpvector, fatNextCluster32, Option.bind_eq_bind,
      Option.bind_eq_some_iff, Option.pure_def, Option.some.injEq] at h
    obtain ⟨buf, -, rfl⟩ := h
    exact u32_lt _ _

/-- Below the limit, the entries of the right width that name a data cluster are the harmless
ones. -/
theorem FatType.dataCluster_iff {t : FatType} {slack : ℕ → UInt8} {e : ℕ} (hw : e < 2 ^ t.width)
    (hmax : e < (t.opvector slack).fatMaxCluster) : t.DataCluster e ↔ t.Harmless e := by
  cases t with
  | fat12 | fat16 =>
    simp only [FatType.DataCluster, FatType.Harmless, FatType.masked, FatType.bits, FatType.reserved,
      FatType.width, FatType.opvector, fat12fsOpvector, fat16fsOpvector] at hw hmax ⊢
    omega
  | fat32 =>
    simp only [FatType.Harmless, FatType.opvector, fat32fsOpvector] at hmax ⊢
    constructor
    · exact Or.inr
    · rintro (h | h)
      · omega
      · exact h

/-- Beyond the limit every entry is harmless. -/
theorem FatType.harmless_of_le {t : FatType} {slack : ℕ → UInt8} {e : ℕ}
    (hmax : (t.opvector slack).fatMaxCluster ≤ e) : t.Harmless e := by
  cases t with
  | fat12 | fat16 =>
    simp only [FatType.Harmless, FatType.opvector, fat12fsOpvector, fat16fsOpvector] at hmax ⊢
    omega
  | fat32 => exact Or.inl hmax

/-! ### The two loops -/

/-- The loop of `fatfs_pread`, `n` rounds of it from the cursor of `file`, takes the value `e`
from the FAT. -/
def PreadTakes (fs : FatfsPriv) (n : ℕ) (file : FatfsDirent) (e : ℕ) : Prop :=
  ∃ k < n, ∃ file', walkClustersGiven fs k file = .ok file' ∧
    fs.opvector.fatNextCluster fs.toVolume file'.cluster = some e

/-- The loop of `fatfs_pread` moves the cursor to the cluster `e`. -/
def PreadUses (fs : FatfsPriv) (n : ℕ) (file : FatfsDirent) (e : ℕ) : Prop :=
  ∃ k < n, ∃ file', walkClustersGiven fs (k + 1) file = .ok file' ∧ file'.cluster = e

/-- The loop of `fatfs_lookup` from the cluster `c` on takes the value `e` from the FAT. -/
def LookupTakes (fs : FatfsPriv) (name : List UInt8) (c e : ℕ) : Prop :=
  ∃ k, lookupRoundsGiven fs name (k + 1) c = .walking e

/-- The loop of `fatfs_lookup` hands the value `e` that it took to `fat_read_cluster`: the round
after it does not end the walk at its head. -/
def LookupUses (fs : FatfsPriv) (name : List UInt8) (c e : ℕ) : Prop :=
  LookupTakes fs name c e ∧ e < fs.opvector.fatMaxCluster

/-- One more round of the loop of `fatfs_pread`. -/
theorem walkClustersGiven_succ (fs : FatfsPriv) : ∀ (k : ℕ) (file file' : FatfsDirent),
    walkClustersGiven fs (k + 1) file = .ok file' ↔
      ∃ prev e, walkClustersGiven fs k file = .ok prev ∧
        fs.opvector.fatNextCluster fs.toVolume prev.cluster = some e ∧
        e < fs.opvector.fatMaxCluster ∧
        file' = { prev with
          offset := (prev.offset + fs.bytesPerCluster) % 2 ^ 32
          cluster := e } := by
  intro k
  induction k with
  | zero =>
    intro file file'
    constructor
    · intro h
      rw [walkClustersGiven] at h
      cases hnext : fs.opvector.fatNextCluster fs.toVolume file.cluster with
      | none => simp [hnext] at h
      | some e =>
        simp only [hnext] at h
        split at h
        · cases h
        next hmax => exact ⟨file, e, rfl, hnext, Nat.not_le.mp hmax, (Except.ok.inj h).symm⟩
    · rintro ⟨prev, e, hprev, hnext, hmax, rfl⟩
      obtain rfl := Except.ok.inj hprev
      rw [walkClustersGiven, hnext]
      exact if_neg (Nat.not_le.mpr hmax)
  | succ k ih =>
    intro file file'
    rw [walkClustersGiven]
    conv_rhs => rw [walkClustersGiven]
    cases fs.opvector.fatNextCluster fs.toVolume file.cluster with
    | none => simp
    | some e =>
      simp only
      split
      · simp
      · exact ih _ file'

/-- The loop of `fatfs_pread` goes on with the entries below the limit. -/
theorem preadUses_iff {fs : FatfsPriv} {n : ℕ} {file : FatfsDirent} {e : ℕ} :
    PreadUses fs n file e ↔ PreadTakes fs n file e ∧ e < fs.opvector.fatMaxCluster := by
  constructor
  · rintro ⟨k, hk, file', hwalk, rfl⟩
    obtain ⟨prev, e, hprev, hnext, hmax, rfl⟩ := (walkClustersGiven_succ fs k file file').mp hwalk
    exact ⟨⟨k, hk, prev, hprev, hnext⟩, hmax⟩
  · rintro ⟨⟨k, hk, prev, hprev, hnext⟩, hmax⟩
    exact ⟨k, hk, _, (walkClustersGiven_succ fs k file _).mpr ⟨prev, e, hprev, hnext, hmax, rfl⟩, rfl⟩

/-- What `fatfs_pread` takes is a value of `fat_next_cluster`. -/
theorem PreadTakes.next {fs : FatfsPriv} {n : ℕ} {file : FatfsDirent} {e : ℕ}
    (h : PreadTakes fs n file e) : ∃ c, fs.opvector.fatNextCluster fs.toVolume c = some e := by
  obtain ⟨_, _, file', _, hnext⟩ := h
  exact ⟨file'.cluster, hnext⟩

/-- A round of the loop of `fatfs_lookup` that goes on has read its cluster and taken the next
one from the FAT. -/
theorem lookupRoundGiven_walking {fs : FatfsPriv} {name : List UInt8} {c e : ℕ}
    (h : lookupRoundGiven fs name c = .walking e) :
    c < fs.opvector.fatMaxCluster ∧ fs.opvector.fatNextCluster fs.toVolume c = some e := by
  rw [lookupRoundGiven] at h
  split at h
  next hmax =>
    refine ⟨hmax, ?_⟩
    cases hread : fatReadCluster fs.toVolume c with
    | none => simp [hread] at h
    | some buf =>
      cases hfind : fatDirentLookup buf (fs.bytesPerCluster / 32) name with
      | some d => simp [hread, hfind] at h
      | none =>
        cases hnext : fs.opvector.fatNextCluster fs.toVolume c with
        | none => simp [hread, hfind, hnext] at h
        | some e' => simpa [hread, hfind, hnext] using h
  next => cases h

/-- The first round of a walk of `fatfs_lookup` that goes on. -/
theorem lookupRoundsGiven_succ {fs : FatfsPriv} {name : List UInt8} {k c e : ℕ}
    (h : lookupRoundsGiven fs name (k + 1) c = .walking e) :
    ∃ c', lookupRoundGiven fs name c = .walking c' ∧ lookupRoundsGiven fs name k c' = .walking e := by
  rw [lookupRoundsGiven] at h
  cases hround : lookupRoundGiven fs name c with
  | done found => simp [hround] at h
  | walking c' =>
    rw [hround] at h
    exact ⟨c', rfl, h⟩

/-- What `fatfs_lookup` takes is a value of `fat_next_cluster`. -/
theorem LookupTakes.next {fs : FatfsPriv} {name : List UInt8} {c e : ℕ}
    (h : LookupTakes fs name c e) : ∃ c', fs.opvector.fatNextCluster fs.toVolume c' = some e := by
  obtain ⟨k, hk⟩ := h
  induction k generalizing c with
  | zero =>
    obtain ⟨c', hround, hrest⟩ := lookupRoundsGiven_succ hk
    obtain rfl : c' = e := by simpa [lookupRoundsGiven] using hrest
    exact ⟨c, (lookupRoundGiven_walking hround).2⟩
  | succ k ih =>
    obtain ⟨c', -, hrest⟩ := lookupRoundsGiven_succ hk
    exact ih hrest

/-! ### What the walks use -/

/-- A walk that goes on with data clusters only, and ends at every end-of-chain value. -/
structure FollowsData (t : FatType) (takes uses : ℕ → Prop) : Prop where
  data : ∀ e, uses e → t.DataCluster e
  ends : ∀ e, takes e → t.endOfChain ≤ t.masked e → ¬ uses e

/-- A loop that goes on with the entries below the limit follows the data exactly when each
entry it takes is harmless. -/
theorem followsData_iff {t : FatType} {slack : ℕ → UInt8} {v : Volume} {takes uses : ℕ → Prop}
    (huses : ∀ e, uses e ↔ takes e ∧ e < (t.opvector slack).fatMaxCluster)
    (hnext : ∀ e, takes e → ∃ c, (t.opvector slack).fatNextCluster v c = some e) :
    FollowsData t takes uses ↔ ∀ e, takes e → t.Harmless e := by
  have hwidth : ∀ e, takes e → e < 2 ^ t.width := by
    intro e he
    obtain ⟨c, hc⟩ := hnext e he
    exact fatNextCluster_lt hc
  constructor
  · intro h e he
    rcases Nat.lt_or_ge e (t.opvector slack).fatMaxCluster with hmax | hmax
    · exact (FatType.dataCluster_iff (hwidth e he) hmax).mp (h.data e ((huses e).mpr ⟨he, hmax⟩))
    · exact FatType.harmless_of_le hmax
  · intro h
    have hdata : ∀ e, uses e → t.DataCluster e := by
      intro e he
      obtain ⟨htake, hmax⟩ := (huses e).mp he
      exact (FatType.dataCluster_iff (hwidth e htake) hmax).mpr (h e htake)
    refine ⟨hdata, ?_⟩
    intro e _ hend huse
    have hlt := (hdata e huse).2
    have hle : t.reserved ≤ t.endOfChain := by cases t <;> decide
    omega

/-- **On a volume of any type and from any start, the loops of `fatfs_pread` and of
`fatfs_lookup` follow the data clusters exactly when every FAT entry they take is harmless.** -/
theorem chain_walks_iff (t : FatType) (slack : ℕ → UInt8) (v : Volume) :
    (∀ (n : ℕ) (file : FatfsDirent),
      FollowsData t (PreadTakes (t.mounted slack v) n file) (PreadUses (t.mounted slack v) n file) ↔
        ∀ e, PreadTakes (t.mounted slack v) n file e → t.Harmless e) ∧
    ∀ (name : List UInt8) (c : ℕ),
      FollowsData t (LookupTakes (t.mounted slack v) name c) (LookupUses (t.mounted slack v) name c) ↔
        ∀ e, LookupTakes (t.mounted slack v) name c e → t.Harmless e := by
  constructor
  · intro n file
    exact followsData_iff (fun e => preadUses_iff) fun e he => he.next
  · intro name c
    exact followsData_iff (fun e => Iff.rfl) fun e he => he.next

/-- A FAT32 volume with one FAT sector, whose entry for cluster 2 is the end-of-chain value
`0x0FFFFFF8`. -/
def endedVolume : Volume where
  image := fun a => if a = 520 then 0xF8 else if a = 521 ∨ a = 522 then 0xFF else if a = 523 then 0x0F
    else 0
  bytesPerSector := 512
  sectorsPerCluster := 1
  firstClusterSector := 2
  reservedSector := 1
  sectorsPerFat := 1
  numberOfFAT := 1
  rootEntries := 0
  bytesPerSector_lt := Volume.sectorBytes_lt
  sectorsPerCluster_lt := Volume.clusterSectors_lt

/-- On that volume a read of the second cluster of a file that has one cluster, number 2, goes
on to the data cluster `0x0FFFFFF8`. -/
theorem fat32_chain_not_ended :
    ¬ ∀ (t : FatType) (slack : ℕ → UInt8) (v : Volume),
      (∀ (n : ℕ) (file : FatfsDirent), FollowsData t (PreadTakes (t.mounted slack v) n file)
        (PreadUses (t.mounted slack v) n file)) ∧
      ∀ (name : List UInt8) (c : ℕ), FollowsData t (LookupTakes (t.mounted slack v) name c)
        (LookupUses (t.mounted slack v) name c) := by
  intro h
  have huse : PreadUses (FatType.fat32.mounted (fun _ => 0) endedVolume) 1 ⟨0, 2, 0, 1024, 2, 0x20⟩
      0x0FFFFFF8 :=
    ⟨0, by decide, ⟨0, 0x0FFFFFF8, 512, 1024, 2, 0x20⟩, by decide +kernel, rfl⟩
  have hdata := ((h .fat32 (fun _ => 0) endedVolume).1 1 ⟨0, 2, 0, 1024, 2, 0x20⟩).data _ huse
  exact absurd hdata.2 (by decide)

end YakOS
