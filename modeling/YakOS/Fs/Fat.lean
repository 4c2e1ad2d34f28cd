import Mathlib.Data.List.Basic
import Mathlib.Data.Nat.Bitwise
import YakOS.Lib.Bytes

/-!
# FAT volumes

The part of `fs/vfsfat.c` that reads sectors, clusters and FAT entries, for an
image that lies in memory.  Sizes, sector numbers and offsets are `size_t`, so
they are numbers below `2 ^ 32` and the arithmetic on them wraps; the image is a
memory indexed by the distance from `fimage`, which wraps likewise.

What is computed here is what the calls return when `kmalloc` gives them their
buffers, as are the functions of the next modules whose names end in `Given`; the
calls with the memory they ask for are in `YakOS.Fs.Memory`.  A buffer holds the
sectors read into it; what a read past its end returns is left open by a parameter
`slack` (this happens only when the sector size is not a multiple of the entry size).

## Main definitions

* `Volume`, `FatOpvector`, `FatfsPriv`, `FatfsDirent` — the data.
* `fatReadSector`, `fatReadCluster` — reading from the image.
* `fatNextCluster32`, `fatNextCluster16`, `fatNextCluster12` — following a chain.
* `clusterBytes` — the bytes of a cluster, by their place in the image.

## Main results

* `fatReadCluster_eq` — `fat_read_cluster` returns the bytes of the cluster.
-/

namespace YakOS

open Bytes

/-- The image of a volume and the geometry `fatfs_mount` takes from its boot
sector, where the sector size is a 16-bit field and the cluster size an 8-bit one. -/
structure Volume where
  /-- The byte at a distance from `fimage`. -/
  image : ℕ → UInt8
  bytesPerSector : ℕ
  sectorsPerCluster : ℕ
  firstClusterSector : ℕ
  reservedSector : ℕ
  sectorsPerFat : ℕ
  numberOfFAT : ℕ
  rootEntries : ℕ
  bytesPerSector_lt : bytesPerSector < 2 ^ 16
  sectorsPerCluster_lt : sectorsPerCluster < 2 ^ 8

theorem Volume.sectorBytes_lt : 512 < 2 ^ 16 := by decide

theorem Volume.clusterSectors_lt : 1 < 2 ^ 8 := by decide

/-- `struct fat_opvector`; a `fat_next_cluster` that fails is `none`. -/
structure FatOpvector where
  fatMaxCluster : ℕ
  fatClusterMask : ℕ
  fatNextCluster : Volume → ℕ → Option ℕ
  /-- The sectors of the buffer that `fat_next_cluster` asks for. -/
  bufferSectors : ℕ

/-- `struct fatfs_priv`. -/
structure FatfsPriv extends Volume where
  opvector : FatOpvector

/-- `struct fatfs_dirent`, less its pointer to the file system. -/
structure FatfsDirent where
  lseek : ℕ
  cluster : ℕ
  offset : ℕ
  length : ℕ
  entry : ℕ
  flag : ℕ
  deriving DecidableEq, Repr

namespace Volume

variable (v : Volume)

/-- The image, read at a 32-bit distance. -/
def byteAt (a : ℕ) : UInt8 := v.image (a % 2 ^ 32)

/-- The bytes in a cluster. -/
def bytesPerCluster : ℕ := v.bytesPerSector * v.sectorsPerCluster

theorem bytesPerCluster_lt : v.bytesPerCluster < 2 ^ 24 := by
  have h1 := v.bytesPerSector_lt
  have h2 := v.sectorsPerCluster_lt
  calc v.bytesPerCluster ≤ (2 ^ 16 - 1) * (2 ^ 8 - 1) := Nat.mul_le_mul (by omega) (by omega)
    _ < 2 ^ 24 := by decide

end Volume

/-- `fat_read_sector`: the assertion, and the bytes copied. -/
def fatReadSector (v : Volume) (sector : ℕ) : Option (List UInt8) :=
  if 512 ≤ v.bytesPerSector then some (read v.byteAt (sector * v.bytesPerSector) v.bytesPerSector)
  else none

/-- The loop of `fat_read_cluster`: `n` sectors from `sector` on. -/
def readSectors (v : Volume) : ℕ → ℕ → Option (List UInt8)
  | _, 0 => some []
  | sector, n + 1 => do
    let bs ← fatReadSector v sector
    let rest ← readSectors v ((sector + 1) % 2 ^ 32) n
    return bs ++ rest

/-- `fat_read_cluster`. -/
def fatReadCluster (v : Volume) (cluster : ℕ) : Option (List UInt8) :=
  let sector := (v.firstClusterSector + (cluster + 2 ^ 32 - 2) * v.sectorsPerCluster) % 2 ^ 32
  if 0 < v.sectorsPerCluster then readSectors v sector v.sectorsPerCluster else none

/-- A byte of a sector buffer; behind its end stands whatever the heap holds. -/
def bufByte (slack : ℕ → UInt8) (buf : List UInt8) (i : ℕ) : UInt8 := (buf[i]?).getD (slack i)

/-- `fat_next_cluster32`. -/
def fatNextCluster32 (slack : ℕ → UInt8) (v : Volume) (cluster : ℕ) : Option ℕ := do
  let byte := cluster * 4 % 2 ^ 32
  let sectorcnt := byte / v.bytesPerSector
  let buf ← fatReadSector v ((v.reservedSector + sectorcnt) % 2 ^ 32)
  let bytecntInSector := byte - v.bytesPerSector * sectorcnt
  return u32 (bufByte slack buf) (bytecntInSector / 4 * 4)

/-- `fat_next_cluster16`. -/
def fatNextCluster16 (slack : ℕ → UInt8) (v : Volume) (cluster : ℕ) : Option ℕ := do
  let byte := cluster * 2 % 2 ^ 32
  let sectorcnt := byte / v.bytesPerSector
  let buf ← fatReadSector v ((v.reservedSector + sectorcnt) % 2 ^ 32)
  let bytecntInSector := byte - v.bytesPerSector * sectorcnt
  return u16 (bufByte slack buf) (bytecntInSector / 2 * 2)

/-- `fat_next_cluster12`: the entry may straddle two sectors. -/
def fatNextCluster12 (slack : ℕ → UInt8) (v : Volume) (cluster : ℕ) : Option ℕ := do
  let bitcnt := cluster * 12 % 2 ^ 32
  let sectorcnt := bitcnt / (v.bytesPerSector * 8)
  let buf ← fatReadSector v ((v.reservedSector + sectorcnt) % 2 ^ 32)
  let bitcntInSector := bitcnt - v.bytesPerSector * 8 * sectorcnt
  let bytecntInSector := bitcntInSector / 8
  let more ← if bytecntInSector + 1 = v.bytesPerSector then
    fatReadSector v ((v.reservedSector + sectorcnt + 1) % 2 ^ 32) else some []
  let retval := u16 (bufByte slack (buf ++ more)) bytecntInSector
  return if bitcntInSector % 8 ≠ 0 then retval / 2 ^ 4 else retval % 2 ^ 12

/-- `fat12fs_opvector`. -/
def fat12fsOpvector (slack : ℕ → UInt8) : FatOpvector := ⟨0xFF0, 0xFFF, fatNextCluster12 slack, 2⟩

/-- `fat16fs_opvector`. -/
def fat16fsOpvector (slack : ℕ → UInt8) : FatOpvector := ⟨0xFFF0, 0xFFFF, fatNextCluster16 slack, 1⟩

/-- `fat32fs_opvector`. -/
def fat32fsOpvector (slack : ℕ → UInt8) : FatOpvector :=
  ⟨0xFFFFFFF0, 0xFFFFFFFF, fatNextCluster32 slack, 1⟩

/-! ### The bytes of a cluster -/

/-- The bytes of the data cluster `c`, by their place in the image: the clusters
follow each other from `first_cluster_sector` on, and the first has number 2. -/
def clusterBytes (v : Volume) (c : ℕ) : List UInt8 :=
  read v.byteAt ((v.firstClusterSector + (c + 2 ^ 32 - 2) * v.sectorsPerCluster) * v.bytesPerSector)
    v.bytesPerCluster

@[simp] theorem length_clusterBytes (v : Volume) (c : ℕ) :
    (clusterBytes v c).length = v.bytesPerCluster := by simp [clusterBytes]

/-- Reading the image only depends on the distance modulo `2 ^ 32`. -/
theorem read_byteAt_congr (v : Volume) {a b : ℕ} (h : a ≡ b [MOD 2 ^ 32]) (n : ℕ) :
    read v.byteAt a n = read v.byteAt b n := by
  apply List.map_congr_left
  intro i _
  simp only [Volume.byteAt]
  rw [show (a + i) % 2 ^ 32 = (b + i) % 2 ^ 32 from Nat.ModEq.add_right i h]

/-- Consecutive sectors are consecutive bytes of the image. -/
theorem readSectors_eq {v : Volume} (hb : 512 ≤ v.bytesPerSector) : ∀ (n sector : ℕ),
    readSectors v sector n = some (read v.byteAt (sector * v.bytesPerSector) (n * v.bytesPerSector)) := by
  intro n
  induction n with
  | zero => intro sector; simp [readSectors, Bytes.read]
  | succ n ih =>
    intro sector
    have hmod : (sector + 1) % 2 ^ 32 * v.bytesPerSector
        ≡ sector * v.bytesPerSector + v.bytesPerSector [MOD 2 ^ 32] := by
      have := (Nat.mod_modEq (sector + 1) (2 ^ 32)).mul_right v.bytesPerSector
      rwa [Nat.add_mul, Nat.one_mul] at this
    simp only [readSectors, fatReadSector, if_pos hb, ih, Option.bind_eq_bind, Option.bind_some]
    rw [Nat.add_mul, Nat.one_mul, Nat.add_comm (n * _), read_append, read_byteAt_congr v hmod]
    rfl

/-- **`fat_read_cluster` returns the bytes of the cluster.** -/
theorem fatReadCluster_eq {v : Volume} (hb : 512 ≤ v.bytesPerSector)
    (hs : 1 ≤ v.sectorsPerCluster) (c : ℕ) : fatReadCluster v c = some (clusterBytes v c) := by
  have hmod := (Nat.mod_modEq (v.firstClusterSector + (c + 2 ^ 32 - 2) * v.sectorsPerCluster)
    (2 ^ 32)).mul_right v.bytesPerSector
  simp only [fatReadCluster, if_pos (show 0 < v.sectorsPerCluster by omega)]
  rw [readSectors_eq hb, read_byteAt_congr v hmod, Nat.mul_comm v.sectorsPerCluster]
  rfl

end YakOS
