import YakOS.Fs.Chain

/-!
# Entries of the FAT

The FAT is a byte sequence, from sector `reserved_sector` on, that packs an entry of 12, 16
or 32 bits for each cluster.  `fat_next_cluster` reads the sector that the entry begins in,
and the next one as well when a 12-bit entry begins in the last byte.

## Main definitions

* `fatByte` — the bytes of the FAT.

## Main results

* `bufByte_fatSector` — a sector buffer holds bytes of the FAT.
* `fat_entries_read` — **`fat_next_cluster` returns the entry of the cluster.**
-/

namespace YakOS

open Bytes

/-- The bytes of the FAT, from sector `reserved_sector` on. -/
def fatByte (v : Volume) (i : ℕ) : UInt8 := v.byteAt (v.reservedSector * v.bytesPerSector + i)

variable {v : Volume} {slack : ℕ → UInt8} {c : ℕ}

theorem fatReadSector_eq (hb : 512 ≤ v.bytesPerSector) (sector : ℕ) :
    fatReadSector v sector = some (read v.byteAt (sector * v.bytesPerSector) v.bytesPerSector) :=
  if_pos hb

/-- Sector `k` of the FAT, and what lies behind it. -/
theorem bufByte_fatSector (v : Volume) (slack : ℕ → UInt8) (k : ℕ) {n b : ℕ} (hb : b < n) :
    bufByte slack (Bytes.read v.byteAt ((v.reservedSector + k) % 2 ^ 32 * v.bytesPerSector) n) b
      = fatByte v (k * v.bytesPerSector + b) := by
  have hmod : (v.reservedSector + k) % 2 ^ 32 * v.bytesPerSector
      ≡ v.reservedSector * v.bytesPerSector + k * v.bytesPerSector [MOD 2 ^ 32] := by
    rw [← Nat.add_mul]
    exact (Nat.mod_modEq (v.reservedSector + k) (2 ^ 32)).mul_right v.bytesPerSector
  rw [read_byteAt_congr v hmod]
  unfold bufByte Bytes.read
  rw [List.getElem?_map, List.getElem?_range hb]
  show v.byteAt _ = v.byteAt _
  rw [Nat.add_assoc]

theorem u16_fatSector (v : Volume) (slack : ℕ → UInt8) (k : ℕ) {n b : ℕ} (hb : b + 2 ≤ n) :
    u16 (bufByte slack (Bytes.read v.byteAt
        ((v.reservedSector + k) % 2 ^ 32 * v.bytesPerSector) n)) b
      = u16 (fatByte v) (k * v.bytesPerSector + b) := by
  unfold u16
  rw [bufByte_fatSector v slack k (by omega), bufByte_fatSector v slack k (by omega)]
  rfl

theorem u32_fatSector (v : Volume) (slack : ℕ → UInt8) (k : ℕ) {n b : ℕ} (hb : b + 4 ≤ n) :
    u32 (bufByte slack (Bytes.read v.byteAt
        ((v.reservedSector + k) % 2 ^ 32 * v.bytesPerSector) n)) b
      = u32 (fatByte v) (k * v.bytesPerSector + b) := by
  unfold u32
  rw [u16_fatSector v slack k (by omega), u16_fatSector v slack k (by omega)]
  rfl

/-- An entry of `e` bytes lies in one sector when `e` divides the size of the sectors. -/
theorem entry_in_sector {e n : ℕ} (c : ℕ) (hn : 0 < n) (hdvd : e ∣ n) :
    c * e % n / e * e = c * e % n ∧ c * e % n + e ≤ n := by
  have hdvd' : e ∣ c * e % n := (Nat.dvd_mod_iff hdvd).mpr (Nat.dvd_mul_left e c)
  refine ⟨Nat.div_mul_cancel hdvd', ?_⟩
  have hlt : c * e % n < n := Nat.mod_lt _ hn
  obtain ⟨k, hk⟩ := hdvd'
  obtain ⟨l, hl⟩ := hdvd
  rw [hk, hl] at hlt ⊢
  have hkl : k + 1 ≤ l := Nat.lt_of_mul_lt_mul_left hlt
  calc e * k + e = e * (k + 1) := (Nat.mul_succ e k).symm
    _ ≤ e * l := Nat.mul_le_mul_left e hkl

/-! ### The three types -/

/-- `fat_next_cluster16` returns the entry of the cluster, -/
theorem fatNextCluster16_eq (hb : 512 ≤ v.bytesPerSector) (hdvd : 2 ∣ v.bytesPerSector)
    (hc : c * 2 < 2 ^ 32) : fatNextCluster16 slack v c = some (field (fatByte v) 16 c) := by
  obtain ⟨hexact, hle⟩ := entry_in_sector c (by omega) hdvd
  have hdiv := Nat.div_add_mod' (c * 2) v.bytesPerSector
  have hfield : field (fatByte v) 16 c = u16 (fatByte v) (c * 2) := by
    have hbits : 16 * c = 8 * (c * 2) + 0 := by omega
    rw [field_eq _ hbits, number_two, Nat.pow_zero, Nat.div_one, Nat.mod_eq_of_lt (u16_lt _ _)]
  unfold fatNextCluster16
  simp only [Nat.mod_eq_of_lt hc, fatReadSector_eq hb, ← Nat.mod_eq_sub, hexact, Option.bind_eq_bind,
    Option.bind_some, Option.pure_def]
  rw [u16_fatSector v slack _ hle, hdiv, hfield]

/-- and so does `fat_next_cluster32`. -/
theorem fatNextCluster32_eq (hb : 512 ≤ v.bytesPerSector) (hdvd : 4 ∣ v.bytesPerSector)
    (hc : c * 4 < 2 ^ 32) : fatNextCluster32 slack v c = some (field (fatByte v) 32 c) := by
  obtain ⟨hexact, hle⟩ := entry_in_sector c (by omega) hdvd
  have hdiv := Nat.div_add_mod' (c * 4) v.bytesPerSector
  have hfield : field (fatByte v) 32 c = u32 (fatByte v) (c * 4) := by
    have hbits : 32 * c = 8 * (c * 4) + 0 := by omega
    rw [field_eq _ hbits, number_four, Nat.pow_zero, Nat.div_one, Nat.mod_eq_of_lt (u32_lt _ _)]
  unfold fatNextCluster32
  simp only [Nat.mod_eq_of_lt hc, fatReadSector_eq hb, ← Nat.mod_eq_sub, hexact, Option.bind_eq_bind,
    Option.bind_some, Option.pure_def]
  rw [u32_fatSector v slack _ hle, hdiv, hfield]

/-- Two sectors of the FAT in a row. -/
theorem read_fatSectors (v : Volume) (k : ℕ) :
    Bytes.read v.byteAt ((v.reservedSector + k) % 2 ^ 32 * v.bytesPerSector) v.bytesPerSector ++
        Bytes.read v.byteAt ((v.reservedSector + k + 1) % 2 ^ 32 * v.bytesPerSector) v.bytesPerSector
      = Bytes.read v.byteAt ((v.reservedSector + k) % 2 ^ 32 * v.bytesPerSector)
          (v.bytesPerSector + v.bytesPerSector) := by
  have hmod : (v.reservedSector + k + 1) % 2 ^ 32 * v.bytesPerSector
      ≡ (v.reservedSector + k) % 2 ^ 32 * v.bytesPerSector + v.bytesPerSector [MOD 2 ^ 32] := by
    have hsucc : (v.reservedSector + k + 1) % 2 ^ 32 ≡ (v.reservedSector + k) % 2 ^ 32 + 1 [MOD 2 ^ 32] :=
      (Nat.mod_modEq _ _).trans ((Nat.mod_modEq (v.reservedSector + k) (2 ^ 32)).symm.add_right 1)
    have hmul := hsucc.mul_right v.bytesPerSector
    rwa [Nat.succ_mul] at hmul
  rw [read_append, read_byteAt_congr v hmod]

/-- `fat_next_cluster12` reads the two bytes of its entry, from two sectors when the first is the
last of its sector. -/
theorem fatNextCluster12_eq (hb : 512 ≤ v.bytesPerSector) (hc : c * 12 < 2 ^ 32) :
    fatNextCluster12 slack v c = some (field (fatByte v) 12 c) := by
  obtain ⟨k, hk⟩ : ∃ k, c * 12 / (v.bytesPerSector * 8) = k := ⟨_, rfl⟩
  obtain ⟨bits, hbits⟩ : ∃ bits, c * 12 % (v.bytesPerSector * 8) = bits := ⟨_, rfl⟩
  have hlt : bits < v.bytesPerSector * 8 := hbits ▸ Nat.mod_lt _ (by omega)
  have hsub : c * 12 - v.bytesPerSector * 8 * k = bits := by rw [← hk, ← Nat.mod_eq_sub, hbits]
  have hdiv : 12 * c = 8 * (k * v.bytesPerSector + bits / 8) + bits % 8 := by
    have hmod := Nat.div_add_mod' (c * 12) (v.bytesPerSector * 8)
    rw [hk, hbits, ← Nat.mul_assoc] at hmod
    omega
  have hentry : ∀ n, bits / 8 + 2 ≤ n → u16 (bufByte slack (Bytes.read v.byteAt
      ((v.reservedSector + k) % 2 ^ 32 * v.bytesPerSector) n)) (bits / 8)
        = u16 (fatByte v) (k * v.bytesPerSector + bits / 8) :=
    fun n hn => u16_fatSector v slack k hn
  have hfield : field (fatByte v) 12 c = if bits % 8 ≠ 0
      then u16 (fatByte v) (k * v.bytesPerSector + bits / 8) / 2 ^ 4
      else u16 (fatByte v) (k * v.bytesPerSector + bits / 8) % 2 ^ 12 := by
    have hword := u16_lt (fatByte v) (k * v.bytesPerSector + bits / 8)
    rw [field_eq _ hdiv]
    obtain hr | hr : bits % 8 = 0 ∨ bits % 8 = 4 := by omega
    · rw [hr, number_two, Nat.pow_zero, Nat.div_one]
      rfl
    · rw [hr, number_two, if_pos (by decide)]
      omega
  unfold fatNextCluster12
  simp only [Nat.mod_eq_of_lt hc, fatReadSector_eq hb, hk, hsub, Option.bind_eq_bind,
    Option.bind_some, Option.pure_def]
  split
  next hlast =>
    -- the entry straddles two sectors
    rw [read_fatSectors, hentry _ (by omega), hfield]
  next hlast =>
    rw [List.append_nil, hentry _ (by omega), hfield]

/-- **`fat_next_cluster` returns the entry of the cluster**: the 12, 16 or 32 bits that the FAT packs
for it. -/
theorem fat_entries_read (slack : ℕ → UInt8) (v : Volume) (c : ℕ) (hb : 512 ≤ v.bytesPerSector)
    (hdvd : 4 ∣ v.bytesPerSector) (hc : c * 12 < 2 ^ 32) :
    fatNextCluster12 slack v c = some (field (fatByte v) 12 c) ∧
      fatNextCluster16 slack v c = some (field (fatByte v) 16 c) ∧
        fatNextCluster32 slack v c = some (field (fatByte v) 32 c) := by
  refine ⟨fatNextCluster12_eq hb hc, ?_, ?_⟩
  · exact fatNextCluster16_eq hb (dvd_trans (by decide) hdvd) (by omega)
  · exact fatNextCluster32_eq hb hdvd (by omega)

/-- In the volume below, the 12-bit entry of cluster 341 begins in the last byte of a sector. -/
def straddlingVolume : Volume where
  image := fun a => if a = 1023 then 0xBF else if a = 1024 then 0xCA else 0
  bytesPerSector := 512
  sectorsPerCluster := 1
  firstClusterSector := 4
  reservedSector := 1
  sectorsPerFat := 2
  numberOfFAT := 1
  rootEntries := 0
  bytesPerSector_lt := Volume.sectorBytes_lt
  sectorsPerCluster_lt := Volume.clusterSectors_lt

theorem fat_entries_read_straddling :
    fatNextCluster12 (fun _ => 0) straddlingVolume 341 = some 0xCAB ∧
      fatNextCluster16 (fun _ => 0) straddlingVolume 341 = some 0 ∧
        fatNextCluster32 (fun _ => 0) straddlingVolume 341 = some 0 := by
  have h := fat_entries_read (fun _ => 0) straddlingVolume 341 (by decide) (by decide) (by decide)
  have h12 : field (fatByte straddlingVolume) 12 341 = 0xCAB := by decide +kernel
  have h16 : field (fatByte straddlingVolume) 16 341 = 0 := by decide +kernel
  have h32 : field (fatByte straddlingVolume) 32 341 = 0 := by decide +kernel
  rwa [h12, h16, h32] at h

end YakOS
