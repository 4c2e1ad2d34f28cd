import Mathlib.Data.Set.Finite.Basic
import Mathlib.Order.Preorder.Finite
import YakOS.Lib.Run
import YakOS.Fs.Chain
import YakOS.Fs.Memory
import YakOS.Fs.RootDir

/-!
# Looking a name up

`fatfs_lookup` compares the name with every 32-byte slot of the directory, cluster by cluster
along the chain, and does not look at the marks that the listing honours: a slot behind the
end marker, a deleted one or one of a long name is found like any other.  The loop has no bound
of its own.  It ends at a cluster with the name, at one that cannot be read, and at the end of
the chain, so that it goes on forever on a chain that comes back to itself.  It needs a cluster
buffer, a FAT buffer for every cluster that it passes, and a dirent for what it finds; in the root
directory, a dirent and a sector buffer.

## Main definitions

* `FatfsPriv.chain` — the clusters of a chain.
* `FatfsPriv.Passes` — the loop goes past a cluster.
* `FatfsPriv.Loops` — the chain comes back to itself before the name is met.
* `dirSlot` — the slots of a directory.
* `FirstFrom`, `FirstLive` — the first slot of a name, and the first live one.
* `lookupRequests` — what a lookup asks for on its way to a slot.

## Main results

* `lookupRoundsGiven_walking_iff` — where the loop stands after some rounds.
* `lookup_terminates_iff` — **when a lookup ends.**
* `fatfsLookup_found_iff` — a lookup finds the first slot of the name, if it is given the memory.
* `lookup_first_live_iff` — **when that is the first live one.**
-/

namespace YakOS

open Bytes

/-! ### Clusters of a chain -/

namespace FatfsPriv

variable {fs : FatfsPriv} {name : List UInt8} {c e n : ℕ}

/-- The value behind `c` in the FAT, if `c` is not the end of the chain. -/
def next (fs : FatfsPriv) (c : ℕ) : Option ℕ :=
  if c < fs.opvector.fatMaxCluster then fs.opvector.fatNextCluster fs.toVolume c else none

/-- The `n`-th cluster of the chain of `c`, or the value that ends it. -/
def chain (fs : FatfsPriv) (c n : ℕ) : Option ℕ := (fun o => o.bind fs.next)^[n] (some c)

@[simp] theorem chain_zero (fs : FatfsPriv) (c : ℕ) : fs.chain c 0 = some c := rfl

theorem chain_succ (fs : FatfsPriv) (c n : ℕ) : fs.chain c (n + 1) = (fs.chain c n).bind fs.next :=
  Function.iterate_succ_apply' _ n _

/-- The chain of `c` goes on with that of the cluster behind it. -/
theorem chain_succ_left (fs : FatfsPriv) (c n : ℕ) :
    fs.chain c (n + 1) = (fs.next c).bind fun c' => fs.chain c' n := by
  induction n with
  | zero =>
    rw [chain_succ, chain_zero, Option.bind_some]
    cases fs.next c <;> rfl
  | succ n ih =>
    rw [chain_succ, ih]
    cases hnext : fs.next c with
    | none => rfl
    | some c' => exact (chain_succ fs c' n).symm

/-- A chain that reaches a place has passed every one before it. -/
theorem chain_isSome_of_le {m : ℕ} (h : (fs.chain c n).isSome) (hle : m ≤ n) : (fs.chain c m).isSome := by
  induction n with
  | zero =>
    obtain rfl := Nat.le_zero.mp hle
    exact h
  | succ n ih =>
    rcases Nat.le_or_eq_of_le_succ hle with hle | rfl
    · refine ih ?_ hle
      rw [chain_succ] at h
      exact Option.isSome_of_isSome_bind h
    · exact h

/-- A cluster that the chain goes on behind. -/
theorem lt_of_chain_succ (h : fs.chain c n = some e) (hsome : (fs.chain c (n + 1)).isSome) :
    e < fs.opvector.fatMaxCluster := by
  by_contra hge
  rw [chain_succ, h, Option.bind_some, next, if_neg hge] at hsome
  cases hsome

/-- The loop goes past the cluster `c`: it is read, and none of its slots has the name. -/
def Passes (fs : FatfsPriv) (name : List UInt8) (c : ℕ) : Prop :=
  ∃ buf, fatReadCluster fs.toVolume c = some buf ∧
    fatDirentLookup buf (fs.bytesPerCluster / 32) name = none

end FatfsPriv

variable {fs : FatfsPriv} {name : List UInt8} {c e n : ℕ}

theorem lookupRoundGiven_walking_iff :
    lookupRoundGiven fs name c = .walking e ↔ fs.next c = some e ∧ fs.Passes name c := by
  unfold lookupRoundGiven FatfsPriv.next FatfsPriv.Passes
  split
  · cases hread : fatReadCluster fs.toVolume c with
    | none => simp
    | some buf =>
      cases hfind : fatDirentLookup buf (fs.bytesPerCluster / 32) name with
      | some d => simp [hfind]
      | none => cases hnext : fs.opvector.fatNextCluster fs.toVolume c <;> simp [hfind]
  · simp

/-- **Where the loop stands after `n` rounds**, if it has passed every cluster before. -/
theorem lookupRoundsGiven_walking_iff : lookupRoundsGiven fs name n c = .walking e ↔
    fs.chain c n = some e ∧ ∀ k < n, ∀ c', fs.chain c k = some c' → fs.Passes name c' := by
  induction n generalizing c with
  | zero => simp [lookupRoundsGiven]
  | succ n ih =>
    have hrounds : lookupRoundsGiven fs name (n + 1) c = .walking e ↔
        ∃ c', lookupRoundGiven fs name c = .walking c' ∧ lookupRoundsGiven fs name n c' = .walking e := by
      refine ⟨lookupRoundsGiven_succ, ?_⟩
      rintro ⟨c', hround, hrest⟩
      rw [lookupRoundsGiven, hround]
      exact hrest
    rw [hrounds, FatfsPriv.chain_succ_left]
    constructor
    · rintro ⟨c', hround, hrest⟩
      obtain ⟨hnext, hpass⟩ := lookupRoundGiven_walking_iff.mp hround
      obtain ⟨hchain, hall⟩ := ih.mp hrest
      rw [hnext]
      refine ⟨hchain, ?_⟩
      intro k hk d hd
      cases k with
      | zero => exact Option.some.inj hd ▸ hpass
      | succ k =>
        rw [FatfsPriv.chain_succ_left, hnext] at hd
        exact hall k (Nat.lt_of_succ_lt_succ hk) d hd
    · rintro ⟨hchain, hall⟩
      obtain ⟨c', hnext, hchain⟩ := Option.bind_eq_some_iff.mp hchain
      refine ⟨c', lookupRoundGiven_walking_iff.mpr ⟨hnext, hall 0 (Nat.succ_pos n) c rfl⟩,
        ih.mpr ⟨hchain, fun k hk d hd => hall (k + 1) (Nat.succ_lt_succ hk) d ?_⟩⟩
      rw [FatfsPriv.chain_succ_left, hnext]
      exact hd

/-! ### When a lookup ends -/

/-- The chain of `c` comes back to one of its clusters, and the loop goes past every cluster
before. -/
def FatfsPriv.Loops (fs : FatfsPriv) (name : List UInt8) (c : ℕ) : Prop :=
  ∃ i j, i < j ∧ (fs.chain c j).isSome ∧ fs.chain c i = fs.chain c j ∧
    ∀ k < j, ∀ c', fs.chain c k = some c' → fs.Passes name c'

/-- **The loop goes on forever exactly when the chain comes back**: there are only so many clusters
below `fat_max_cluster`. -/
theorem loops_iff : fs.Loops name c ↔ ∀ n, ∃ e, lookupRoundsGiven fs name n c = .walking e := by
  constructor
  -- every place of the chain is one of those before it comes back
  · rintro ⟨i, j, hij, hsome, hback, hpass⟩ n
    have hrepeat := Run.iterate_of_lasso hij hback
    obtain ⟨k, hk, heq⟩ := hrepeat n
    obtain ⟨e, he⟩ := Option.isSome_iff_exists.mp (FatfsPriv.chain_isSome_of_le hsome hk.le)
    refine ⟨e, lookupRoundsGiven_walking_iff.mpr ⟨heq.trans he, ?_⟩⟩
    intro m _ c' hc'
    obtain ⟨k', hk', heq'⟩ := hrepeat m
    exact hpass k' hk' c' (heq'.symm.trans hc')
  -- a chain that never ends repeats a cluster
  · intro h
    have hchain : ∀ n, ∃ e < fs.opvector.fatMaxCluster, fs.chain c n = some e := by
      intro n
      obtain ⟨e, he⟩ := h n
      obtain ⟨e', he'⟩ := h (n + 1)
      have hhere := (lookupRoundsGiven_walking_iff.mp he).1
      have hnext := (lookupRoundsGiven_walking_iff.mp he').1
      exact ⟨e, FatfsPriv.lt_of_chain_succ hhere (Option.isSome_iff_exists.mpr ⟨e', hnext⟩), hhere⟩
    have hmem : ∀ n, fs.chain c n ∈ Set.image some {i | i < fs.opvector.fatMaxCluster} := by
      intro n
      obtain ⟨e, hlt, he⟩ := hchain n
      exact ⟨e, hlt, he.symm⟩
    obtain ⟨i, j, hij, hback⟩ :=
      Set.Finite.exists_lt_map_eq_of_forall_mem hmem ((Set.finite_lt_nat _).image some)
    obtain ⟨e, he⟩ := h j
    obtain ⟨hsome, hpass⟩ := lookupRoundsGiven_walking_iff.mp he
    exact ⟨i, j, hij, Option.isSome_iff_exists.mpr ⟨e, hsome⟩, hback, hpass⟩

/-- The loop of `fatfs_root`, as `rootRounds`; `none` when it needs more than `fuel` rounds. -/
def rootWithin (v : Volume) (name : List UInt8) : ℕ → ℕ → ℕ → Option (Option Found)
  | 0, _, _ => none
  | fuel + 1, idx, count =>
      if count < v.rootEntries then
        match fatReadSector v idx with
        | none => some none
        | some buf =>
            let dpcnt := v.bytesPerSector / 32
            let dpcnt := if dpcnt + count > v.rootEntries then v.rootEntries - count else dpcnt
            match fatDirentLookup buf dpcnt name with
            | some e => some (some ⟨e.length, e.clusterEntry, e.attr⟩)
            | none => rootWithin v name fuel ((idx + 1) % 2 ^ 32) (count + dpcnt)
      else some none

/-- **The search of the root directory ends**: each round passes an entry. -/
theorem rootWithin_eq {v : Volume} {fuel idx count : ℕ} (h : v.rootEntries - count < fuel) :
    rootWithin v name fuel idx count = some (rootRounds v name fuel idx count) := by
  induction fuel generalizing idx count with
  | zero => exact absurd h (Nat.not_lt_zero _)
  | succ fuel ih =>
    rw [rootWithin, rootRounds]
    split
    next hlt =>
      unfold fatReadSector
      by_cases hb : 512 ≤ v.bytesPerSector
      · simp only [if_pos hb]
        cases fatDirentLookup _ _ name with
        | some e => rfl
        | none =>
          refine ih ?_
          split <;> omega
      · simp only [if_neg hb]
    next => rfl

/-- `fatfs_lookup`, with at most `n` rounds of the loop it comes to; `none` when that needs more. -/
def lookupWithin (fs : FatfsPriv) (n : ℕ) (d : FatfsDirent) (name : List UInt8) : Option (Option Found) :=
  if d.flag &&& 0xFF00 ≠ 0 then rootWithin fs.toVolume name n (rootSector fs.toVolume) 0
  else fatfsLookupGiven fs n d name

theorem lookupWithin_root {d : FatfsDirent} (hroot : d.flag &&& 0xFF00 ≠ 0) :
    lookupWithin fs (fs.rootEntries + 1) d name = fatfsLookupGiven fs n d name := by
  rw [lookupWithin, if_pos hroot, rootWithin_eq (by omega), fatfsLookupGiven, if_pos hroot]
  rfl

/-- **A lookup ends exactly when** the directory is the root directory or no directory, or its
chain does not come back to a cluster before the name is met. -/
theorem lookup_terminates_iff (fs : FatfsPriv) (d : FatfsDirent) (name : List UInt8) :
    (∃ n found, lookupWithin fs n d name = some found) ↔
      d.flag &&& 0xFF00 ≠ 0 ∨ ¬ isDir d.flag ∨ ¬ fs.Loops name d.entry := by
  by_cases hroot : d.flag &&& 0xFF00 ≠ 0
  · refine iff_of_true ⟨fs.rootEntries + 1, fatfsRootGiven fs.toVolume name, ?_⟩ (Or.inl hroot)
    rw [lookupWithin_root (n := 0) hroot, fatfsLookupGiven, if_pos hroot]
  · rw [or_iff_right hroot]
    by_cases hdir : isDir d.flag
    · rw [or_iff_right (not_not_intro hdir), loops_iff, not_forall]
      apply exists_congr
      intro n
      rw [lookupWithin, if_neg hroot, fatfsLookupGiven, if_neg hroot, if_neg (not_not_intro hdir)]
      cases lookupRoundsGiven fs name n d.entry with
      | walking e => simp
      | done found => simp
    · refine iff_of_true ⟨0, none, ?_⟩ (Or.inl hdir)
      rw [lookupWithin, if_neg hroot, fatfsLookupGiven, if_neg hroot, if_pos hdir]

/-- A FAT16 volume whose entry for cluster 2 is 2. -/
def loopingVolume : FatfsPriv where
  image := fun a => if a = 516 then 2 else 0
  bytesPerSector := 512
  sectorsPerCluster := 1
  firstClusterSector := 3
  reservedSector := 1
  sectorsPerFat := 1
  numberOfFAT := 1
  rootEntries := 16
  bytesPerSector_lt := Volume.sectorBytes_lt
  sectorsPerCluster_lt := Volume.clusterSectors_lt
  opvector := fat16fsOpvector fun _ => 0

/-- A lookup in the directory of cluster 2 does not end. -/
theorem lookup_looping : ¬ ∀ (fs : FatfsPriv) (d : FatfsDirent) (name : List UInt8),
    ∃ n found, lookupWithin fs n d name = some found := by
  intro h
  obtain ⟨n, found, hfound⟩ := h loopingVolume ⟨0, 2, 0, 0, 2, 0x10⟩ [0x41]
  have hloops : loopingVolume.Loops [0x41] 2 := by
    refine ⟨0, 1, by decide, by decide +kernel, by decide +kernel, ?_⟩
    intro k hk c' hc'
    obtain rfl : k = 0 := by omega
    obtain rfl : 2 = c' := Option.some.inj hc'
    exact ⟨clusterBytes loopingVolume.toVolume 2, fatReadCluster_eq (by decide) (by decide) 2,
      by decide +kernel⟩
  obtain ⟨e, he⟩ := loops_iff.mp hloops n
  have hnone : lookupWithin loopingVolume n ⟨0, 2, 0, 0, 2, 0x10⟩ [0x41] = none := by
    rw [lookupWithin, if_neg (by decide), fatfsLookupGiven, if_neg (by decide), if_neg (by decide), he]
  rw [hnone] at hfound
  cases hfound

/-! ### The slots of a directory -/

/-- A slot has the name as its trimmed 8.3 name; a blank one has none. -/
def FatEntry.Bears (e : FatEntry) (name : List UInt8) : Prop :=
  0 < direntTrim e.name 8 ∧ name83 e = name

instance (e : FatEntry) (name : List UInt8) : Decidable (e.Bears name) :=
  inferInstanceAs (Decidable (_ ∧ _))

theorem bears_eq (e : FatEntry) (name : List UInt8) :
    (decide (0 < direntTrim e.name 8) && strcmp name (name83 e) == 0) = decide (e.Bears name) := by
  rw [Bool.eq_iff_iff, Bool.and_eq_true, decide_eq_true_iff, beq_iff_eq, Bytes.strcmp_eq_zero_iff,
    decide_eq_true_iff, FatEntry.Bears, eq_comm (a := name)]

/-- What `fat_dirent_lookup` finds in a buffer, -/
theorem fatDirentLookup_eq_some_iff {buf : List UInt8} {p : ℕ} {d : FatEntry} :
    fatDirentLookup buf p name = some d ↔
      ∃ j < p, direntAt buf j = d ∧ d.Bears name ∧ ∀ j' < j, ¬ (direntAt buf j').Bears name := by
  unfold fatDirentLookup
  simp only [bears_eq, List.find?_map, Option.map_eq_some_iff, List.find?_range_eq_some,
    List.mem_range, Function.comp_apply, decide_eq_true_iff, Bool.not_eq_true', decide_eq_false_iff_not]
  constructor
  · rintro ⟨j, ⟨hbears, hj, hfirst⟩, rfl⟩
    exact ⟨j, hj, rfl, hbears, hfirst⟩
  · rintro ⟨j, hj, rfl, hbears, hfirst⟩
    exact ⟨j, ⟨hbears, hj, hfirst⟩, rfl⟩

/-- and when it finds nothing. -/
theorem fatDirentLookup_eq_none_iff {buf : List UInt8} {p : ℕ} :
    fatDirentLookup buf p name = none ↔ ∀ j < p, ¬ (direntAt buf j).Bears name := by
  unfold fatDirentLookup
  simp only [bears_eq, List.find?_map, Option.map_eq_none_iff, List.find?_range_eq_none,
    Function.comp_apply, Bool.not_eq_true', decide_eq_false_iff_not]

/-- The `i`-th slot of the root directory, if its sector can be read. -/
def rootSlot (v : Volume) (i : ℕ) : Option FatEntry :=
  if i < v.rootEntries then
    (fatReadSector v ((rootSector v + i / v.entriesPerSector) % 2 ^ 32)).map fun buf =>
      direntAt buf (i % v.entriesPerSector)
  else none

/-- The number of slots in a cluster. -/
def Volume.slotsPerCluster (v : Volume) : ℕ := v.bytesPerCluster / 32

/-- The `i`-th slot of the directory whose first cluster is `c`, if its cluster can be read. -/
def chainSlot (fs : FatfsPriv) (c i : ℕ) : Option FatEntry :=
  (fs.chain c (i / fs.slotsPerCluster)).bind fun c' =>
    if c' < fs.opvector.fatMaxCluster then
      (fatReadCluster fs.toVolume c').map fun buf => direntAt buf (i % fs.slotsPerCluster)
    else none

/-- The `i`-th slot of a directory. -/
def dirSlot (fs : FatfsPriv) (d : FatfsDirent) (i : ℕ) : Option FatEntry :=
  if d.flag &&& 0xFF00 ≠ 0 then rootSlot fs.toVolume i
  else if isDir d.flag then chainSlot fs d.entry i
  else none

/-- What a lookup keeps of a slot; the root directory has no use for the high half of the cluster. -/
def foundAt (fs : FatfsPriv) (d : FatfsDirent) (e : FatEntry) : Found :=
  if d.flag &&& 0xFF00 ≠ 0 then ⟨e.length, e.clusterEntry, e.attr⟩
  else ⟨e.length, (e.clusterEntry ||| e.clusterHigh <<< 16) &&& fs.opvector.fatClusterMask, e.attr⟩

/-- The first slot from `m` on that has the name. -/
structure FirstFrom (slots : ℕ → Option FatEntry) (name : List UInt8) (m i : ℕ) (e : FatEntry) : Prop where
  le : m ≤ i
  slot : slots i = some e
  bears : e.Bears name
  first : ∀ j, m ≤ j → j < i → ∀ e', slots j = some e' → ¬ e'.Bears name

namespace FirstFrom

variable {slots : ℕ → Option FatEntry} {m m' i i' : ℕ} {e e' : FatEntry}

theorem unique (h : FirstFrom slots name m i e) (h' : FirstFrom slots name m i' e') : i = i' ∧ e = e' := by
  obtain rfl : i = i' := by
    rcases lt_trichotomy i i' with hlt | heq | hlt
    · exact absurd h.bears (h'.first i h.le hlt e h.slot)
    · exact heq
    · exact absurd h'.bears (h.first i' h'.le hlt e' h'.slot)
  exact ⟨rfl, Option.some.inj (h.slot.symm.trans h'.slot)⟩

/-- Slots without the name can be left out. -/
theorem skip_iff (hle : m ≤ m') (h : ∀ j, m ≤ j → j < m' → ∀ e', slots j = some e' → ¬ e'.Bears name) :
    FirstFrom slots name m i e ↔ FirstFrom slots name m' i e := by
  constructor
  · intro hfirst
    refine ⟨?_, hfirst.slot, hfirst.bears, fun j hj => hfirst.first j (hle.trans hj)⟩
    by_contra hlt
    exact h i hfirst.le (Nat.not_le.mp hlt) e hfirst.slot hfirst.bears
  · intro hfirst
    refine ⟨hle.trans hfirst.le, hfirst.slot, hfirst.bears, ?_⟩
    intro j hj hji
    rcases Nat.lt_or_ge j m' with hlt | hge
    · exact h j hj hlt
    · exact hfirst.first j hge hji

/-- If some slot has the name, there is a first one. -/
theorem exists_of_bears (hi : slots i = some e) (hbears : e.Bears name) :
    ∃ j e', FirstFrom slots name 0 j e' ∧ j ≤ i := by
  induction i using Nat.strongRecOn generalizing e with
  | ind i ih =>
    by_cases hearlier : ∃ j < i, ∃ e', slots j = some e' ∧ e'.Bears name
    · obtain ⟨j, hj, e', hslot, hname⟩ := hearlier
      obtain ⟨k, d, hfirst, hk⟩ := ih j hj hslot hname
      exact ⟨k, d, hfirst, hk.trans hj.le⟩
    · refine ⟨i, e, ⟨Nat.zero_le i, hi, hbears, fun j _ hj e' hslot hname => ?_⟩, le_rfl⟩
      exact hearlier ⟨j, hj, e', hslot, hname⟩

theorem ne_none (h : FirstFrom slots name m i e) : slots i ≠ none := by
  rw [h.slot]
  exact Option.some_ne_none e

/-- What is found in a buffer of slots is the first of them with the name, -/
theorem of_lookup {buf : List UInt8} {n : ℕ} (hslot : ∀ j < n, slots (m + j) = some (direntAt buf j))
    (h : fatDirentLookup buf n name = some e) : ∃ j < n, FirstFrom slots name m (m + j) e := by
  obtain ⟨j, hj, rfl, hbears, hother⟩ := fatDirentLookup_eq_some_iff.mp h
  refine ⟨j, hj, Nat.le_add_right m j, hslot j hj, hbears, ?_⟩
  intro i hi hij e' he' hname
  obtain ⟨t, rfl⟩ := Nat.exists_eq_add_of_le hi
  rw [hslot t (by omega)] at he'
  exact hother t (by omega) (Option.some.inj he' ▸ hname)

/-- and a buffer in which nothing is found can be left out. -/
theorem skip_buffer {buf : List UInt8} {n : ℕ} (hslot : ∀ j < n, slots (m + j) = some (direntAt buf j))
    (h : fatDirentLookup buf n name = none) :
    FirstFrom slots name m i e ↔ FirstFrom slots name (m + n) i e := by
  refine skip_iff (Nat.le_add_right m n) ?_
  intro j hj hjn e' he' hname
  obtain ⟨t, rfl⟩ := Nat.exists_eq_add_of_le hj
  rw [hslot t (by omega)] at he'
  exact fatDirentLookup_eq_none_iff.mp h t (by omega) (Option.some.inj he' ▸ hname)

end FirstFrom

/-! ### What is found -/

/-- The slot `j` of the `k`-th run of `n` slots. -/
theorem slot_div_mod {n j : ℕ} (k : ℕ) (hj : j < n) : (k * n + j) / n = k ∧ (k * n + j) % n = j := by
  refine (Nat.div_mod_unique (Nat.zero_lt_of_lt hj)).mpr ⟨?_, hj⟩
  rw [Nat.mul_comm, Nat.add_comm]

theorem rootSlot_eq {v : Volume} (hb : 512 ≤ v.bytesPerSector) {k j : ℕ} (hj : j < v.entriesPerSector)
    (hlt : k * v.entriesPerSector + j < v.rootEntries) :
    rootSlot v (k * v.entriesPerSector + j) = some (direntAt (Bytes.read v.byteAt
      ((rootSector v + k) % 2 ^ 32 * v.bytesPerSector) v.bytesPerSector) j) := by
  obtain ⟨hdiv, hmod⟩ := slot_div_mod k hj
  rw [rootSlot, if_pos hlt, hdiv, hmod, fatReadSector, if_pos hb]
  rfl

theorem rootSlot_of_ge {v : Volume} {i : ℕ} (h : v.rootEntries ≤ i) : rootSlot v i = none :=
  if_neg (Nat.not_lt.mpr h)

theorem rootSlot_of_small {v : Volume} (hb : ¬ 512 ≤ v.bytesPerSector) (i : ℕ) : rootSlot v i = none := by
  rw [rootSlot, fatReadSector, if_neg hb]
  split <;> rfl

/-- **The search of the root directory** finds the first slot of the name. -/
theorem rootRounds_eq_some_iff {v : Volume} {fuel k count : ℕ} {found : Found}
    (hcount : count = k * v.entriesPerSector ∨ v.rootEntries ≤ count)
    (hfuel : v.rootEntries - count < fuel) :
    rootRounds v name fuel ((rootSector v + k) % 2 ^ 32) count = some found ↔
      ∃ i e, FirstFrom (rootSlot v) name count i e ∧ found = ⟨e.length, e.clusterEntry, e.attr⟩ := by
  induction fuel generalizing k count with
  | zero => exact absurd hfuel (Nat.not_lt_zero _)
  | succ fuel ih =>
    rw [rootRounds]
    by_cases hlt : count < v.rootEntries
    · obtain rfl := hcount.resolve_right (Nat.not_le.mpr hlt)
      rw [if_pos hlt]
      by_cases hb : 512 ≤ v.bytesPerSector
      · have hpos := Volume.entriesPerSector_pos hb
        rw [fatReadSector, if_pos hb]
        obtain ⟨n, hn⟩ : ∃ n, (if v.bytesPerSector / 32 + k * v.entriesPerSector > v.rootEntries
          then v.rootEntries - k * v.entriesPerSector else v.bytesPerSector / 32) = n := ⟨_, rfl⟩
        have hle : n ≤ v.entriesPerSector ∧ k * v.entriesPerSector + n ≤ v.rootEntries ∧ 0 < n ∧
            (n = v.entriesPerSector ∨ v.rootEntries ≤ k * v.entriesPerSector + n) := by
          have heps : v.entriesPerSector = v.bytesPerSector / 32 := rfl
          split at hn <;> omega
        obtain ⟨hle, hroot, hnpos, hend⟩ := hle
        have hslot : ∀ j < n, rootSlot v (k * v.entriesPerSector + j) = some (direntAt
            (Bytes.read v.byteAt ((rootSector v + k) % 2 ^ 32 * v.bytesPerSector) v.bytesPerSector) j) :=
          fun j hj => rootSlot_eq hb (by omega) (by omega)
        simp only [hn]
        cases hfind : fatDirentLookup (Bytes.read v.byteAt
            ((rootSector v + k) % 2 ^ 32 * v.bytesPerSector) v.bytesPerSector) n name with
        | some e =>
          obtain ⟨j, -, hfirst⟩ := FirstFrom.of_lookup hslot hfind
          constructor
          · intro h
            exact ⟨_, e, hfirst, (Option.some.inj h).symm⟩
          · rintro ⟨i', e', h, rfl⟩
            rw [(h.unique hfirst).2]
        | none =>
          -- the next round begins at the next sector, or there is none
          have hnext : k * v.entriesPerSector + n = (k + 1) * v.entriesPerSector ∨
              v.rootEntries ≤ k * v.entriesPerSector + n := by
            rw [Nat.succ_mul]
            omega
          rw [Nat.mod_add_mod, Nat.add_assoc, ih hnext (by omega)]
          refine exists_congr fun i => exists_congr fun e => and_congr_left' ?_
          exact (FirstFrom.skip_buffer hslot hfind).symm
      · rw [fatReadSector, if_neg hb]
        refine iff_of_false (Option.some_ne_none _).symm ?_
        rintro ⟨i, e, hfirst, -⟩
        exact hfirst.ne_none (rootSlot_of_small hb i)
    · rw [if_neg hlt]
      refine iff_of_false (Option.some_ne_none _).symm ?_
      rintro ⟨i, e, hfirst, -⟩
      exact hfirst.ne_none (rootSlot_of_ge ((Nat.not_lt.mp hlt).trans hfirst.le))

/-- The slots of the `k`-th cluster of a chain. -/
theorem chainSlot_eq {c' k j : ℕ} {buf : List UInt8} (hchain : fs.chain c k = some c')
    (hmax : c' < fs.opvector.fatMaxCluster) (hread : fatReadCluster fs.toVolume c' = some buf)
    (hj : j < fs.slotsPerCluster) :
    chainSlot fs c (k * fs.slotsPerCluster + j) = some (direntAt buf j) := by
  obtain ⟨hdiv, hmod⟩ := slot_div_mod k hj
  rw [chainSlot, hdiv, hmod, hchain, Option.bind_some, if_pos hmax, hread]
  rfl

/-- A slot lies in a cluster of the chain that is read. -/
theorem exists_of_chainSlot {i : ℕ} {d : FatEntry} (h : chainSlot fs c i = some d) :
    ∃ c' buf, fs.chain c (i / fs.slotsPerCluster) = some c' ∧ c' < fs.opvector.fatMaxCluster ∧
      fatReadCluster fs.toVolume c' = some buf ∧ direntAt buf (i % fs.slotsPerCluster) = d := by
  obtain ⟨c', hchain, h⟩ := Option.bind_eq_some_iff.mp h
  split at h
  next hmax =>
    obtain ⟨buf, hread, hd⟩ := Option.map_eq_some_iff.mp h
    exact ⟨c', buf, hchain, hmax, hread, hd⟩
  next => cases h

/-- When a cluster can be read, every cluster can. -/
theorem geometry_of_read {v : Volume} {buf : List UInt8} (h : fatReadCluster v c = some buf) :
    512 ≤ v.bytesPerSector ∧ 1 ≤ v.sectorsPerCluster := by
  unfold fatReadCluster at h
  split at h
  next hs =>
    obtain ⟨n, hn⟩ := Nat.exists_eq_add_of_le' hs
    rw [hn, readSectors, fatReadSector] at h
    refine ⟨?_, hs⟩
    by_contra hb
    rw [if_neg hb] at h
    cases h
  next => cases h

/-- The loop ends in a round of its own. -/
theorem lookupRoundsGiven_done_iff {found : Option Found} :
    (∃ n, lookupRoundsGiven fs name n c = .done found) ↔
    ∃ k c', lookupRoundsGiven fs name k c = .walking c' ∧ lookupRoundGiven fs name c' = .done found := by
  constructor
  · rintro ⟨n, h⟩
    induction n generalizing c with
    | zero => cases h
    | succ n ih =>
      rw [lookupRoundsGiven] at h
      cases hround : lookupRoundGiven fs name c with
      | walking c' =>
        rw [hround] at h
        obtain ⟨k, c'', hwalk, hdone⟩ := ih h
        exact ⟨k + 1, c'', by rw [lookupRoundsGiven, hround]; exact hwalk, hdone⟩
      | done found' =>
        rw [hround] at h
        cases h
        exact ⟨0, c, rfl, hround⟩
  · rintro ⟨k, c', hwalk, hdone⟩
    refine ⟨k + 1, ?_⟩
    induction k generalizing c with
    | zero =>
      obtain rfl := LookupState.walking.inj hwalk
      rw [lookupRoundsGiven, hdone]
    | succ k ih =>
      obtain ⟨d, hround, hrest⟩ := lookupRoundsGiven_succ hwalk
      rw [lookupRoundsGiven, hround]
      exact ih hrest

/-- A round that finds the name. -/
theorem lookupRoundGiven_found_iff {found : Found} : lookupRoundGiven fs name c = .done (some found) ↔
    c < fs.opvector.fatMaxCluster ∧ ∃ buf e, fatReadCluster fs.toVolume c = some buf ∧
      fatDirentLookup buf fs.slotsPerCluster name = some e ∧ found = ⟨e.length,
        (e.clusterEntry ||| e.clusterHigh <<< 16) &&& fs.opvector.fatClusterMask, e.attr⟩ := by
  unfold lookupRoundGiven Volume.slotsPerCluster
  split
  next hmax =>
    rw [and_iff_right hmax]
    cases fatReadCluster fs.toVolume c with
    | none => simp
    | some buf =>
      cases hfind : fatDirentLookup buf (fs.bytesPerCluster / 32) name with
      | some d => simp [hfind, eq_comm]
      | none => cases hnext : fs.opvector.fatNextCluster fs.toVolume c <;> simp [hfind]
  next hmax => simp [hmax]

/-- The clusters that the loop has passed can be left out. -/
theorem FirstFrom.skip_chain {k i : ℕ} {d : FatEntry}
    (hpass : ∀ m < k, ∀ c', fs.chain c m = some c' → fs.Passes name c') :
    FirstFrom (chainSlot fs c) name 0 i d ↔
      FirstFrom (chainSlot fs c) name (k * fs.slotsPerCluster) i d := by
  refine skip_iff (Nat.zero_le _) ?_
  intro j _ hj d' hd' hname
  obtain ⟨c', buf, hchain, -, hread, rfl⟩ := exists_of_chainSlot hd'
  obtain ⟨buf', hread', hnone⟩ := hpass _ (Nat.div_lt_of_lt_mul (by rwa [Nat.mul_comm])) c' hchain
  obtain rfl := Option.some.inj (hread.symm.trans hread')
  have hpos : 0 < fs.slotsPerCluster := Nat.pos_of_mul_pos_left (Nat.zero_lt_of_lt hj)
  exact fatDirentLookup_eq_none_iff.mp hnone _ (Nat.mod_lt _ hpos) hname

/-- Before it comes to the first slot of the name, the loop goes past every cluster. -/
theorem FirstFrom.passes {i : ℕ} {e : FatEntry} (h : FirstFrom (chainSlot fs c) name 0 i e) :
    ∀ m < i / fs.slotsPerCluster, ∀ d, fs.chain c m = some d → fs.Passes name d := by
  intro m hm d hd
  obtain ⟨c', buf, hchain, -, hread, -⟩ := exists_of_chainSlot h.slot
  obtain ⟨hb, hs⟩ := geometry_of_read hread
  have hsome : (fs.chain c (i / fs.slotsPerCluster)).isSome := Option.isSome_iff_exists.mpr ⟨c', hchain⟩
  have hmax : d < fs.opvector.fatMaxCluster :=
    FatfsPriv.lt_of_chain_succ hd (FatfsPriv.chain_isSome_of_le hsome hm)
  have hread' := fatReadCluster_eq hb hs d
  refine ⟨_, hread', fatDirentLookup_eq_none_iff.mpr ?_⟩
  intro j hj hname
  have hj' : j < fs.slotsPerCluster := hj
  -- the slots of an earlier cluster come before the `i`-th
  have hlt : m * fs.slotsPerCluster + j < i := by
    calc m * fs.slotsPerCluster + j < m * fs.slotsPerCluster + fs.slotsPerCluster := by omega
      _ = (m + 1) * fs.slotsPerCluster := (Nat.succ_mul _ _).symm
      _ ≤ i / fs.slotsPerCluster * fs.slotsPerCluster := Nat.mul_le_mul_right _ hm
      _ ≤ i := Nat.div_mul_le_self _ _
  exact h.first _ (Nat.zero_le _) hlt _ (chainSlot_eq hd hmax hread' hj') hname

/-- **The search of a cluster chain** finds the first slot of the name, in the cluster where that lies. -/
theorem chain_found_iff {k : ℕ} {found : Found} :
    (∃ c', lookupRoundsGiven fs name k c = .walking c' ∧
        lookupRoundGiven fs name c' = .done (some found)) ↔
      ∃ i e, FirstFrom (chainSlot fs c) name 0 i e ∧ i / fs.slotsPerCluster = k ∧ found = ⟨e.length,
        (e.clusterEntry ||| e.clusterHigh <<< 16) &&& fs.opvector.fatClusterMask, e.attr⟩ := by
  constructor
  · rintro ⟨c', hwalk, hround⟩
    obtain ⟨hmax, buf, e, hread, hfind, rfl⟩ := lookupRoundGiven_found_iff.mp hround
    obtain ⟨hchain, hpass⟩ := lookupRoundsGiven_walking_iff.mp hwalk
    obtain ⟨j, hj, hfirst⟩ :=
      FirstFrom.of_lookup (fun j hj => chainSlot_eq hchain hmax hread hj) hfind
    exact ⟨_, e, (FirstFrom.skip_chain hpass).mpr hfirst, (slot_div_mod k hj).1, rfl⟩
  · rintro ⟨i, e, hfirst, rfl, rfl⟩
    obtain ⟨c', buf, hchain, hmax, hread, he⟩ := exists_of_chainSlot hfirst.slot
    obtain ⟨hb, hs⟩ := geometry_of_read hread
    have hpos : 0 < fs.slotsPerCluster :=
      Nat.div_pos ((show 32 ≤ 512 * 1 by decide).trans (Nat.mul_le_mul hb hs)) (by decide)
    have hdiv := Nat.div_add_mod' i fs.slotsPerCluster
    refine ⟨c', lookupRoundsGiven_walking_iff.mpr ⟨hchain, hfirst.passes⟩,
      lookupRoundGiven_found_iff.mpr ⟨hmax, buf, e, hread, ?_, rfl⟩⟩
    refine fatDirentLookup_eq_some_iff.mpr ⟨i % fs.slotsPerCluster, Nat.mod_lt _ hpos, he,
      hfirst.bears, ?_⟩
    intro j hj hname
    exact hfirst.first (i / fs.slotsPerCluster * fs.slotsPerCluster + j) (Nat.zero_le _) (by omega) _
      (chainSlot_eq hchain hmax hread (hj.trans (Nat.mod_lt _ hpos))) hname

theorem lookupRoundsGiven_found_iff {found : Found} :
    (∃ n, lookupRoundsGiven fs name n c = .done (some found)) ↔
      ∃ i e, FirstFrom (chainSlot fs c) name 0 i e ∧ found = ⟨e.length,
        (e.clusterEntry ||| e.clusterHigh <<< 16) &&& fs.opvector.fatClusterMask, e.attr⟩ := by
  simp only [lookupRoundsGiven_done_iff, chain_found_iff]
  constructor
  · rintro ⟨k, i, e, hfirst, -, rfl⟩
    exact ⟨i, e, hfirst, rfl⟩
  · rintro ⟨i, e, hfirst, rfl⟩
    exact ⟨_, i, e, hfirst, rfl, rfl⟩

/-- A lookup that is given its memory finds the first slot of the name, live or not. -/
theorem fatfsLookupGiven_found_iff {d : FatfsDirent} {found : Found} :
    (∃ n, fatfsLookupGiven fs n d name = some (some found)) ↔
      ∃ i e, FirstFrom (dirSlot fs d) name 0 i e ∧ found = foundAt fs d e := by
  unfold fatfsLookupGiven dirSlot foundAt
  by_cases hroot : d.flag &&& 0xFF00 ≠ 0
  · simp only [if_pos hroot, exists_const, Option.some.injEq]
    have hstart : fatfsRootGiven fs.toVolume name = rootRounds fs.toVolume name (fs.rootEntries + 1)
        ((rootSector fs.toVolume + 0) % 2 ^ 32) 0 :=
      congrArg (rootRounds fs.toVolume name (fs.rootEntries + 1) · 0) (Nat.mod_mod _ _).symm
    rw [hstart]
    exact rootRounds_eq_some_iff (Or.inl (Nat.zero_mul _).symm) (by omega)
  · simp only [if_neg hroot]
    by_cases hdir : isDir d.flag
    · simp only [if_neg (not_not_intro hdir), if_pos hdir]
      rw [← lookupRoundsGiven_found_iff]
      apply exists_congr
      intro n
      cases lookupRoundsGiven fs name n d.entry with
      | walking e => simp
      | done found' => simp
    · simp only [if_pos hdir, if_neg hdir]
      refine iff_of_false (by simp) ?_
      rintro ⟨i, e, hfirst, -⟩
      exact hfirst.ne_none rfl

/-! ### The memory of a lookup -/

/-- What a lookup asks for on its way to the `i`-th slot. -/
def lookupRequests (fs : FatfsPriv) (d : FatfsDirent) (i : ℕ) : List Request :=
  .keep fs.bytesPerCluster ::
    if d.flag &&& 0xFF00 ≠ 0 then [.keep direntSize, .keep fs.bytesPerSector]
    else
      List.replicate (i / fs.slotsPerCluster) (.pass (fs.bytesPerSector * fs.opvector.bufferSectors)) ++
        [.keep direntSize]

section Memory

variable {μ : Type} {H : Allocator μ} {m : μ}

theorem fatfsRoot_found_iff {v : Volume} {found : Found} :
    (∃ s, fatfsRoot H v name (.fresh m) = some (some found, s)) ↔
      fatfsRootGiven v name = some found ∧ H.Grants m [.keep direntSize, .keep v.bytesPerSector] := by
  rw [fatfsRoot, Allocator.request_bind]
  rcases hp : H.alloc m direntSize with ⟨_ | p, m₁⟩
  · exact iff_of_false (fun ⟨s, hs⟩ => by cases hs) fun h => Allocator.not_grants_keep hp h.2
  simp only [Allocator.grants_keep hp, Allocator.request_bind]
  rcases hq : H.alloc m₁ v.bytesPerSector with ⟨_ | q, m₂⟩
  · exact iff_of_false (fun ⟨s, hs⟩ => by cases hs) fun h => Allocator.not_grants_keep hq h.2
  rw [and_iff_left ((Allocator.grants_keep hq).mpr Allocator.grants_nil)]
  cases fatfsRootGiven v name with
  | none => exact iff_of_false (fun ⟨s, hs⟩ => by cases hs) fun h => by cases h
  | some found' =>
    constructor
    · rintro ⟨s, hs⟩
      cases hs
      rfl
    · intro h
      cases h
      exact ⟨_, rfl⟩

/-- A round that goes on asks for a FAT buffer, -/
theorem lookupRound_walking {buf c c' : ℕ} (h : lookupRoundGiven fs name c = .walking c') :
    lookupRound H fs name buf c (.fresh m) =
      match H.alloc m (fs.bytesPerSector * fs.opvector.bufferSectors) with
      | (some p, m) => some (.walking c', .fresh (H.free m p))
      | (none, m) => some (.done none, .spent (H.free m buf)) := by
  obtain ⟨hnext, bytes, hread, hfind⟩ := lookupRoundGiven_walking_iff.mp h
  unfold FatfsPriv.next at hnext
  split at hnext
  next hmax =>
    simp only [lookupRound, if_pos hmax, hread, hfind, fatNextCluster, bind_assoc,
      Allocator.request_bind, hnext]
    rcases H.alloc m (fs.bytesPerSector * fs.opvector.bufferSectors) with ⟨_ | p, m'⟩ <;> rfl
  next => cases hnext

/-- one that finds the name for a dirent, -/
theorem lookupRound_found {buf c : ℕ} {found : Found}
    (h : lookupRoundGiven fs name c = .done (some found)) :
    lookupRound H fs name buf c (.fresh m) =
      match H.alloc m direntSize with
      | (some _, m) => some (.done (some found), .fresh (H.free m buf))
      | (none, m) => some (.done none, .spent m) := by
  obtain ⟨hmax, bytes, e, hread, hfind, rfl⟩ := lookupRoundGiven_found_iff.mp h
  unfold Volume.slotsPerCluster at hfind
  simp only [lookupRound, if_pos hmax, hread, hfind, Allocator.request_bind]
  rcases H.alloc m direntSize with ⟨_ | p, m'⟩ <;> rfl

/-- and one that ends without it comes to nothing. -/
theorem lookupRound_none {buf c : ℕ} (h : lookupRoundGiven fs name c = .done none) :
    ∃ s, lookupRound H fs name buf c (.fresh m) = some (.done none, s) := by
  have hround := @lookupRound_outcome μ H fs name buf c m
  rw [h] at hround
  cases hx : lookupRound H fs name buf c (.fresh m) with
  | none =>
    rw [hx] at hround
    cases hround
  | some q =>
    obtain ⟨r, s⟩ := q
    rcases hround.of_some hx with hr | rfl
    · exact ⟨s, by rw [Option.some.inj hr]⟩
    · exact ⟨s, rfl⟩

/-- **The loop of `fatfs_lookup`** finds what it finds with all its memory, if it is given a FAT
buffer for each cluster before and a dirent. -/
theorem lookupRounds_found_iff {buf : ℕ} {found : Found} :
    (∃ n s, lookupRounds H fs name buf n c (.fresh m) = some (.done (some found), s)) ↔
      ∃ k, (∃ c', lookupRoundsGiven fs name k c = .walking c' ∧
          lookupRoundGiven fs name c' = .done (some found)) ∧
        H.Grants m (List.replicate k (.pass (fs.bytesPerSector * fs.opvector.bufferSectors)) ++
          [.keep direntSize]) := by
  constructor
  · rintro ⟨n, s, h⟩
    induction n generalizing c m with
    | zero => cases h
    | succ n ih =>
      rw [lookupRounds, Allocator.bind_apply] at h
      cases hround : lookupRoundGiven fs name c with
      | walking c' =>
        rw [lookupRound_walking hround] at h
        rcases halloc : H.alloc m (fs.bytesPerSector * fs.opvector.bufferSectors) with ⟨_ | p, m'⟩
        · rw [halloc] at h
          cases h
        · rw [halloc] at h
          obtain ⟨k, ⟨c'', hwalk, hdone⟩, hgrants⟩ := ih h
          refine ⟨k + 1, ⟨c'', ?_, hdone⟩, (Allocator.grants_pass halloc).mpr hgrants⟩
          rw [lookupRoundsGiven, hround]
          exact hwalk
      | done found' =>
        cases found' with
        | none =>
          obtain ⟨s', hs'⟩ := @lookupRound_none fs name μ H m buf c hround
          rw [hs'] at h
          cases h
        | some found' =>
          rw [lookupRound_found hround] at h
          rcases halloc : H.alloc m direntSize with ⟨_ | p, m'⟩
          · rw [halloc] at h
            cases h
          · rw [halloc] at h
            cases h
            exact ⟨0, ⟨c, rfl, hround⟩, (Allocator.grants_keep halloc).mpr Allocator.grants_nil⟩
  · rintro ⟨k, ⟨c', hwalk, hdone⟩, hgrants⟩
    induction k generalizing c m with
    | zero =>
      obtain rfl := LookupState.walking.inj hwalk
      rcases halloc : H.alloc m direntSize with ⟨_ | p, m'⟩
      · exact absurd hgrants (Allocator.not_grants_keep halloc)
      · refine ⟨1, .fresh (H.free m' buf), ?_⟩
        rw [lookupRounds, Allocator.bind_apply, lookupRound_found hdone, halloc]
        rfl
    | succ k ih =>
      obtain ⟨d, hround, hrest⟩ := lookupRoundsGiven_succ hwalk
      rcases halloc : H.alloc m (fs.bytesPerSector * fs.opvector.bufferSectors) with ⟨_ | p, m'⟩
      · exact absurd hgrants (Allocator.not_grants_pass halloc)
      · obtain ⟨n, s, hn⟩ := ih ((Allocator.grants_pass halloc).mp hgrants) hrest
        refine ⟨n + 1, s, ?_⟩
        rw [lookupRounds, Allocator.bind_apply, lookupRound_walking hround, halloc]
        exact hn

/-- What follows the rounds: only their result is returned. -/
theorem bind_done_iff {x : Allocator.Prog μ LookupState}
    {k : LookupState → Allocator.Prog μ (Option Found)} (hwalking : ∀ c, k (.walking c) = failure)
    (hdone : ∀ r, k (.done r) = pure r) {found : Found} {s s' : Allocator.Store μ} :
    (x >>= k) s = some (some found, s') ↔ x s = some (.done (some found), s') := by
  rw [Allocator.bind_apply]
  rcases x s with _ | ⟨c | r, s''⟩
  · exact iff_of_false (fun h => by cases h) fun h => by cases h
  · rw [Option.bind_some, hwalking]
    exact iff_of_false (fun h => by cases h) fun h => by cases h
  · simp [hdone, Allocator.pure_apply]

/-- **`fatfs_lookup` finds the first slot of the name**, live or not, if it is given the memory it asks
for on its way there. -/
theorem fatfsLookup_found_iff {d : FatfsDirent} {found : Found} :
    (∃ n s, fatfsLookup H fs n d name (.fresh m) = some (some found, s)) ↔
      ∃ i e, FirstFrom (dirSlot fs d) name 0 i e ∧ found = foundAt fs d e ∧
        H.Grants m (lookupRequests fs d i) := by
  unfold lookupRequests fatfsLookup
  simp only [Allocator.request_bind]
  rcases halloc : H.alloc m fs.bytesPerCluster with ⟨_ | buf, m'⟩
  · constructor
    · rintro ⟨n, s, hs⟩
      cases hs
    · rintro ⟨i, e, -, -, hgrants⟩
      exact absurd hgrants (Allocator.not_grants_keep halloc)
  simp only [Allocator.grants_keep halloc]
  by_cases hroot : d.flag &&& 0xFF00 ≠ 0
  · have hgiven := @fatfsLookupGiven_found_iff fs name d found
    simp only [fatfsLookupGiven, if_pos hroot, exists_const, Option.some.injEq] at hgiven ⊢
    rw [fatfsRoot_found_iff, hgiven]
    simp only [← and_assoc, exists_and_right]
  · simp only [if_neg hroot]
    unfold dirSlot foundAt
    by_cases hdir : isDir d.flag
    · simp only [if_neg hroot, if_neg (not_not_intro hdir), if_pos hdir]
      refine (exists_congr fun n => exists_congr fun s =>
        bind_done_iff (fun c => by rfl) fun r => by rfl).trans (lookupRounds_found_iff.trans ?_)
      simp only [chain_found_iff]
      constructor
      · rintro ⟨k, ⟨i, e, hfirst, rfl, rfl⟩, hgrants⟩
        exact ⟨i, e, hfirst, rfl, hgrants⟩
      · rintro ⟨i, e, hfirst, rfl, hgrants⟩
        exact ⟨_, ⟨i, e, hfirst, rfl, rfl⟩, hgrants⟩
    · simp only [if_neg hroot, if_pos hdir, if_neg hdir]
      constructor
      · rintro ⟨n, s, hs⟩
        cases hs
      · rintro ⟨i, e, hfirst, -⟩
        exact absurd rfl hfirst.ne_none

end Memory

/-! ### Live slots -/

/-- A slot before the end marker that is neither deleted nor part of a long name. -/
structure LiveSlot (slots : ℕ → Option FatEntry) (i : ℕ) (e : FatEntry) : Prop where
  slot : slots i = some e
  live : e.isLive = true
  beforeEnd : ∀ j ≤ i, ∀ e', slots j = some e' → e'.isZero = false

/-- The first live slot that has the name. -/
structure FirstLive (slots : ℕ → Option FatEntry) (name : List UInt8) (i : ℕ) (e : FatEntry) :
    Prop where
  live : LiveSlot slots i e
  bears : e.Bears name
  first : ∀ j < i, ∀ e', LiveSlot slots j e' → ¬ e'.Bears name

/-- A name begins with the first character of its slot. -/
theorem FatEntry.Bears.head? {e : FatEntry} (h : e.Bears name) : name.head? = e.name.head? := by
  obtain ⟨hpos, rfl⟩ := h
  cases hname : e.name with
  | nil =>
    rw [hname] at hpos
    exact absurd hpos (by decide)
  | cons c cs =>
    obtain ⟨k, hk⟩ := Nat.exists_eq_add_of_le' hpos
    rw [name83, hk, hname]
    rfl

/-- So a deleted slot has no name in common with one that is not. -/
theorem FatEntry.Bears.isDeleted_eq {e e' : FatEntry} (h : e.Bears name) (h' : e'.Bears name) :
    e.isDeleted = e'.isDeleted := by
  rw [isDeleted, isDeleted, ← h.head?, ← h'.head?]

theorem flag_foundAt (fs : FatfsPriv) (d : FatfsDirent) (e : FatEntry) : (foundAt fs d e).flag = e.attr := by
  unfold foundAt
  split <;> rfl

/-- The first slot of the name is the first live one, if it is live. -/
theorem FirstFrom.firstLive_iff {slots : ℕ → Option FatEntry} {i i' : ℕ} {e e' : FatEntry}
    (h : FirstFrom slots name 0 i e) (hlive : LiveSlot slots i e) :
    FirstLive slots name i' e' ↔ i' = i ∧ e' = e := by
  constructor
  · intro h'
    rcases lt_trichotomy i' i with hlt | rfl | hlt
    · exact absurd h'.bears (h.first i' (Nat.zero_le _) hlt e' h'.live.slot)
    · exact ⟨rfl, Option.some.inj (h'.live.slot.symm.trans hlive.slot)⟩
    · exact absurd h.bears (h'.first i hlt e hlive)
  · rintro ⟨rfl, rfl⟩
    exact ⟨hlive, h.bears, fun j hj d hd => h.first j (Nat.zero_le _) hj d hd.slot⟩

/-- If what is found for the first slot is right, then it is live: a deleted slot differs in its name
from a live one, and one of a long name in its attribute. -/
theorem FirstFrom.live_of_foundAt_eq {d : FatfsDirent} {i i' : ℕ} {e e' : FatEntry}
    (h : FirstFrom (dirSlot fs d) name 0 i e) (h' : FirstLive (dirSlot fs d) name i' e')
    (heq : foundAt fs d e = foundAt fs d e') : LiveSlot (dirSlot fs d) i e := by
  have hle : i ≤ i' := by
    by_contra hlt
    exact h.first i' (Nat.zero_le _) (Nat.not_le.mp hlt) e' h'.live.slot h'.bears
  refine ⟨h.slot, ?_, fun j hj => h'.live.beforeEnd j (hj.trans hle)⟩
  have hattr : e.attr = e'.attr := by rw [← flag_foundAt fs d e, ← flag_foundAt fs d e', heq]
  have hlong : e.isLongName = e'.isLongName := by rw [FatEntry.isLongName, FatEntry.isLongName, hattr]
  have hlive := h'.live.live
  rwa [FatEntry.isLive, ← hlong, ← h.bears.isDeleted_eq h'.bears] at hlive

/-- **A lookup succeeds for the first live slot of the name, and only for it, exactly when** the
first slot of the name, among all the slots of the directory, is live and the memory grants what the
lookup asks for on its way there, or there is no live slot of the name and the memory does not. -/
theorem lookup_first_live_iff {μ : Type} (H : Allocator μ) (m : μ) (fs : FatfsPriv) (d : FatfsDirent)
    (name : List UInt8) :
    (∀ found, (∃ n s, fatfsLookup H fs n d name (.fresh m) = some (some found, s)) ↔
        ∃ i e, FirstLive (dirSlot fs d) name i e ∧ found = foundAt fs d e) ↔
      ∀ i e, FirstFrom (dirSlot fs d) name 0 i e →
        if H.Grants m (lookupRequests fs d i) then LiveSlot (dirSlot fs d) i e
        else ∀ i' e', ¬ FirstLive (dirSlot fs d) name i' e' := by
  simp only [fatfsLookup_found_iff]
  constructor
  · intro h i e hfirst
    split
    next hgrants =>
      obtain ⟨i', e', hlive, heq⟩ := (h _).mp ⟨i, e, hfirst, rfl, hgrants⟩
      exact hfirst.live_of_foundAt_eq hlive heq
    next hgrants =>
      intro i' e' hlive
      obtain ⟨j, d', hfirst', -, hgrants'⟩ := (h _).mpr ⟨i', e', hlive, rfl⟩
      obtain ⟨rfl, -⟩ := hfirst.unique hfirst'
      exact hgrants hgrants'
  · intro h found
    constructor
    · rintro ⟨i, e, hfirst, rfl, hgrants⟩
      have hlive := h i e hfirst
      rw [if_pos hgrants] at hlive
      exact ⟨i, e, (hfirst.firstLive_iff hlive).mpr ⟨rfl, rfl⟩, rfl⟩
    · rintro ⟨i, e, hlive, rfl⟩
      obtain ⟨j, e', hfirst, -⟩ := FirstFrom.exists_of_bears hlive.live.slot hlive.bears
      have hslot := h j e' hfirst
      split at hslot
      next hgrants =>
        obtain ⟨rfl, rfl⟩ := (hfirst.firstLive_iff hslot).mp hlive
        exact ⟨i, e, hfirst, rfl, hgrants⟩
      next => exact absurd hlive (hslot i e)

/-- A FAT16 volume whose root directory has the end marker in its first slot, and a stale entry `A`
behind it. -/
def staleVolume : FatfsPriv where
  image := fun a => if a = 1056 then 0x41 else if 1056 < a ∧ a < 1068 then 0x20 else 0
  bytesPerSector := 512
  sectorsPerCluster := 1
  firstClusterSector := 3
  reservedSector := 1
  sectorsPerFat := 1
  numberOfFAT := 1
  rootEntries := 16
  bytesPerSector_lt := Volume.sectorBytes_lt
  sectorsPerCluster_lt := Volume.clusterSectors_lt
  opvector := fat16fsOpvector fun _ => 0

/-- The stale entry is found on the heap of `kmalloc_init`. -/
theorem lookup_stale : ¬ ∀ (h : Heap) (fs : FatfsPriv) (d : FatfsDirent) (name : List UInt8) (found : Found),
    (∃ n s, fatfsLookup kernelAllocator fs n d name (.fresh h) = some (some found, s)) ↔
      ∃ i e, FirstLive (dirSlot fs d) name i e ∧ found = foundAt fs d e := by
  intro hall
  have hfound : bootHeap.map (fun h => (fatfsLookup kernelAllocator staleVolume 0 rootDirent [0x41]
      (.fresh h)).map Prod.fst) = some (some (some ⟨0, 0, 0x20⟩)) := by
    decide +kernel
  obtain ⟨h, -, hfound⟩ := Option.map_eq_some_iff.mp hfound
  obtain ⟨⟨_, s⟩, hfound, rfl⟩ := Option.map_eq_some_iff.mp hfound
  obtain ⟨i, e, hlive, -⟩ := (hall h staleVolume rootDirent [0x41] _).mp ⟨0, s, hfound⟩
  have hmarker : (dirSlot staleVolume rootDirent 0).map FatEntry.isZero = some true := by
    decide +kernel
  obtain ⟨e', he', hzero⟩ := Option.map_eq_some_iff.mp hmarker
  rw [hlive.live.beforeEnd 0 (Nat.zero_le i) e' he'] at hzero
  cases hzero

end YakOS
