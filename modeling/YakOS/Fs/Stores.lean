import YakOS.Fs.Lookup
import YakOS.Fs.SameFile

/-!
# What a read stores

`fatfs_pread` once more, with every byte that `memcpy` stores in the caller's buffer.  The sums of the code
are words, and one of them decides how much of a cluster is copied: when it wraps, `memcpy` goes on behind
the buffer of the cluster.  `YakOS.Fs.Pread` ends its copy there; for counts below `2 ^ 31`, where nothing
wraps, the two agree.

## Main definitions

* `seekCluster` — the part of `fatfs_pread` that moves the cursor.
* `fatfsPreadStores` — the code, with the bytes it stores.
* `LeadsOn`, `Reaches` — how far a chain goes.

## Main results

* `seekCluster_ok_iff` — the cursor gets to an offset exactly when the chain does.
* `fatfsPreadStores_spec` — **a call ends, and stores and returns at most the count.**
* `fatfsPreadStores_eq` — it is the call of `YakOS.Fs.Pread` when nothing wraps.
-/

namespace YakOS

open Bytes

/-! ### The code -/

/-- `-1`, converted to a `size_t`. -/
def minusOne : ℕ := 2 ^ 32 - 1

/-- The cursor goes back to the first cluster for an offset before it. -/
def rewind (file : FatfsDirent) (off : ℕ) : FatfsDirent :=
  if off < file.offset then { file with cluster := file.entry, offset := 0 } else file

/-- The part of `fatfs_pread` that moves the cursor to the cluster of an offset. -/
def seekCluster (fs : FatfsPriv) (file : FatfsDirent) (off : ℕ) :
    Except (FatfsDirent × ℤ) FatfsDirent :=
  walkClustersGiven fs ((off - (rewind file off).offset) / fs.bytesPerCluster) (rewind file off)

/-- What a call leaves behind: the file, the value returned, as a word, and the bytes stored from the start
of the caller's buffer on. -/
abbrev StoreResult := FatfsDirent × ℕ × List UInt8

/-- The loop at the end of `fatfs_pread`; `data` are the bytes stored so far. -/
def restStores (pread : FatfsDirent → ℕ → ℕ → Option StoreResult) :
    ℕ → FatfsDirent → ℕ → ℕ → List UInt8 → Option StoreResult
  | 0, _, _, _, _ => none
  | n + 1, file, count, off, data =>
    if off < file.length ∧ count > 0 then do
      let (file, hr, more) ← pread file count off
      if hr = minusOne then return (file, minusOne, data ++ more)
      if hr = 0 then return (file, data.length % 2 ^ 32, data ++ more)
      restStores pread n file ((count + 2 ^ 32 - hr) % 2 ^ 32) ((off + hr) % 2 ^ 32) (data ++ more)
    else some (file, data.length % 2 ^ 32, data)

/-- The number of bytes copied out of one cluster: the sum is a word. -/
def copied (bytesPerCluster clusterOffset count : ℕ) : ℕ :=
  if bytesPerCluster > (clusterOffset + count) % 2 ^ 32 then count else bytesPerCluster - clusterOffset

/-- `fatfs_pread` after its checks; behind the buffer of the cluster stands whatever the heap holds. -/
def bodyStores (fs : FatfsPriv) (slack : ℕ → UInt8)
    (pread : FatfsDirent → ℕ → ℕ → Option StoreResult) (n : ℕ) (file : FatfsDirent) (count off : ℕ) :
    Option StoreResult :=
  match seekCluster fs file off with
  | .error (file, ret) => some (file, if ret = -1 then minusOne else 0, [])
  | .ok file =>
    match fatReadCluster fs.toVolume file.cluster with
    | none => some (file, minusOne, [])
    | some clusterBuffer =>
      let clusterOffset := off - file.offset
      let cpcnt := copied fs.bytesPerCluster clusterOffset count
      let data := read (bufByte slack clusterBuffer) clusterOffset cpcnt
      restStores pread n file (count - cpcnt) ((off + cpcnt) % 2 ^ 32) data

/-- `fatfs_pread`, with at most the given number of nested calls. -/
def fatfsPreadStores (fs : FatfsPriv) (slack : ℕ → UInt8) : ℕ → FatfsDirent → ℕ → ℕ → Option StoreResult
  | 0, _, _, _ => none
  | n + 1, file, count, off =>
    if ¬ isDir file.flag ∧ off > file.length then some (file, minusOne, [])
    else
      let count := if ¬ isDir file.flag ∧ (off + count) % 2 ^ 32 > file.length
        then file.length - off else count
      if count = 0 then some (file, 0, [])
      else bodyStores fs slack (fatfsPreadStores fs slack n) (n + 1) file count off

/-! ### How far a chain goes -/

/-- The chain goes on for `n` clusters behind `c`. -/
def LeadsOn (fs : FatfsPriv) : ℕ → ℕ → Prop
  | _, 0 => True
  | c, n + 1 => ∃ c', fs.opvector.fatNextCluster fs.toVolume c = some c' ∧
      c' < fs.opvector.fatMaxCluster ∧ LeadsOn fs c' n

/-- From its cursor on, the chain of a file has a cluster for an offset, and clusters can be read. -/
structure Reaches (fs : FatfsPriv) (file : FatfsDirent) (off : ℕ) : Prop where
  sector : 512 ≤ fs.bytesPerSector
  cluster : 0 < fs.sectorsPerCluster
  chain : LeadsOn fs file.cluster ((off - file.offset) / fs.bytesPerCluster)

section Chains

variable {fs : FatfsPriv} {file file' : FatfsDirent} {off c m n : ℕ}

theorem rewind_offset_le (file : FatfsDirent) (off : ℕ) : (rewind file off).offset ≤ off := by
  unfold rewind
  split
  · exact Nat.zero_le off
  · omega

theorem rewind_of_le (h : file.offset ≤ off) : rewind file off = file := if_neg (Nat.not_lt.mpr h)

theorem sameFile_rewind (file : FatfsDirent) (off : ℕ) : SameFile file (rewind file off) := by
  unfold rewind
  split
  · exact ⟨rfl, rfl, rfl⟩
  · exact SameFile.refl file

theorem leadsOn_succ : LeadsOn fs c (n + 1) ↔ ∃ c', fs.opvector.fatNextCluster fs.toVolume c = some c' ∧
    c' < fs.opvector.fatMaxCluster ∧ LeadsOn fs c' n := Iff.rfl

theorem LeadsOn.of_le (h : LeadsOn fs c n) (hle : m ≤ n) : LeadsOn fs c m := by
  induction m generalizing c n with
  | zero => trivial
  | succ m ih =>
    cases n with
    | zero => cases hle
    | succ n =>
      obtain ⟨c', hnext, hmax, hrest⟩ := h
      exact ⟨c', hnext, hmax, ih hrest (Nat.le_of_succ_le_succ hle)⟩

/-- The walk gets to the end exactly when the chain goes on that far. -/
theorem walkClustersGiven_isOk_iff :
    (∃ file', walkClustersGiven fs n file = .ok file') ↔ LeadsOn fs file.cluster n := by
  induction n generalizing file with
  | zero => exact iff_of_true ⟨file, rfl⟩ trivial
  | succ n ih =>
    unfold walkClustersGiven LeadsOn
    cases hnext : fs.opvector.fatNextCluster fs.toVolume file.cluster with
    | none => simp
    | some c =>
      dsimp only
      by_cases hmax : c < fs.opvector.fatMaxCluster
      · rw [if_neg (Nat.not_le.mpr hmax), ih]
        simp [hmax]
      · rw [if_pos (Nat.not_lt.mp hmax)]
        simp [hmax]

/-- Behind a walk the chain goes on as it does from its beginning. -/
theorem leadsOn_walkClusters (h : walkClustersGiven fs n file = .ok file') :
    LeadsOn fs file'.cluster m ↔ LeadsOn fs file.cluster (n + m) := by
  induction n generalizing file with
  | zero =>
    obtain rfl := Except.ok.inj h
    rw [Nat.zero_add]
  | succ n ih =>
    unfold walkClustersGiven at h
    cases hnext : fs.opvector.fatNextCluster fs.toVolume file.cluster with
    | none => simp [hnext] at h
    | some c =>
      simp only [hnext] at h
      split at h
      · cases h
      next hmax =>
        rw [ih h, Nat.add_right_comm, leadsOn_succ, hnext]
        simp [Nat.not_le.mp hmax]

/-- The walk moves the offset by a cluster for each round. -/
theorem offset_walkClusters (h : walkClustersGiven fs n file = .ok file')
    (hlt : file.offset + n * fs.bytesPerCluster < 2 ^ 32) :
    file'.offset = file.offset + n * fs.bytesPerCluster := by
  induction n generalizing file with
  | zero =>
    obtain rfl := Except.ok.inj h
    rw [Nat.zero_mul, Nat.add_zero]
  | succ n ih =>
    rw [Nat.succ_mul] at hlt ⊢
    unfold walkClustersGiven at h
    cases hnext : fs.opvector.fatNextCluster fs.toVolume file.cluster with
    | none => simp [hnext] at h
    | some c =>
      simp only [hnext] at h
      split at h
      · cases h
      next hmax =>
        have hmod : (file.offset + fs.bytesPerCluster) % 2 ^ 32 = file.offset + fs.bytesPerCluster :=
          Nat.mod_eq_of_lt (by omega)
        rw [hmod] at h
        rw [ih h (by dsimp only; omega)]
        dsimp only
        omega

/-- A walk that ends early stands on a cluster that the chain does not go on behind. -/
theorem walkClustersGiven_error {ret : ℤ} (h : walkClustersGiven fs n file = .error (file', ret))
    (hlt : file.offset + n * fs.bytesPerCluster < 2 ^ 32) :
    ¬ LeadsOn fs file'.cluster 1 ∧ (ret = -1 ∨ ret = 0) ∧
      ∃ k < n, file'.offset = file.offset + k * fs.bytesPerCluster := by
  induction n generalizing file with
  | zero => cases h
  | succ n ih =>
    unfold walkClustersGiven at h
    cases hnext : fs.opvector.fatNextCluster fs.toVolume file.cluster with
    | none =>
      simp only [hnext] at h
      obtain ⟨rfl, rfl⟩ := Prod.mk.inj (Except.error.inj h)
      refine ⟨?_, Or.inl rfl, 0, Nat.succ_pos n, by omega⟩
      rintro ⟨c', hc', -⟩
      rw [hnext] at hc'
      cases hc'
    | some c =>
      simp only [hnext] at h
      split at h
      next hmax =>
        obtain ⟨rfl, rfl⟩ := Prod.mk.inj (Except.error.inj h)
        refine ⟨?_, Or.inr rfl, 0, Nat.succ_pos n, by omega⟩
        rintro ⟨c', hc', hlt, -⟩
        rw [hnext] at hc'
        obtain rfl := Option.some.inj hc'
        omega
      next hmax =>
        rw [Nat.succ_mul] at hlt
        have hmod : (file.offset + fs.bytesPerCluster) % 2 ^ 32 = file.offset + fs.bytesPerCluster :=
          Nat.mod_eq_of_lt (by omega)
        rw [hmod] at h
        obtain ⟨hend, hret, k, hk, hoff⟩ := ih h (by dsimp only; omega)
        refine ⟨hend, hret, k + 1, Nat.succ_lt_succ hk, ?_⟩
        rw [hoff, Nat.succ_mul]
        dsimp only
        omega

/-- Where the cursor stands when it is moved to an offset. -/
structure Sought (fs : FatfsPriv) (file file' : FatfsDirent) (off : ℕ) : Prop where
  same : SameFile file file'
  le : file'.offset ≤ off
  /-- The offset in the cluster. -/
  rest : off - file'.offset = (off - (rewind file off).offset) % fs.bytesPerCluster
  /-- From there on, the chain goes as far as it did. -/
  chain : ∀ x, off ≤ x → (LeadsOn fs file'.cluster ((x - file'.offset) / fs.bytesPerCluster) ↔
    LeadsOn fs (rewind file off).cluster ((x - (rewind file off).offset) / fs.bytesPerCluster))

/-- It stands on the cluster of that offset. -/
theorem Sought.lt (h : Sought fs file file' off) (hb : 0 < fs.bytesPerCluster) :
    off - file'.offset < fs.bytesPerCluster := by
  rw [h.rest]
  exact Nat.mod_lt _ hb

theorem seekCluster_offset_le (h : seekCluster fs file off = .ok file') (hoff : off < 2 ^ 32) :
    file'.offset ≤ off := by
  unfold seekCluster at h
  have hle := rewind_offset_le file off
  have hdiv : (off - (rewind file off).offset) / fs.bytesPerCluster * fs.bytesPerCluster
      ≤ off - (rewind file off).offset := Nat.div_mul_le_self _ _
  rw [offset_walkClusters h (by omega)]
  omega

theorem seekCluster_ok (h : seekCluster fs file off = .ok file') (hoff : off < 2 ^ 32)
    (hb : 0 < fs.bytesPerCluster) : Sought fs file file' off := by
  unfold seekCluster at h
  have hle := rewind_offset_le file off
  have hsame := (sameFile_rewind file off).trans
    ((walkClustersGiven_sameFile _ _).1 file' h)
  set s := rewind file off
  set k := (off - s.offset) / fs.bytesPerCluster with hk
  have hdiv : fs.bytesPerCluster * k + (off - s.offset) % fs.bytesPerCluster = off - s.offset :=
    Nat.div_add_mod _ _
  rw [Nat.mul_comm] at hdiv
  have hoffset := offset_walkClusters h (by omega)
  have hrest : off - file'.offset = (off - s.offset) % fs.bytesPerCluster := by omega
  refine ⟨hsame, by omega, hrest, ?_⟩
  intro x hx
  have hcluster : (x - s.offset) / fs.bytesPerCluster = k + (x - file'.offset) / fs.bytesPerCluster := by
    rw [show x - s.offset = x - file'.offset + fs.bytesPerCluster * k by rw [Nat.mul_comm]; omega,
      Nat.add_mul_div_left _ _ hb, Nat.add_comm]
  rw [hcluster, leadsOn_walkClusters h]

theorem seekCluster_error {ret : ℤ} (h : seekCluster fs file off = .error (file', ret))
    (hoff : off < 2 ^ 32) : SameFile file file' ∧ (ret = -1 ∨ ret = 0) ∧ file'.offset ≤ off ∧
      ¬ LeadsOn fs file'.cluster ((off - file'.offset) / fs.bytesPerCluster) := by
  unfold seekCluster at h
  have hle := rewind_offset_le file off
  have hsame := (sameFile_rewind file off).trans
    ((walkClustersGiven_sameFile _ _).2 file' ret h)
  set s := rewind file off
  set n := (off - s.offset) / fs.bytesPerCluster
  have hdiv : n * fs.bytesPerCluster ≤ off - s.offset := Nat.div_mul_le_self _ _
  obtain ⟨hend, hret, k, hk, hoffset⟩ := walkClustersGiven_error h (by omega)
  have hb : 0 < fs.bytesPerCluster := by
    by_contra hzero
    have hn : n = 0 := by
      rw [Nat.div_eq_zero_iff]
      omega
    omega
  have hnext : (k + 1) * fs.bytesPerCluster ≤ n * fs.bytesPerCluster := Nat.mul_le_mul_right _ hk
  rw [Nat.succ_mul] at hnext
  refine ⟨hsame, hret, by omega, fun hleads => hend (hleads.of_le ?_)⟩
  rw [Nat.le_div_iff_mul_le hb]
  omega

/-- **The cursor gets to an offset** exactly when the chain does. -/
theorem seekCluster_ok_iff : (∃ file', seekCluster fs file off = .ok file') ↔
    LeadsOn fs (rewind file off).cluster ((off - (rewind file off).offset) / fs.bytesPerCluster) :=
  walkClustersGiven_isOk_iff

end Chains

/-! ### A call ends -/

section Spec

variable {fs : FatfsPriv} {slack : ℕ → UInt8} {file file' : FatfsDirent} {b co count off n : ℕ}

theorem copied_le (hco : co < b) : copied b co count ≤ count := by
  unfold copied
  split <;> omega

theorem copied_pos (hco : co < b) (hcount : 0 < count) : 0 < copied b co count := by
  unfold copied
  split <;> omega

/-- What is copied when the sum does not wrap. -/
theorem copied_of_lt (h : co + count < 2 ^ 32) (hco : co < b) : copied b co count = min count (b - co) := by
  unfold copied
  rw [Nat.mod_eq_of_lt h]
  split <;> omega

/-- When it wraps, all is copied, from one cluster. -/
theorem copied_of_le (h : 2 ^ 32 ≤ co + count) (hco : co < b) (hcount : count < 2 ^ 32) :
    copied b co count = count := by
  unfold copied
  rw [if_pos]
  omega

/-- A call that stores at most the count, and returns `-1` or the number of bytes stored. -/
structure StoreOk (file : FatfsDirent) (count : ℕ) (r : StoreResult) : Prop where
  same : SameFile file r.1
  le : r.2.2.length ≤ count
  ret : r.2.1 = minusOne ∨ r.2.1 = r.2.2.length

/-- A `fatfs_pread` all of whose calls, for a count of at most `bound`, are of this kind. -/
def StoresOk (pread : FatfsDirent → ℕ → ℕ → Option StoreResult) (bound : ℕ) : Prop :=
  ∀ file count off, count ≤ bound → off < 2 ^ 32 → ∃ r, pread file count off = some r ∧ StoreOk file count r

theorem StoresOk.of_le {pread : FatfsDirent → ℕ → ℕ → Option StoreResult} {bound : ℕ}
    (h : StoresOk pread bound) (hle : count ≤ bound) : StoresOk pread count :=
  fun file k off hk => h file k off (Nat.le_trans hk hle)

/-- What is left of the count, as a word. -/
theorem left_eq {k : ℕ} (hle : k ≤ count) (hlt : count < 2 ^ 32) :
    (count + 2 ^ 32 - k) % 2 ^ 32 = count - k := by
  rw [Nat.sub_add_comm hle, Nat.add_mod_right]
  exact Nat.mod_eq_of_lt (by omega)

/-- A regular file's count is cut at its length, not raised. -/
theorem cut_le (hin : ¬ (¬ isDir file.flag ∧ off > file.length)) :
    (if ¬ isDir file.flag ∧ (off + count) % 2 ^ 32 > file.length then file.length - off else count) ≤
      count := by
  split
  next hcut =>
    have := not_and.mp hin hcut.1
    omega
  next => exact Nat.le_refl count

/-- **The loop** stores at most what is left of the count, behind what is stored. -/
theorem restStores_spec {pread : FatfsDirent → ℕ → ℕ → Option StoreResult} (h : StoresOk pread count)
    (file : FatfsDirent) (data : List UInt8) (hn : count < n) (hlt : data.length + count < 2 ^ 32)
    (hoff : off < 2 ^ 32) :
    ∃ r more, restStores pread n file count off data = some r ∧ r.2.2 = data ++ more ∧
      StoreOk file (data.length + count) r := by
  induction n generalizing file count off data with
  | zero => cases hn
  | succ n ih =>
    unfold restStores
    split
    next hgo =>
      obtain ⟨⟨file', hr, more⟩, hcall, hok⟩ := h file count off (Nat.le_refl _) hoff
      have hle : more.length ≤ count := hok.le
      have hlen : (data ++ more).length ≤ data.length + count := by
        rw [List.length_append]
        omega
      rw [hcall]
      simp only [Option.bind_eq_bind, Option.bind_some]
      by_cases hfail : hr = minusOne
      · rw [if_pos hfail]
        exact ⟨_, more, rfl, rfl, hok.same, hlen, Or.inl rfl⟩
      · have hmore : hr = more.length := hok.ret.resolve_left hfail
        rw [if_neg hfail]
        by_cases hzero : hr = 0
        · have hnil : more = [] := List.length_eq_zero_iff.mp (hmore.symm.trans hzero)
          rw [if_pos hzero]
          refine ⟨_, more, rfl, rfl, hok.same, hlen, Or.inr ?_⟩
          rw [hnil, List.append_nil]
          exact Nat.mod_eq_of_lt (by omega)
        · rw [if_neg hzero]
          have hcount : (count + 2 ^ 32 - hr) % 2 ^ 32 = count - more.length := by
            rw [hmore, left_eq hle (by omega)]
          have hoff' : (off + hr) % 2 ^ 32 < 2 ^ 32 := Nat.mod_lt _ (by decide)
          obtain ⟨r, more', hrun, hdata, hok'⟩ := ih
            (h.of_le (by omega : count - more.length ≤ count)) file' (data ++ more) (by omega)
            (by rw [List.length_append]; omega) hoff'
          rw [hcount]
          refine ⟨r, more ++ more', hrun, by rw [hdata, List.append_assoc], hok.same.trans hok'.same, ?_,
            hok'.ret⟩
          refine Nat.le_trans hok'.le ?_
          rw [List.length_append]
          omega
    next =>
      refine ⟨_, [], rfl, (List.append_nil _).symm, SameFile.refl file, Nat.le_add_right _ _, Or.inr ?_⟩
      exact Nat.mod_eq_of_lt (by omega)

/-- Behind the checks, a call stores at most the count. -/
theorem bodyStores_spec (fs : FatfsPriv) (slack : ℕ → UInt8) (file : FatfsDirent)
    {pread : FatfsDirent → ℕ → ℕ → Option StoreResult} (h : StoresOk pread (count - 1))
    (hpos : 0 < count) (hn : count ≤ n) (hlt : count < 2 ^ 32) (hoff : off < 2 ^ 32) :
    ∃ r, bodyStores fs slack pread n file count off = some r ∧ StoreOk file count r := by
  unfold bodyStores
  cases hseek : seekCluster fs file off with
  | error e =>
    obtain ⟨file', ret⟩ := e
    obtain ⟨hsame, -, -, -⟩ := seekCluster_error hseek hoff
    refine ⟨_, rfl, hsame, Nat.zero_le _, ?_⟩
    dsimp only
    split
    · exact Or.inl rfl
    · exact Or.inr rfl
  | ok file' =>
    dsimp only
    cases hread : fatReadCluster fs.toVolume file'.cluster with
    | none =>
      exact ⟨_, rfl, (sameFile_rewind file off).trans ((walkClustersGiven_sameFile _ _).1 file' hseek),
        Nat.zero_le _, Or.inl rfl⟩
    | some clusterBuffer =>
      obtain ⟨hs, hc⟩ := geometry_of_read hread
      have hb : 0 < fs.bytesPerCluster := Nat.mul_pos (by omega) hc
      have hsought := seekCluster_ok hseek hoff hb
      have hco := hsought.lt hb
      dsimp only
      set cpcnt := copied fs.bytesPerCluster (off - file'.offset) count
      have hle : cpcnt ≤ count := copied_le hco
      have hcp : 0 < cpcnt := copied_pos hco hpos
      have hoff' : (off + cpcnt) % 2 ^ 32 < 2 ^ 32 := Nat.mod_lt _ (by decide)
      obtain ⟨r, more, hrun, -, hok⟩ := restStores_spec (h.of_le (by omega)) file'
        (read (bufByte slack clusterBuffer) (off - file'.offset) cpcnt) (by omega : count - cpcnt < n)
        (by rw [length_read]; omega) hoff'
      rw [length_read, Nat.add_sub_cancel' hle] at hok
      exact ⟨r, hrun, hsought.same.trans hok.same, hok.le, hok.ret⟩

/-- **A call of `fatfs_pread` ends**, and it stores and returns at most the count, for every state of the
file, every offset and every count. -/
theorem fatfsPreadStores_spec (fs : FatfsPriv) (slack : ℕ → UInt8) (hn : count < n) (hlt : count < 2 ^ 32) :
    StoresOk (fatfsPreadStores fs slack n) count := by
  induction n generalizing count with
  | zero => cases hn
  | succ n ih =>
    intro file k off hk hoff
    unfold fatfsPreadStores
    split
    · exact ⟨_, rfl, SameFile.refl file, Nat.zero_le _, Or.inl rfl⟩
    · next hin =>
      dsimp only
      set k' := if ¬ isDir file.flag ∧ (off + k) % 2 ^ 32 > file.length then file.length - off else k
      have hle : k' ≤ k := cut_le hin
      split
      · exact ⟨_, rfl, SameFile.refl file, Nat.zero_le _, Or.inr rfl⟩
      · obtain ⟨r, hrun, hok⟩ := bodyStores_spec fs slack file (ih (by omega : k' - 1 < n) (by omega))
          (by omega) (by omega : k' ≤ n + 1) (by omega) hoff
        exact ⟨r, hrun, hok.same, Nat.le_trans hok.le hle, hok.ret⟩

end Spec

/-! ### Reads in which nothing wraps -/

section Agree

variable {fs : FatfsPriv} {slack : ℕ → UInt8} {file : FatfsDirent} {count off n : ℕ}

/-- The result of a call of `YakOS.Fs.Pread`, with its value as a word. -/
def toStores (r : PreadResult) : StoreResult := (r.1, if r.2.1 = -1 then minusOne else r.2.1.toNat, r.2.2)

/-- A call comes to the same in both models, and to `-1` or the number of bytes stored. -/
structure Agree (o : Option PreadResult) (o' : Option StoreResult) (count : ℕ) (r : PreadResult) :
    Prop where
  pread : o = some r
  stores : o' = some (toStores r)
  ret : r.2.1 = -1 ∨ r.2.1 = r.2.2.length
  le : r.2.2.length ≤ count

/-- Inside the buffer of the cluster nothing of the slack is copied. -/
theorem read_bufByte (slack : ℕ → UInt8) {buf : List UInt8} {co cpcnt : ℕ} (h : co + cpcnt ≤ buf.length) :
    read (bufByte slack buf) co cpcnt = (buf.drop co).take cpcnt := by
  apply List.ext_getElem
  · rw [length_read, List.length_take, List.length_drop]
    omega
  · intro i hi _
    rw [length_read] at hi
    rw [List.getElem_take, List.getElem_drop]
    simp only [Bytes.read, bufByte, List.getElem_map, List.getElem_range]
    rw [List.getElem?_eq_getElem (by omega), Option.getD_some]

/-- A number of bytes stored is not `-1`. -/
theorem toNat_ne_minusOne {k : ℕ} (hk : k < 2 ^ 31) : (k : ℤ).toNat ≠ minusOne := by
  rw [Int.toNat_natCast]
  unfold minusOne
  omega

theorem toStores_length {data : List UInt8} (file : FatfsDirent) :
    toStores (file, (data.length : ℤ), data) = (file, data.length, data) := by
  have hne : (data.length : ℤ) ≠ -1 := by omega
  unfold toStores
  rw [if_neg hne]
  rfl

/-- The loops agree when the calls in them do. -/
theorem restStores_agree {pread : FatfsDirent → ℕ → ℕ → Option PreadResult}
    {stores : FatfsDirent → ℕ → ℕ → Option StoreResult}
    (h : ∀ file k off, k ≤ count → off < 2 ^ 32 → ∃ r, Agree (pread file k off) (stores file k off) k r)
    (file : FatfsDirent) (data : List UInt8) (hn : count < n) (hlt : data.length + count < 2 ^ 31)
    (hoff : off < 2 ^ 32) :
    ∃ r, Agree (preadRestGiven pread n file count off data) (restStores stores n file count off data)
      (data.length + count) r := by
  induction n generalizing file count off data with
  | zero => cases hn
  | succ n ih =>
    have hword : data.length % 2 ^ 32 = data.length := Nat.mod_eq_of_lt (by omega)
    unfold preadRestGiven restStores
    by_cases hgo : off < file.length ∧ count > 0
    · rw [if_pos hgo, if_pos hgo, hword]
      obtain ⟨⟨file', hr, more⟩, hpread, hstores, hret, hle⟩ := h file count off (Nat.le_refl _) hoff
      dsimp only at hret hle
      have hlen : (data ++ more).length ≤ data.length + count := by
        rw [List.length_append]
        omega
      rw [hpread, hstores]
      simp only [Option.bind_eq_bind, Option.bind_some, toStores]
      by_cases hfail : hr = -1
      · rw [if_pos hfail, if_pos hfail, if_pos rfl]
        exact ⟨_, rfl, rfl, Or.inl rfl, hlen⟩
      · obtain rfl : hr = more.length := hret.resolve_left hfail
        rw [if_neg hfail, if_neg hfail, if_neg (toNat_ne_minusOne (by omega)), Int.toNat_natCast]
        by_cases hzero : more.length = 0
        · rw [if_pos (by omega), if_pos hzero, List.length_eq_zero_iff.mp hzero, List.append_nil]
          exact ⟨_, rfl, (congrArg some (toStores_length file')).symm, Or.inr rfl, Nat.le_add_right _ _⟩
        · rw [if_neg (by omega), if_neg hzero, left_eq hle (by omega)]
          have hoff' : (off + more.length) % 2 ^ 32 < 2 ^ 32 := Nat.mod_lt _ (by decide)
          obtain ⟨r, hr⟩ := ih (fun file k off hk => h file k off (by omega)) file' (data ++ more)
            (by omega : count - more.length < n) (by rw [List.length_append]; omega) hoff'
          refine ⟨r, hr.pread, hr.stores, hr.ret, Nat.le_trans hr.le ?_⟩
          rw [List.length_append]
          omega
    · rw [if_neg hgo, if_neg hgo, hword]
      exact ⟨_, rfl, (congrArg some (toStores_length file)).symm, Or.inr rfl, Nat.le_add_right _ _⟩

theorem bodyStores_agree (fs : FatfsPriv) (slack : ℕ → UInt8) (file : FatfsDirent)
    {pread : FatfsDirent → ℕ → ℕ → Option PreadResult}
    {stores : FatfsDirent → ℕ → ℕ → Option StoreResult}
    (h : ∀ file k off, k ≤ count - 1 → off < 2 ^ 32 → ∃ r, Agree (pread file k off) (stores file k off) k r)
    (hpos : 0 < count) (hn : count ≤ n) (hlt : count < 2 ^ 31) (hoff : off < 2 ^ 32) :
    ∃ r, Agree (preadBodyGiven fs pread n file count off) (bodyStores fs slack stores n file count off)
      count r := by
  have hbody : preadBodyGiven fs pread n file count off =
      match seekCluster fs file off with
      | .error (file, ret) => some (file, ret, [])
      | .ok file =>
        match fatReadCluster fs.toVolume file.cluster with
        | none => some (file, -1, [])
        | some clusterBuffer =>
          let cpcnt := copied fs.bytesPerCluster (off - file.offset) count
          preadRestGiven pread n file (count - cpcnt) ((off + cpcnt) % 2 ^ 32)
            ((clusterBuffer.drop (off - file.offset)).take cpcnt) := rfl
  rw [hbody]
  unfold bodyStores
  cases hseek : seekCluster fs file off with
  | error e =>
    obtain ⟨file', ret⟩ := e
    obtain ⟨-, hret, -, -⟩ := seekCluster_error hseek hoff
    rcases hret with rfl | rfl
    · exact ⟨_, rfl, rfl, Or.inl rfl, Nat.zero_le _⟩
    · exact ⟨_, rfl, rfl, Or.inr rfl, Nat.zero_le _⟩
  | ok file' =>
    dsimp only
    cases hread : fatReadCluster fs.toVolume file'.cluster with
    | none => exact ⟨_, rfl, rfl, Or.inl rfl, Nat.zero_le _⟩
    | some clusterBuffer =>
      obtain ⟨hs, hc⟩ := geometry_of_read hread
      have hb : 0 < fs.bytesPerCluster := Nat.mul_pos (by omega) hc
      have hbl := fs.bytesPerCluster_lt
      have hlen : clusterBuffer.length = fs.bytesPerCluster := by
        rw [fatReadCluster_eq hs hc] at hread
        rw [← Option.some.inj hread, length_clusterBytes]
      have hco := (seekCluster_ok hseek hoff hb).lt hb
      have hcp : copied fs.bytesPerCluster (off - file'.offset) count =
          min count (fs.bytesPerCluster - (off - file'.offset)) := copied_of_lt (by omega) hco
      dsimp only
      rw [hcp, read_bufByte slack (by omega)]
      set cpcnt := min count (fs.bytesPerCluster - (off - file'.offset)) with hcpcnt
      have hdata : ((clusterBuffer.drop (off - file'.offset)).take cpcnt).length = cpcnt := by
        rw [List.length_take, List.length_drop]
        omega
      have hoff' : (off + cpcnt) % 2 ^ 32 < 2 ^ 32 := Nat.mod_lt _ (by decide)
      obtain ⟨r, hr⟩ := restStores_agree (fun file k off hk => h file k off (by omega)) file'
        ((clusterBuffer.drop (off - file'.offset)).take cpcnt) (by omega : count - cpcnt < n)
        (by omega) hoff'
      exact ⟨r, hr.pread, hr.stores, hr.ret, by have := hr.le; omega⟩

/-- **When nothing wraps** — the count is below `2 ^ 31` — a call is the one of `YakOS.Fs.Pread`. -/
theorem fatfsPreadStores_eq (fs : FatfsPriv) (slack : ℕ → UInt8) (file : FatfsDirent) (hn : count < n)
    (hlt : count < 2 ^ 31) (hoff : off < 2 ^ 32) :
    ∃ r, Agree (fatfsPreadGiven fs n file count off) (fatfsPreadStores fs slack n file count off) count r := by
  induction n generalizing file count off with
  | zero => cases hn
  | succ n ih =>
    unfold fatfsPreadGiven fatfsPreadStores
    by_cases hout : ¬ isDir file.flag ∧ off > file.length
    · rw [if_pos hout, if_pos hout]
      exact ⟨_, rfl, rfl, Or.inl rfl, Nat.zero_le _⟩
    · rw [if_neg hout, if_neg hout]
      dsimp only
      set k := if ¬ isDir file.flag ∧ (off + count) % 2 ^ 32 > file.length then file.length - off else count
      have hle : k ≤ count := cut_le hout
      by_cases hzero : k = 0
      · rw [if_pos hzero, if_pos hzero]
        exact ⟨_, rfl, rfl, Or.inr rfl, Nat.zero_le _⟩
      · rw [if_neg hzero, if_neg hzero]
        have hcalls : ∀ file k' off, k' ≤ k - 1 → off < 2 ^ 32 →
            ∃ r, Agree (fatfsPreadGiven fs n file k' off) (fatfsPreadStores fs slack n file k' off) k' r :=
          fun file k' off hk' hoff => ih file (by omega) (by omega) hoff
        obtain ⟨r, hr⟩ := bodyStores_agree fs slack file hcalls (by omega) (by omega : k ≤ n + 1)
          (by omega) hoff
        exact ⟨r, hr.pread, hr.stores, hr.ret, Nat.le_trans hr.le hle⟩

end Agree

end YakOS
