import YakOS.Fs.Stores

/-!
# Reading up to the end of a file

`fatfs_pread` cuts the count at the length of a regular file when `off + count` is greater.  That sum is a
word.  When it wraps it is smaller than the offset, and the count stays as it is: the read goes on to the
end of a cluster, or over all of the count.

## Main definitions

* `ClipRight` — a count that is not cut does not matter.

## Main results

* `clipRight_next` — the clusters behind the first decide, as long as they end inside the file.
* `restStores_unclipped`, `bodyStores_unclipped` — the loop and the call when the count is not cut.
* `fatfsPreadStores_clip_iff` — **a read stores no more than what is left of the file exactly when the sum
  does not wrap, or that does not matter.**
-/

namespace YakOS

open Bytes

/-- A count that is not cut does not matter for the read of a file that is not shorter than `off`: the chain
does not reach the offset; or the sum that decides how much is copied does not wrap, and the chain ends
before the file does, or a cluster ends where the file does. -/
def ClipRight (fs : FatfsPriv) (file : FatfsDirent) (count off : ℕ) : Prop :=
  ¬ Reaches fs file off ∨ (off - file.offset) % fs.bytesPerCluster + count < 2 ^ 32 ∧
    (¬ Reaches fs file file.length ∨
      off < file.length ∧ (file.length - file.offset) % fs.bytesPerCluster = 0)

section Clusters

variable {fs : FatfsPriv} {slack : ℕ → UInt8} {file file' : FatfsDirent} {count off x n : ℕ}

theorem Reaches.pos (h : Reaches fs file off) : 0 < fs.bytesPerCluster :=
  Nat.mul_pos (by have := h.sector; omega) h.cluster

theorem Reaches.of_le (h : Reaches fs file x) (hle : off ≤ x) : Reaches fs file off :=
  ⟨h.sector, h.cluster, h.chain.of_le (Nat.div_le_div_right (by omega))⟩

/-- An offset behind another one, by the cluster of the latter. -/
theorem sub_offset_eq {offset b : ℕ} (h : offset ≤ off) (hx : off ≤ x) :
    x - offset = b * ((off - offset) / b) + ((off - offset) % b + (x - off)) := by
  have := Nat.div_add_mod (off - offset) b
  omega

/-- The chain reaches what lies in a cluster that it reaches. -/
theorem Reaches.in_cluster (h : Reaches fs file off) (hle : file.offset ≤ off) (hx : off ≤ x)
    (hin : (off - file.offset) % fs.bytesPerCluster + (x - off) < fs.bytesPerCluster) :
    Reaches fs file x := by
  refine ⟨h.sector, h.cluster, ?_⟩
  rw [sub_offset_eq hle hx, Nat.mul_add_div h.pos, Nat.div_eq_of_lt hin, Nat.add_zero]
  exact h.chain

theorem Sought.reaches_iff (h : Sought fs file file' off) (hx : off ≤ x) :
    Reaches fs file' x ↔ Reaches fs (rewind file off) x := by
  constructor
  · exact fun hr => ⟨hr.sector, hr.cluster, (h.chain x hx).mp hr.chain⟩
  · exact fun hr => ⟨hr.sector, hr.cluster, (h.chain x hx).mpr hr.chain⟩

/-- The cursor stands a number of clusters behind where it was. -/
theorem Sought.mod_eq (h : Sought fs file file' off) (hx : off ≤ x) :
    (x - file'.offset) % fs.bytesPerCluster = (x - (rewind file off).offset) % fs.bytesPerCluster := by
  have hle := rewind_offset_le file off
  have hrest := h.rest
  have hfile := h.le
  have hx' := sub_offset_eq (b := fs.bytesPerCluster) hle hx
  rw [hx', Nat.mul_add_mod, ← hrest]
  congr 1
  omega

/-- A read up to the end of a cluster is too long when the file ends inside it. -/
theorem not_clipRight_of_lt (h : Reaches fs file off) (hle : file.offset ≤ off) (hoff : off ≤ file.length)
    (hend : (off - file.offset) % fs.bytesPerCluster + (file.length - off) < fs.bytesPerCluster) :
    ¬ ClipRight fs file count off := by
  rintro (hno | ⟨-, hno | ⟨hlt, hmod⟩⟩)
  · exact hno h
  · exact hno (h.in_cluster hle hoff hend)
  · rw [sub_offset_eq hle hoff, Nat.mul_add_mod, Nat.mod_eq_of_lt hend] at hmod
    omega

/-- A cluster that ends where the file does. -/
theorem clipRight_of_eq (hle : file.offset ≤ off) (hoff : off < file.length)
    (hwrap : (off - file.offset) % fs.bytesPerCluster + count < 2 ^ 32)
    (hend : (off - file.offset) % fs.bytesPerCluster + (file.length - off) = fs.bytesPerCluster) :
    ClipRight fs file count off := by
  refine Or.inr ⟨hwrap, Or.inr ⟨hoff, ?_⟩⟩
  rw [sub_offset_eq hle hoff.le, hend, Nat.mul_add_mod, Nat.mod_self]

/-- **The clusters behind the first decide**, when that one ends inside the file. -/
theorem clipRight_next (h : Sought fs file file' off) (hreach : Reaches fs (rewind file off) off)
    (hwrap : (off - (rewind file off).offset) % fs.bytesPerCluster + count < 2 ^ 32)
    (hend : off + (fs.bytesPerCluster - (off - file'.offset)) < file.length) {count' : ℕ}
    (hcount' : count' < 2 ^ 32) :
    ClipRight fs file' count' (off + (fs.bytesPerCluster - (off - file'.offset))) ↔
      ClipRight fs (rewind file off) count off := by
  have hle := h.le
  have hco := h.lt hreach.pos
  have hlen : file'.length = file.length := h.same.length
  have hlen' : (rewind file off).length = file.length := (sameFile_rewind file off).length
  set off₁ := off + (fs.bytesPerCluster - (off - file'.offset))
  have hstart : (off₁ - file'.offset) % fs.bytesPerCluster = 0 := by
    rw [show off₁ - file'.offset = fs.bytesPerCluster by omega, Nat.mod_self]
  have hmod := h.mod_eq (x := file.length) (by omega)
  have hlong : ¬ Reaches fs (rewind file off) off₁ → ¬ Reaches fs (rewind file off) file.length :=
    fun hno hr => hno (hr.of_le (by omega))
  unfold ClipRight
  rw [hstart, Nat.zero_add, hlen, hlen', h.reaches_iff (by omega), h.reaches_iff (by omega), hmod,
    and_iff_right hcount', and_iff_right hwrap, and_iff_right hend,
    and_iff_right (by omega : off < file.length), or_iff_right (not_not.mpr hreach)]
  constructor
  · rintro (hno | hr)
    · exact Or.inl (hlong hno)
    · exact hr
  · exact Or.inr

end Clusters

/-! ### A count that is not cut -/

section Unclipped

variable {fs : FatfsPriv} {slack : ℕ → UInt8} {file : FatfsDirent} {count off n : ℕ}

/-- What a call comes to whose count is not cut: it stores no more than what is left of the file exactly
when the count does not matter, and if it stores less, the chain does not go on. -/
structure Unclipped (fs : FatfsPriv) (file : FatfsDirent) (count off : ℕ) (r : StoreResult) : Prop where
  clip : r.2.2.length ≤ file.length - off ↔ ClipRight fs (rewind file off) count off
  ends : r.2.2.length < file.length - off →
    r.1.offset ≤ off + r.2.2.length ∧ ¬ Reaches fs r.1 (off + r.2.2.length)

/-- A count that is not cut, for a regular file. -/
structure Wraps (file : FatfsDirent) (count off : ℕ) : Prop where
  regular : isDir file.flag = false
  length : file.length < 2 ^ 32
  le : off ≤ file.length
  wrap : 2 ^ 32 ≤ off + count

theorem Wraps.next (h : Wraps file count off) {file' : FatfsDirent} (hsame : SameFile file file') {k : ℕ}
    (hk : off + k ≤ file.length) : Wraps file' (count - k) (off + k) := by
  refine ⟨?_, ?_, ?_, ?_⟩
  · rw [hsame.flag]
    exact h.regular
  · rw [hsame.length]
    exact h.length
  · rw [hsame.length]
    exact hk
  · have := h.wrap
    have := h.length
    omega

/-- **The loop**, when the calls in it are of this kind: it goes on as long as the chain and the file do. -/
theorem restStores_unclipped {pread : FatfsDirent → ℕ → ℕ → Option StoreResult}
    (hok : StoresOk pread count)
    (h : ∀ file k off r, k ≤ count → Wraps file k off → pread file k off = some r →
      Unclipped fs file k off r)
    (hw : Wraps file count off) (hn : count < n) (data : List UInt8)
    (hlt : data.length + count < 2 ^ 32) :
    ∃ r more, restStores pread n file count off data = some r ∧ r.2.2 = data ++ more ∧
      (more.length ≤ file.length - off ↔
        off = file.length ∨ ClipRight fs (rewind file off) count off) ∧
      (more.length < file.length - off →
        r.1.offset ≤ off + more.length ∧ ¬ Reaches fs r.1 (off + more.length)) := by
  induction n generalizing file count off data with
  | zero => cases hn
  | succ n ih =>
    have hwrap := hw.wrap
    have hlen := hw.length
    have hle := hw.le
    unfold restStores
    by_cases hin : off < file.length
    · rw [if_pos ⟨hin, by omega⟩]
      obtain ⟨⟨file', hr, more⟩, hcall, hstore⟩ := hok file count off (Nat.le_refl _) (by omega)
      obtain ⟨hclip, hends⟩ := h file count off _ (Nat.le_refl _) hw hcall
      have hmore : more.length ≤ count := hstore.le
      dsimp only at hclip hends
      rw [hcall]
      simp only [Option.bind_eq_bind, Option.bind_some]
      have hdone : more.length ≤ file.length - off ↔
          off = file.length ∨ ClipRight fs (rewind file off) count off := by
        rw [hclip, or_iff_right (by omega)]
      by_cases hfail : hr = minusOne
      · rw [if_pos hfail]
        exact ⟨_, more, rfl, rfl, hdone, hends⟩
      · have hret : hr = more.length := hstore.ret.resolve_left hfail
        rw [if_neg hfail]
        by_cases hzero : hr = 0
        · rw [if_pos hzero]
          exact ⟨_, more, rfl, rfl, hdone, hends⟩
        · have hcount : (count + 2 ^ 32 - hr) % 2 ^ 32 = count - more.length := by
            rw [hret, left_eq hmore (by omega)]
          have hok' : StoresOk pread (count - more.length) := hok.of_le (Nat.sub_le _ _)
          have hdata : (data ++ more).length + (count - more.length) < 2 ^ 32 := by
            rw [List.length_append]
            omega
          rw [if_neg hzero, hcount]
          by_cases hshort : more.length ≤ file.length - off
          · have hoff : (off + hr) % 2 ^ 32 = off + more.length := by
              rw [hret]
              exact Nat.mod_eq_of_lt (by omega)
            have hw' : Wraps file' (count - more.length) (off + more.length) :=
              hw.next hstore.same (by omega)
            obtain ⟨r, more', hrun, hall, hclip', hends'⟩ := ih hok'
              (fun file k off r hk => h file k off r (by omega)) hw' (by omega) (data ++ more) hdata
            rw [hstore.same.length] at hclip' hends'
            -- what stopped inside the file has come to the end of the chain
            have hrest : more'.length ≤ file.length - (off + more.length) := by
              rw [hclip']
              by_cases hstop : more.length < file.length - off
              · obtain ⟨hoffset, hno⟩ := hends hstop
                rw [rewind_of_le hoffset]
                exact Or.inr (Or.inl hno)
              · exact Or.inl (by omega)
            rw [hoff]
            refine ⟨r, more ++ more', hrun, by rw [hall, List.append_assoc], ?_, ?_⟩
            · rw [← hdone, List.length_append]
              omega
            · intro hstop
              rw [List.length_append] at hstop ⊢
              rw [← Nat.add_assoc]
              exact hends' (by omega)
          · have hoff : (off + hr) % 2 ^ 32 < 2 ^ 32 := Nat.mod_lt _ (by decide)
            obtain ⟨r, more', hrun, hall, -⟩ := restStores_spec hok' file' (data ++ more)
              (by omega : count - more.length < n) hdata hoff
            refine ⟨r, more ++ more', hrun, by rw [hall, List.append_assoc], ?_, ?_⟩
            · rw [← hdone, List.length_append]
              omega
            · intro hstop
              rw [List.length_append] at hstop
              omega
    · rw [if_neg fun hgo => hin hgo.1]
      refine ⟨_, [], rfl, (List.append_nil _).symm, ?_, ?_⟩
      · exact iff_of_true (Nat.zero_le _) (Or.inl (by omega))
      · intro hstop
        exact absurd hstop (by simp only [List.length_nil]; omega)

/-- The first part copied ends inside the file, so it is the rest of a cluster. -/
theorem unclipped_inside {pread : FatfsDirent → ℕ → ℕ → Option StoreResult}
    (hok : StoresOk pread (count - 1))
    (h : ∀ file k off r, k ≤ count - 1 → Wraps file k off → pread file k off = some r →
      Unclipped fs file k off r)
    (hw : Wraps file count off) (hlt : count < 2 ^ 32) (hn : count ≤ n) {file' : FatfsDirent}
    (hsought : Sought fs file file' off) (hreach : Reaches fs (rewind file off) off) {cpcnt : ℕ}
    (hcpcnt : copied fs.bytesPerCluster (off - file'.offset) count = cpcnt) {data : List UInt8}
    (hdata : data.length = cpcnt) (hshort : cpcnt ≤ file.length - off) {r : StoreResult}
    (hr : restStores pread n file' (count - cpcnt) ((off + cpcnt) % 2 ^ 32) data = some r) :
    Unclipped fs file count off r := by
  have hwrap := hw.wrap
  have hlen := hw.length
  have hle := hw.le
  have hrewind := rewind_offset_le file off
  have hlen' : (rewind file off).length = file.length := (sameFile_rewind file off).length
  have hco := hsought.lt hreach.pos
  have hmod : (off - (rewind file off).offset) % fs.bytesPerCluster = off - file'.offset :=
    hsought.rest.symm
  have hcp : cpcnt ≤ count := hcpcnt ▸ copied_le hco
  have hpos : 0 < cpcnt := hcpcnt ▸ copied_pos hco (by omega)
  have hsum : off - file'.offset + count < 2 ^ 32 := by
    by_contra hsum
    have hall : cpcnt = count := hcpcnt ▸ copied_of_le (by omega) hco hlt
    omega
  have hcluster : cpcnt = fs.bytesPerCluster - (off - file'.offset) := by
    have hmin : cpcnt = min count (fs.bytesPerCluster - (off - file'.offset)) :=
      hcpcnt ▸ copied_of_lt hsum hco
    omega
  rw [Nat.mod_eq_of_lt (by omega : off + cpcnt < 2 ^ 32)] at hr
  obtain ⟨r', more, hrun, hall, hclip, hends⟩ := restStores_unclipped
    (hok.of_le (by omega : count - cpcnt ≤ count - 1)) (fun file k off r hk => h file k off r (by omega))
    (hw.next hsought.same (by omega)) (by omega : count - cpcnt < n) data (by omega)
  obtain rfl := Option.some.inj (hrun.symm.trans hr)
  have htotal : r'.2.2.length = cpcnt + more.length := by
    rw [hall, List.length_append, hdata]
  rw [hsought.same.length] at hclip hends
  constructor
  · have hnext : (off + cpcnt = file.length ∨ ClipRight fs (rewind file' (off + cpcnt))
        (count - cpcnt) (off + cpcnt)) ↔ ClipRight fs (rewind file off) count off := by
      rw [rewind_of_le (by have := hsought.le; omega)]
      by_cases hend : off + cpcnt = file.length
      · exact iff_of_true (Or.inl hend) (clipRight_of_eq hrewind (by omega) (by omega) (by omega))
      · rw [or_iff_right hend, hcluster]
        exact clipRight_next hsought hreach (by omega) (by omega) (by omega)
    rw [← hnext, ← hclip, htotal]
    omega
  · intro hstop
    rw [htotal, ← Nat.add_assoc]
    exact hends (by omega)

/-- The first part copied is more than is left of the file. -/
theorem unclipped_beyond {pread : FatfsDirent → ℕ → ℕ → Option StoreResult}
    (hok : StoresOk pread (count - 1)) (hw : Wraps file count off) (hlt : count < 2 ^ 32)
    (hn : count ≤ n) {file' : FatfsDirent} (hsought : Sought fs file file' off)
    (hreach : Reaches fs (rewind file off) off) {cpcnt : ℕ}
    (hcpcnt : copied fs.bytesPerCluster (off - file'.offset) count = cpcnt) {data : List UInt8}
    (hdata : data.length = cpcnt) (hlong : file.length - off < cpcnt) {r : StoreResult}
    (hr : restStores pread n file' (count - cpcnt) ((off + cpcnt) % 2 ^ 32) data = some r) :
    Unclipped fs file count off r := by
  have hwrap := hw.wrap
  have hlen := hw.length
  have hle := hw.le
  have hrewind := rewind_offset_le file off
  have hlen' : (rewind file off).length = file.length := (sameFile_rewind file off).length
  have hco := hsought.lt hreach.pos
  have hmod : (off - (rewind file off).offset) % fs.bytesPerCluster = off - file'.offset :=
    hsought.rest.symm
  have hcp : cpcnt ≤ count := hcpcnt ▸ copied_le hco
  have hoff : (off + cpcnt) % 2 ^ 32 < 2 ^ 32 := Nat.mod_lt _ (by decide)
  obtain ⟨r', more, hrun, hall, -⟩ := restStores_spec
    (hok.of_le (by omega : count - cpcnt ≤ count - 1)) file' data (by omega : count - cpcnt < n)
    (by omega) hoff
  obtain rfl := Option.some.inj (hrun.symm.trans hr)
  have htotal : r'.2.2.length = cpcnt + more.length := by
    rw [hall, List.length_append, hdata]
  refine ⟨iff_of_false (by omega) ?_, fun hstop => absurd hstop (by omega)⟩
  by_cases hsum : off - file'.offset + count < 2 ^ 32
  · have hmin : cpcnt = min count (fs.bytesPerCluster - (off - file'.offset)) :=
      hcpcnt ▸ copied_of_lt hsum hco
    exact not_clipRight_of_lt hreach hrewind (by omega) (by omega)
  · rintro (hno | ⟨hsum', -⟩)
    · exact hno hreach
    · omega

/-- **The call**, behind its checks, when the calls in it are of this kind. -/
theorem bodyStores_unclipped {pread : FatfsDirent → ℕ → ℕ → Option StoreResult}
    (hok : StoresOk pread (count - 1))
    (h : ∀ file k off r, k ≤ count - 1 → Wraps file k off → pread file k off = some r →
      Unclipped fs file k off r)
    (hw : Wraps file count off) (hlt : count < 2 ^ 32) (hn : count ≤ n) {r : StoreResult}
    (hr : bodyStores fs slack pread n file count off = some r) : Unclipped fs file count off r := by
  have hlen := hw.length
  have hle := hw.le
  unfold bodyStores at hr
  cases hseek : seekCluster fs file off with
  | error e =>
    -- the chain does not get to the offset
    obtain ⟨file', ret⟩ := e
    obtain ⟨-, -, hoffset, hno⟩ := seekCluster_error hseek (by omega)
    rw [hseek] at hr
    obtain rfl := Option.some.inj hr
    have hstart : ¬ Reaches fs (rewind file off) off := by
      intro hreach
      obtain ⟨file'', hfile''⟩ := seekCluster_ok_iff.mpr hreach.chain
      rw [hseek] at hfile''
      cases hfile''
    exact ⟨iff_of_true (Nat.zero_le _) (Or.inl hstart), fun _ => ⟨hoffset, fun hreach => hno hreach.chain⟩⟩
  | ok file' =>
    rw [hseek] at hr
    dsimp only at hr
    cases hread : fatReadCluster fs.toVolume file'.cluster with
    | none =>
      -- nor can a cluster be read
      rw [hread] at hr
      obtain rfl := Option.some.inj hr
      have hno : ∀ f : FatfsDirent, ¬ Reaches fs f off := by
        intro f hreach
        rw [fatReadCluster_eq hreach.sector hreach.cluster] at hread
        cases hread
      exact ⟨iff_of_true (Nat.zero_le _) (Or.inl (hno _)),
        fun _ => ⟨seekCluster_offset_le hseek (by omega), hno _⟩⟩
    | some clusterBuffer =>
      obtain ⟨hs, hc⟩ := geometry_of_read hread
      have hreach : Reaches fs (rewind file off) off := ⟨hs, hc, seekCluster_ok_iff.mp ⟨file', hseek⟩⟩
      have hsought := seekCluster_ok hseek (by omega) hreach.pos
      rw [hread] at hr
      dsimp only at hr
      rcases Nat.lt_or_ge (file.length - off)
        (copied fs.bytesPerCluster (off - file'.offset) count) with hlong | hshort
      · exact unclipped_beyond hok hw hlt hn hsought hreach rfl (length_read _ _ _) hlong hr
      · exact unclipped_inside hok h hw hlt hn hsought hreach rfl (length_read _ _ _) hshort hr

/-- A call whose count is not cut. -/
theorem fatfsPreadStores_unclipped (hw : Wraps file count off) (hlt : count < 2 ^ 32) (hn : count < n)
    {r : StoreResult} (hr : fatfsPreadStores fs slack n file count off = some r) :
    Unclipped fs file count off r := by
  induction n generalizing file count off r with
  | zero => cases hn
  | succ n ih =>
    have hwrap := hw.wrap
    have hlen := hw.length
    have hle := hw.le
    have huncut : ¬ (¬ isDir file.flag ∧ (off + count) % 2 ^ 32 > file.length) := by
      rintro ⟨-, hcut⟩
      omega
    unfold fatfsPreadStores at hr
    rw [if_neg (by omega)] at hr
    dsimp only at hr
    rw [if_neg huncut, if_neg (by omega)] at hr
    exact bodyStores_unclipped (fatfsPreadStores_spec fs slack (by omega) (by omega))
      (fun file k off r hk hw' hr' => ih hw' (by omega) (by omega) hr') hw hlt (by omega) hr

end Unclipped

/-! ### When a read stays inside the file -/

/-- **Reading a regular file.**  A call ends, and stores no more than what is left of the file exactly when
it starts behind the end, or the sum does not wrap, or that does not matter. -/
theorem fatfsPreadStores_clip_iff (fs : FatfsPriv) (slack : ℕ → UInt8) {file : FatfsDirent}
    {count off n : ℕ} (hfile : isDir file.flag = false) (hlength : file.length < 2 ^ 32)
    (hoff : off < 2 ^ 32) (hcount : count < 2 ^ 32) (hn : count < n) :
    ∃ r, fatfsPreadStores fs slack n file count off = some r ∧ StoreOk file count r ∧
      (r.2.2.length ≤ file.length - off ↔
        file.length < off ∨ off + count < 2 ^ 32 ∨ ClipRight fs (rewind file off) count off) := by
  obtain ⟨r, hr, hok⟩ := fatfsPreadStores_spec fs slack hn hcount file count off
    (Nat.le_refl _) hoff
  refine ⟨r, hr, hok, ?_⟩
  by_cases hbehind : file.length < off
  · obtain ⟨n, rfl⟩ : ∃ k, n = k + 1 := ⟨n - 1, by omega⟩
    rw [fatfsPreadStores, if_pos ⟨by simp [hfile], hbehind⟩] at hr
    obtain rfl := Option.some.inj hr
    exact iff_of_true (Nat.zero_le _) (Or.inl hbehind)
  · by_cases hwrap : off + count < 2 ^ 32
    · -- the call is the one with the count cut beforehand
      have hcut : fatfsPreadStores fs slack n file (min count (file.length - off)) off = some r := by
        obtain ⟨n, rfl⟩ : ∃ k, n = k + 1 := ⟨n - 1, by omega⟩
        have hclip : ∀ k, off + k < 2 ^ 32 → (if ¬ isDir file.flag ∧ (off + k) % 2 ^ 32 > file.length
            then file.length - off else k) = min k (file.length - off) := by
          intro k hk
          rw [Nat.mod_eq_of_lt hk]
          by_cases hlong : off + k > file.length
          · rw [if_pos ⟨by simp [hfile], hlong⟩]
            omega
          · rw [if_neg fun h => hlong h.2]
            omega
        rw [← hr, fatfsPreadStores, fatfsPreadStores]
        dsimp only
        rw [hclip _ (by omega), hclip _ hwrap, Nat.min_assoc, Nat.min_self]
      obtain ⟨r', hr', hok'⟩ := fatfsPreadStores_spec fs slack
        (by omega : min count (file.length - off) < n) (by omega) file _ off (Nat.le_refl _) hoff
      obtain rfl := Option.some.inj (hcut.symm.trans hr')
      have := hok'.le
      exact iff_of_true (by omega) (Or.inr (Or.inl hwrap))
    · have hw : Wraps file count off := ⟨hfile, hlength, by omega, by omega⟩
      rw [(fatfsPreadStores_unclipped hw hcount hn hr).clip, or_iff_right hbehind, or_iff_right hwrap]

end YakOS
