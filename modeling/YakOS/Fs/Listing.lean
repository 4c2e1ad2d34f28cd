import YakOS.Lib.Run
import YakOS.Fs.RootDir

/-!
# The two listings

A directory in the root area is listed by `fatfs_root_dir_read`, which skips the entries that
are deleted or of a long name and stops at the end marker; one in a cluster is listed by
`fatfs_dir_read` itself, which makes none of these tests: it yields the name of every entry that
has one and stops at the first that has none.  At the end of a cluster without such an entry
it decodes what the caller's buffer still holds.  Both stop where the memory refuses a buffer.

## Main definitions

* `dirOutcome` — what a call returns for an entry of a cluster, as `outcome` for one of the root
  directory.
* `ReportsLive` — a listing reports live entries before the end marker only.
* `dirPassed`, `rootPassed` — the entries that a listing of so many calls passes.
* `RootHolds`, `ClusterHolds` — a directory that holds a sequence of entries.
* `ReadsAs` — the calls return what a function says of the entries.

## Main results

* `agree_iff` — when the two ways to list a sequence agree.
* `yields_listDir` — the results of a listing whose calls return what a function says.
* `listings_agree_iff` — **when the two listings agree.**
-/

namespace YakOS

open Bytes
open Allocator (Prog)

/-! ### Two ways to list a sequence of entries -/

/-- What a call returns for an entry of a directory that is a cluster chain. -/
def dirOutcome (e : FatEntry) : DirRead :=
  if 0 < direntTrim e.name 8 then .name (name83 e) else .fail

/-- The results of a listing that stops where `o` fails. -/
def results (o : FatEntry → DirRead) (es : List FatEntry) : List DirRead :=
  (es.takeWhile fun e => o e != .fail).map o

/-- The results stop at the end marker, and each name is that of a live entry. -/
def ReportsLive (es : List FatEntry) (rs : List DirRead) : Prop :=
  rs.length ≤ (beforeEnd es).length ∧ ∀ p ∈ es.zip rs, p.2 ≠ .skip → p.1.isLive = true

/-- The entry has a name. -/
def FatEntry.nonBlank (e : FatEntry) : Bool := decide (0 < direntTrim e.name 8)

/-- The listing of the root directory goes on behind the entry. -/
def FatEntry.passed (e : FatEntry) : Bool := !e.isZero && (!e.isLive || e.nonBlank)

/-- The entries that the listing of a cluster passes, if `k` of them can be read. -/
def dirPassed (es : List FatEntry) (k : ℕ) : List FatEntry := (es.take k).takeWhile FatEntry.nonBlank

/-- The entries that the listing of the root directory passes behind the first `p`, if `k` can be
read. -/
def rootPassed (es : List FatEntry) (k p : ℕ) : List FatEntry :=
  ((es.take k).drop p).takeWhile FatEntry.passed

variable {e : FatEntry} {es : List FatEntry} {o : FatEntry → DirRead} {rs : List DirRead}

theorem results_cons (o : FatEntry → DirRead) (e : FatEntry) (es : List FatEntry) :
    results o (e :: es) = if o e = .fail then [] else o e :: results o es := by
  unfold results
  rw [List.takeWhile_cons]
  by_cases h : o e = .fail
  · rw [if_pos h, h]
    rfl
  · rw [if_neg h, bne_iff_ne.mpr h]
    rfl

theorem outcome_of_live (hzero : e.isZero = false) (hlive : e.isLive = true) :
    outcome e = dirOutcome e := by
  have hkeep : (e.isDeleted || e.isLongName) = false := by simpa [FatEntry.isLive] using hlive
  rw [outcome, hzero, hkeep]
  rfl

theorem outcome_of_not_live (hzero : e.isZero = false) (hlive : e.isLive = false) :
    outcome e = .skip := by
  have hskip : (e.isDeleted || e.isLongName) = true := by
    simpa only [FatEntry.isLive, Bool.not_eq_false'] using hlive
  rw [outcome, hzero, hskip]
  rfl

/-- An end marker has no name. -/
theorem FatEntry.isZero_of_nonBlank (h : e.nonBlank = true) : e.isZero = false := by
  rw [nonBlank, decide_eq_true_iff] at h
  rw [isZero]
  cases hname : e.name with
  | nil => rfl
  | cons c cs =>
    apply beq_eq_false_iff_ne.mpr
    intro hc
    obtain rfl : c = 0 := Option.some.inj hc
    rw [hname] at h
    exact absurd h (lt_irrefl 0)

theorem outcome_ne_fail_iff : (outcome e != .fail) = e.passed := by
  rw [FatEntry.passed]
  cases hzero : e.isZero with
  | true => simp [outcome, hzero]
  | false =>
    cases hlive : e.isLive with
    | true =>
      rw [outcome_of_live hzero hlive, dirOutcome, FatEntry.nonBlank]
      split <;> simp_all
    | false =>
      rw [outcome_of_not_live hzero hlive]
      rfl

/-- A listing that passes an entry reports live entries when the entry is live, unless it is skipped,
and the rest of the listing does. -/
theorem reportsLive_cons {r : DirRead} (hzero : e.isZero = false) :
    ReportsLive (e :: es) (r :: rs) ↔ (r ≠ .skip → e.isLive = true) ∧ ReportsLive es rs := by
  have hbefore : beforeEnd (e :: es) = e :: beforeEnd es := by
    rw [beforeEnd, List.takeWhile_cons, hzero]
    rfl
  rw [ReportsLive, ReportsLive, hbefore, List.zip_cons_cons, List.forall_mem_cons, List.length_cons,
    List.length_cons, Nat.succ_le_succ_iff]
  exact and_left_comm

theorem reportsLive_nil (es : List FatEntry) : ReportsLive es [] := by
  refine ⟨Nat.zero_le _, ?_⟩
  intro p hp
  rw [List.zip_nil_right] at hp
  exact absurd hp List.not_mem_nil

/-- The listing of the root directory reports live entries only. -/
theorem reportsLive_root (es : List FatEntry) (k : ℕ) :
    ReportsLive es (results outcome (es.take k)) := by
  induction es generalizing k with
  | nil =>
    rw [List.take_nil]
    exact reportsLive_nil []
  | cons e es ih =>
    cases k with
    | zero => exact reportsLive_nil _
    | succ k =>
      rw [List.take_succ_cons, results_cons]
      split
      next => exact reportsLive_nil _
      next hne =>
        have hpassed : e.passed = true := outcome_ne_fail_iff.symm.trans (bne_iff_ne.mpr hne)
        have hzero : e.isZero = false := by
          rw [FatEntry.passed, Bool.and_eq_true, Bool.not_eq_true'] at hpassed
          exact hpassed.1
        refine (reportsLive_cons hzero).mpr ⟨fun hskip => ?_, ih k⟩
        by_contra hlive
        exact hskip (outcome_of_not_live hzero (Bool.not_eq_true _ ▸ hlive))

/-- It yields no name when it passes no live entry. -/
theorem listedNames_root_eq_nil_iff : listedNames (results outcome es) = [] ↔
    ∀ e ∈ es.takeWhile FatEntry.passed, e.isLive = false := by
  have hpassed : (fun e => outcome e != .fail) = FatEntry.passed := funext fun e => outcome_ne_fail_iff
  rw [listedNames, results, hpassed, List.filterMap_map, List.filterMap_eq_nil_iff]
  apply forall₂_congr
  intro e he
  have hpass : e.passed = true := List.all_eq_true.mp List.all_takeWhile e he
  rw [FatEntry.passed, Bool.and_eq_true, Bool.not_eq_true', Bool.or_eq_true, Bool.not_eq_true'] at hpass
  obtain ⟨hzero, hname⟩ := hpass
  cases hlive : e.isLive with
  | true =>
    have hblank := hname.resolve_left (by simp [hlive])
    rw [FatEntry.nonBlank, decide_eq_true_iff] at hblank
    simp [outcome_of_live hzero hlive, dirOutcome, hblank]
  | false => simp [outcome_of_not_live hzero hlive]

/-- Where the listing of the cluster ends at once, that of the root directory may not go on. -/
theorem agree_iff_of_ended {k k' : ℕ} (hresults : results dirOutcome (es.take k') = [])
    (hpassed : dirPassed es k' = []) :
    listedNames (results outcome (es.take k)) = listedNames (results dirOutcome (es.take k')) ∧
        ReportsLive es (results dirOutcome (es.take k')) ↔
      (∀ e ∈ dirPassed es k', e.isLive = true) ∧ (dirPassed es k').length ≤ k ∧
        ∀ e ∈ rootPassed es k (dirPassed es k').length, e.isLive = false := by
  rw [hresults, hpassed]
  refine (and_iff_left (reportsLive_nil es)).trans (listedNames_root_eq_nil_iff.trans ?_)
  exact ⟨fun h => ⟨nofun, Nat.zero_le k, h⟩, fun h => h.2.2⟩

/-- **The two listings of a sequence agree exactly when** the entries that the listing of the cluster
passes are live, that of the root directory can read them all, and it passes no live entry behind
them. -/
theorem agree_iff (es : List FatEntry) (k k' : ℕ) :
    listedNames (results outcome (es.take k)) = listedNames (results dirOutcome (es.take k')) ∧
        ReportsLive es (results dirOutcome (es.take k')) ↔
      (∀ e ∈ dirPassed es k', e.isLive = true) ∧ (dirPassed es k').length ≤ k ∧
        ∀ e ∈ rootPassed es k (dirPassed es k').length, e.isLive = false := by
  induction es generalizing k k' with
  | nil => exact agree_iff_of_ended (by rw [List.take_nil]; rfl) (by rw [dirPassed, List.take_nil]; rfl)
  | cons e es ih =>
    cases k' with
    | zero => exact agree_iff_of_ended rfl rfl
    | succ k' =>
      cases hblank : e.nonBlank with
      | false =>
        have hfail : dirOutcome e = .fail := by
          rw [FatEntry.nonBlank, decide_eq_false_iff_not] at hblank
          exact if_neg hblank
        refine agree_iff_of_ended ?_ ?_
        · rw [List.take_succ_cons, results_cons, if_pos hfail]
        · rw [dirPassed, List.take_succ_cons, List.takeWhile_cons, hblank]
          rfl
      | true =>
        have hzero := FatEntry.isZero_of_nonBlank hblank
        have hname : dirOutcome e = .name (name83 e) := by
          rw [FatEntry.nonBlank, decide_eq_true_iff] at hblank
          exact if_pos hblank
        have hne : dirOutcome e ≠ .fail := by
          rw [hname]
          exact nofun
        have hpassed : dirPassed (e :: es) (k' + 1) = e :: dirPassed es k' := by
          rw [dirPassed, List.take_succ_cons, List.takeWhile_cons, hblank]
          rfl
        rw [List.take_succ_cons, results_cons dirOutcome, if_neg hne, reportsLive_cons hzero, hpassed,
          List.forall_mem_cons, List.length_cons]
        cases k with
        | zero =>
          -- only the listing of the cluster has its name
          refine iff_of_false (fun h => ?_) fun h => absurd h.2.1 (Nat.not_succ_le_zero _)
          have hnames := h.1
          rw [hname] at hnames
          cases hnames
        | succ k =>
          rw [List.take_succ_cons, results_cons outcome]
          cases hlive : e.isLive with
          | false =>
            refine iff_of_false (fun h => ?_) fun h => absurd h.1.1 (by simp)
            exact absurd (h.2.1 (by rw [hname]; exact nofun)) (by simp)
          | true =>
            have hrest : rootPassed (e :: es) (k + 1) ((dirPassed es k').length + 1) =
                rootPassed es k (dirPassed es k').length := rfl
            rw [outcome_of_live hzero hlive, if_neg hne, hname, hrest, Nat.succ_le_succ_iff,
              and_iff_right rfl, ← ih]
            simp [listedNames]

/-! ### Listings, call by call -/

/-- An entry of zeros. -/
def zeroEntry : FatEntry := direntAt [] 0

/-- The `i`-th entry of a directory that holds the sequence and zeros behind it. -/
def slotOf (es : List FatEntry) (i : ℕ) : FatEntry := es.getD i zeroEntry

variable {μ : Type} {H : Allocator μ} {fs : FatfsPriv} {old : List UInt8} {count i n : ℕ}
  {d : FatfsDirent} {r : DirRead} {qs : List Request} {q : Request}

/-- A call on the opened directory, `i` entries on, makes these requests and returns `r`. -/
def ReadsAs (H : Allocator μ) (fs : FatfsPriv) (old : List UInt8) (count : ℕ) (d : FatfsDirent)
    (r : DirRead) (i : ℕ) (qs : List Request) : Prop :=
  ∃ d', H.Asks (fun n => fatfsDirRead H fs n old (rootAt d i) count) qs (d', r) (·.2 = .fail) ∧
    (r ≠ .fail → d' = rootAt d (i + 1))

/-- The results of listing an opened directory. -/
def ListsAs (H : Allocator μ) (m : μ) (fs : FatfsPriv) (old : List UInt8) (count : ℕ) (d : FatfsDirent)
    (rs : List DirRead) : Prop :=
  ∃ n s, listDir H fs old count n (fatfsOpen d) (.fresh m) = some (rs, s)

/-- What a listing does behind a call. -/
def listBehind (H : Allocator μ) (fs : FatfsPriv) (old : List UInt8) (count n : ℕ) :
    (FatfsDirent × DirRead) × Allocator.Store μ → Option (List DirRead × Allocator.Store μ)
  | ((_, .fail), s) => some ([], s)
  | ((d, r), s) => (listDir H fs old count n d s).map fun p => (r :: p.1, p.2)

theorem listDir_succ (n : ℕ) (d : FatfsDirent) (s : Allocator.Store μ) :
    listDir H fs old count (n + 1) d s =
      (fatfsDirRead H fs n old d count s).bind (listBehind H fs old count n) := by
  rw [listDir, Allocator.bind_apply]
  rcases fatfsDirRead H fs n old d count s with _ | ⟨⟨d', r⟩, s'⟩
  · rfl
  · cases r with
    | fail => rfl
    | skip => exact Option.map_eq_bind.symm
    | name bs => exact Option.map_eq_bind.symm

section Listing

variable {d' : FatfsDirent} {s s' s'' : Allocator.Store μ}

theorem listBehind_of_ne (hr : r ≠ .fail) : listBehind H fs old count n ((d, r), s) =
    (listDir H fs old count n d s).map fun p => (r :: p.1, p.2) := by
  cases r with
  | fail => exact absurd rfl hr
  | skip => rfl
  | name bs => rfl

/-- A listing ends at a call that returns `-1`, -/
theorem yields_of_fail
    (h : Run.Yields (fun n => fatfsDirRead H fs n old d count s) ((d', .fail), s')) :
    Run.Yields (fun n => listDir H fs old count n d s) ([], s') :=
  h.succ rfl (fun n => listDir_succ n d s) (Run.Yields.const fun _ => rfl)

/-- and goes on behind another one. -/
theorem yields_of_pass (h : Run.Yields (fun n => fatfsDirRead H fs n old d count s) ((d', r), s'))
    (hr : r ≠ .fail) (hrest : Run.Yields (fun n => listDir H fs old count n d' s') (rs, s'')) :
    Run.Yields (fun n => listDir H fs old count n d s) (r :: rs, s'') := by
  refine h.succ rfl (fun n => listDir_succ n d s) ?_
  simp only [listBehind_of_ne hr]
  exact hrest.map fun p => (r :: p.1, p.2)

/-- A listing that ends has passed what its first call does not fail at. -/
theorem exists_of_listDir (h : Run.Yields (fun n => fatfsDirRead H fs n old d count s) ((d', r), s'))
    (hr : r ≠ .fail) (hlist : listDir H fs old count n d s = some (rs, s'')) :
    ∃ n rest, listDir H fs old count n d' s' = some (rest, s'') ∧ rs = r :: rest := by
  cases n with
  | zero => cases hlist
  | succ n =>
    rw [listDir_succ] at hlist
    obtain ⟨x, hx, hbehind⟩ := Option.bind_eq_some_iff.mp hlist
    rw [h.sound n x hx, listBehind_of_ne hr] at hbehind
    obtain ⟨⟨rest, s₁⟩, hrest, heq⟩ := Option.map_eq_some_iff.mp hbehind
    obtain ⟨rfl, rfl⟩ := Prod.mk.inj heq
    exact ⟨n, rest, hrest, rfl⟩

end Listing

/-- A call that returns `-1` whatever it is given. -/
theorem ReadsAs.yields_of_fail (h : ReadsAs H fs old count d .fail i qs) (m : μ) :
    ∃ s, Run.Yields (fun n => listDir H fs old count n (rootAt d i) (.fresh m)) ([], s) := by
  obtain ⟨d', hasks, -⟩ := h
  cases hm : H.serveAll m qs with
  | some m' => exact ⟨_, YakOS.yields_of_fail (hasks.granted m m' hm)⟩
  | none =>
    obtain ⟨⟨d'', r⟩, m', hr, hyields⟩ := hasks.refused m hm
    obtain rfl : r = .fail := hr
    exact ⟨_, YakOS.yields_of_fail hyields⟩

/-- **The results of a listing** from the `i`-th entry on, when the entries from there are `suf`: it ends
where a call fails or is refused its buffer, or where the entries end. -/
theorem yields_listDir
    (hreads : ∀ i < es.length, (∀ j < i, o (slotOf es j) ≠ .fail) →
      ReadsAs H fs old count d (o (slotOf es i)) i [q])
    (suf : List FatEntry) (m : μ) (hi : i + suf.length = es.length)
    (hslot : ∀ j, slotOf es (i + j) = slotOf suf j) (hpass : ∀ j < i, o (slotOf es j) ≠ .fail)
    (hend : (∀ j < es.length, o (slotOf es j) ≠ .fail) →
      ∀ m', H.serveAll m (List.replicate suf.length q) = some m' →
        ∃ s, Run.Yields (fun n => listDir H fs old count n (rootAt d es.length) (.fresh m')) ([], s)) :
    ∃ s, Run.Yields (fun n => listDir H fs old count n (rootAt d i) (.fresh m))
      (results o (suf.take (H.served q m suf.length)), s) := by
  induction suf generalizing i m with
  | nil =>
    obtain rfl : i = es.length := hi
    exact hend hpass m rfl
  | cons e suf ih =>
    have he : slotOf es i = e := hslot 0
    have hlt : i < es.length := by
      rw [List.length_cons] at hi
      omega
    obtain ⟨d', hasks, hnext⟩ := hreads i hlt hpass
    rw [he] at hasks hnext
    rw [List.length_cons, Allocator.served]
    cases hserve : H.serve m q with
    | none =>
      obtain ⟨⟨d'', r⟩, m', hr, hyields⟩ := hasks.refused m ((H.serveAll_singleton m q).trans hserve)
      obtain rfl : r = .fail := hr
      exact ⟨_, yields_of_fail hyields⟩
    | some m₁ =>
      have hyields := hasks.granted m m₁ ((H.serveAll_singleton m q).trans hserve)
      simp only [List.take_succ_cons, results_cons]
      by_cases hfail : o e = .fail
      · rw [hfail] at hyields
        rw [if_pos hfail]
        exact ⟨_, yields_of_fail hyields⟩
      · rw [if_neg hfail]
        obtain rfl := hnext hfail
        obtain ⟨s, hrest⟩ := @ih (i + 1) m₁ (by rw [← hi, List.length_cons]; omega)
          (fun j => by rw [Nat.add_assoc, Nat.add_comm 1 j]; exact hslot (j + 1))
          (fun j hj => by
            rcases Nat.lt_succ_iff_lt_or_eq.mp hj with hlt | rfl
            · exact hpass j hlt
            · rwa [he])
          (fun hall m' hm' => hend hall m' (by
            rw [List.length_cons, List.replicate_succ, H.serveAll_cons, hserve]
            exact hm'))
        exact ⟨s, yields_of_pass hyields hfail hrest⟩

/-- **What such a listing yields.** -/
theorem lists_iff {m : μ}
    (hreads : ∀ i < es.length, (∀ j < i, o (slotOf es j) ≠ .fail) →
      ReadsAs H fs old count d (o (slotOf es i)) i [q])
    (hend : (∀ j < es.length, o (slotOf es j) ≠ .fail) →
      ∀ m', H.serveAll m (List.replicate es.length q) = some m' →
        ∃ s, Run.Yields (fun n => listDir H fs old count n (rootAt d es.length) (.fresh m')) ([], s)) :
    ListsAs H m fs old count d rs ↔ rs = results o (es.take (H.served q m es.length)) := by
  obtain ⟨s, hyields⟩ := yields_listDir (i := 0) hreads es m (Nat.zero_add _)
    (fun j => by rw [Nat.zero_add]) (fun j hj => absurd hj (Nat.not_lt_zero j)) hend
  constructor
  · rintro ⟨n, s', hn⟩
    exact (Prod.mk.inj (hyields.sound n _ hn)).1
  · rintro rfl
    obtain ⟨n, hn⟩ := hyields.exists_iff.mpr rfl
    exact ⟨n, s, hn⟩

/-! ### The directory in the root area -/

/-- The root directory `d` holds the sequence, with zeros behind it, and ends in its first
sector. -/
structure RootHolds (fs : FatfsPriv) (d : FatfsDirent) (es : List FatEntry) : Prop where
  sector : 512 ≤ fs.bytesPerSector
  flag : d.flag &&& 0xFF00 ≠ 0
  fits : es.length ≤ fs.rootEntries
  slots : ∀ i < fs.rootEntries, i < fs.entriesPerSector → rootEntry fs.toVolume i = slotOf es i
  ends : EndsInFirstSector fs.toVolume

theorem slotOf_of_ge (h : es.length ≤ i) : slotOf es i = zeroEntry := by
  rw [slotOf, List.getD_eq_getElem?_getD, List.getElem?_eq_none h, Option.getD_none]

/-- A call on the root directory asks for a sector buffer. -/
theorem RootHolds.asks (h : RootHolds fs d es) (hcount : count ≠ 0) (hroot : i < fs.rootEntries)
    (hpass : ∀ j < i, outcome (slotOf es j) ≠ .fail) :
    ReadsAs H fs old count d (outcome (slotOf es i)) i [.keep fs.bytesPerSector] := by
  have hsec : i < fs.entriesPerSector := by
    rcases h.ends with hle | ⟨j, hj, hzero⟩
    · omega
    · by_contra hge
      -- the end marker is before the entry
      have hmarker := hpass j (by omega)
      rw [← h.slots j (by omega) hj] at hmarker
      exact hmarker (by simp [outcome, hzero])
  obtain ⟨hres, hnext⟩ := rootDirEntry_rootAt d (small_of_le hsec.le) (slotOf es i)
  have hcall : ∀ n, fatfsDirRead H fs n old (rootAt d i) count =
      fatfsRootDirRead H fs.toVolume (rootAt d i) := fun n => fatfsDirRead_root hcount h.flag n i
  have hentry : rootEntry fs.toVolume (i % fs.entriesPerSector) = slotOf es i := by
    rw [Nat.mod_eq_of_lt hsec, h.slots i hroot hsec]
  refine ⟨(rootDirEntry (rootAt d i) (slotOf es i)).1, ⟨fun m m' hm => ?_, fun m hm => ?_⟩, hnext⟩
  · rcases halloc : H.alloc m fs.bytesPerSector with ⟨_ | p, m₁⟩
    · rw [Allocator.serveAll_keep, halloc] at hm
      cases hm
    · rw [Allocator.serveAll_keep, halloc] at hm
      cases hm
      refine Run.Yields.const ?_
      intro n
      rw [hcall, fatfsRootDirRead_rootAt h.sector d hsec.le hroot, halloc, hentry, ← hres]
  · rcases halloc : H.alloc m fs.bytesPerSector with ⟨_ | p, m₁⟩
    · refine ⟨(rootAt d i, .fail), m₁, rfl, Run.Yields.const fun n => ?_⟩
      rw [hcall, fatfsRootDirRead_rootAt h.sector d hsec.le hroot, halloc]
    · rw [Allocator.serveAll_keep, halloc] at hm
      cases hm

/-- Behind the sequence, it returns `-1`. -/
theorem RootHolds.ended (h : RootHolds fs d es) (hcount : count ≠ 0)
    (hpass : ∀ j < es.length, outcome (slotOf es j) ≠ .fail) :
    ∃ qs, ReadsAs H fs old count d .fail es.length qs := by
  rcases Nat.lt_or_ge es.length fs.rootEntries with hroot | hroot
  · have hread : ReadsAs H fs old count d _ es.length _ := h.asks hcount hroot hpass
    rw [slotOf_of_ge le_rfl, show outcome zeroEntry = .fail by decide] at hread
    exact ⟨_, hread⟩
  · refine ⟨[], rootAt d es.length, Allocator.Asks.nil fun n m => ?_, fun hne => absurd rfl hne⟩
    rw [fatfsDirRead_root hcount h.flag, fatfsRootDirRead_behind d hroot]

/-! ### The directory in a cluster -/

/-- The directory `d` has one cluster, which holds the sequence with zeros behind it. -/
structure ClusterHolds (fs : FatfsPriv) (d : FatfsDirent) (es : List FatEntry) : Prop where
  sector : 512 ≤ fs.bytesPerSector
  cluster : 1 ≤ fs.sectorsPerCluster
  flag : ¬ d.flag &&& 0xFF00 ≠ 0
  dir : isDir d.flag = true
  fits : 32 * es.length ≤ fs.bytesPerCluster
  slots : ∀ i, direntAt (clusterBytes fs.toVolume d.entry) i = slotOf es i
  last : ∃ c, fs.opvector.fatNextCluster fs.toVolume d.entry = some c ∧ fs.opvector.fatMaxCluster ≤ c

/-- The buffer of a call of `fat_next_cluster`. -/
def fatBuffer (fs : FatfsPriv) : ℕ := fs.bytesPerSector * fs.opvector.bufferSectors

namespace ClusterHolds

theorem bytesPerCluster_pos (h : ClusterHolds fs d es) : 0 < fs.bytesPerCluster :=
  Nat.mul_pos ((by decide : 0 < 512).trans_le h.sector) h.cluster

/-- Behind the cluster, `fatfs_pread` asks for a FAT buffer and finds the end of the chain. -/
theorem pread_behind (h : ClusterHolds fs d es) (hcount : count ≠ 0) (i : ℕ) :
    H.Asks (fun n => fatfsPread H fs n (rootAt d i) count fs.bytesPerCluster) [.pass (fatBuffer fs)]
      (rootAt d i, 0, []) (·.2.1 = -1) := by
  obtain ⟨c, hnext, hmax⟩ := h.last
  have hdir : isDir (rootAt d i).flag = true := h.dir
  have hstay : ¬ fs.bytesPerCluster < (rootAt d i).offset := Nat.not_lt_zero _
  have hone : (fs.bytesPerCluster - (rootAt d i).offset) / fs.bytesPerCluster = 1 :=
    Nat.div_self h.bytesPerCluster_pos
  have hcluster : (rootAt d i).cluster = d.entry := rfl
  have hwalk : H.Asks (fun _ => walkClusters H fs 1 (rootAt d i)) [.pass (fatBuffer fs)]
      (.error (rootAt d i, 0)) (fun x => ∃ file, x = .error (file, -1)) := by
    unfold walkClusters fatNextCluster
    simp only [bind_assoc, hcluster, hnext]
    refine Allocator.Asks.pass (fun n p => rfl) (Allocator.Asks.nil fun n m => ?_) fun m => ?_
    · simp only [if_pos hmax]
      rfl
    · exact ⟨_, m, ⟨rootAt d i, rfl⟩, fun n => rfl⟩
  refine hwalk.succ (k := fun n => preadCluster H fs (fatfsPread H fs n) (n + 1) count fs.bytesPerCluster)
    (fun s => rfl) (fun n => ?_) (Allocator.Asks.nil fun n m => rfl) ?_
  · rw [fatfsPread]
    simp only [hdir, not_true_eq_false, false_and, if_false, if_neg hcount, preadBody, if_neg hstay, hone]
  · rintro x m ⟨file, rfl⟩
    exact ⟨_, m, rfl, fun n => rfl⟩

/-- The bytes of the `i`-th slot, or what the cluster has of them. -/
def slotBytes (fs : FatfsPriv) (d : FatfsDirent) (i : ℕ) : List UInt8 :=
  ((clusterBytes fs.toVolume d.entry).drop (32 * i)).take 32

theorem length_slotBytes (fs : FatfsPriv) (d : FatfsDirent) (i : ℕ) :
    (slotBytes fs d i).length = min 32 (fs.bytesPerCluster - 32 * i) := by
  rw [slotBytes, List.length_take, List.length_drop, length_clusterBytes]

/-- Inside the cluster, it reads the bytes of the slot and goes on behind them. -/
theorem pread_slot (h : ClusterHolds fs d es) (hi : 32 * i < fs.bytesPerCluster)
    {out : PreadResult}
    (hrest : H.Asks (fun n => preadRest (fatfsPread H fs n) (n + 1) (rootAt d i)
      (32 - (slotBytes fs d i).length) ((32 * i + (slotBytes fs d i).length) % 2 ^ 32) (slotBytes fs d i))
      qs out (·.2.1 = -1)) :
    H.Asks (fun n => fatfsPread H fs n (rootAt d i) 32 (32 * i)) (.pass fs.bytesPerCluster :: qs) out
      (·.2.1 = -1) := by
  have hsmall := fs.toVolume.bytesPerCluster_lt
  have hlen := length_slotBytes fs d i
  have hdir : isDir (rootAt d i).flag = true := h.dir
  have hstay : ¬ 32 * i < (rootAt d i).offset := Nat.not_lt_zero _
  have hzero : (32 * i - (rootAt d i).offset) / fs.bytesPerCluster = 0 := Nat.div_eq_of_lt hi
  have hread : fatReadCluster fs.toVolume (rootAt d i).cluster = some (clusterBytes fs.toVolume d.entry) :=
    fatReadCluster_eq h.sector h.cluster d.entry
  have hcpcnt : (if fs.bytesPerCluster > (32 * i - (rootAt d i).offset + 32) % 2 ^ 32 then 32
      else fs.bytesPerCluster - (32 * i - (rootAt d i).offset)) = (slotBytes fs d i).length := by
    show (if fs.bytesPerCluster > (32 * i + 32) % 2 ^ 32 then 32 else fs.bytesPerCluster - 32 * i) = _
    rw [hlen]
    split <;> omega
  have hdata : ((clusterBytes fs.toVolume d.entry).drop (32 * i - (rootAt d i).offset)).take
      (slotBytes fs d i).length = slotBytes fs d i := by
    show ((clusterBytes fs.toVolume d.entry).drop (32 * i)).take _ = _
    rw [hlen, slotBytes, List.take_eq_take_iff, List.length_drop, length_clusterBytes]
    omega
  refine Allocator.Asks.of_succ (fun s => rfl) ?_
  simp only [fatfsPread, hdir, not_true_eq_false, false_and, if_false, if_neg (show 32 ≠ 0 by decide),
    preadBody, if_neg hstay, hzero, walkClusters, pure_bind, preadCluster, hread, hcpcnt, hdata]
  exact Allocator.Asks.pass (fun n p => rfl) hrest fun m => ⟨_, m, rfl, fun n => rfl⟩

/-- It asks for a cluster buffer, and for a FAT buffer where the cluster ends inside the slot. -/
theorem pread_inside (h : ClusterHolds fs d es) (hi : 32 * i < fs.bytesPerCluster) :
    ∃ qs, (32 * (i + 1) ≤ fs.bytesPerCluster → qs = [.pass fs.bytesPerCluster]) ∧
      H.Asks (fun n => fatfsPread H fs n (rootAt d i) 32 (32 * i)) qs
        (rootAt d i, ((slotBytes fs d i).length : ℤ), slotBytes fs d i) (·.2.1 = -1) := by
  have hlen := length_slotBytes fs d i
  by_cases hmore : (32 * i + (slotBytes fs d i).length) % 2 ^ 32 < (rootAt d i).length ∧
      32 - (slotBytes fs d i).length > 0
  · have hsmall := fs.toVolume.bytesPerCluster_lt
    have hend : (32 * i + (slotBytes fs d i).length) % 2 ^ 32 = fs.bytesPerCluster := by omega
    refine ⟨[.pass fs.bytesPerCluster, .pass (fatBuffer fs)], fun hwhole => by omega, h.pread_slot hi ?_⟩
    have hcount : 32 - (slotBytes fs d i).length ≠ 0 := by omega
    simp only [preadRest, if_pos hmore]
    simp only [hend]
    refine (h.pread_behind hcount i).bind (fun n m => rfl) ?_
    rintro ⟨file, ret, more⟩ m hret
    obtain rfl : ret = -1 := hret
    exact ⟨_, m, rfl, fun n => rfl⟩
  · refine ⟨[.pass fs.bytesPerCluster], fun _ => rfl, h.pread_slot hi (Allocator.Asks.nil fun n m => ?_)⟩
    simp only [preadRest, if_neg hmore]
    rfl

/-- A call, from what `fatfs_pread` returns. -/
theorem dirRead_of_pread (h : ClusterHolds fs d es) (hcount : count ≠ 0) {data : List UInt8}
    (hp : H.Asks (fun n => fatfsPread H fs n (rootAt d i) 32 (32 * i)) qs
      (rootAt d i, (data.length : ℤ), data) (·.2.1 = -1)) :
    H.Asks (fun n => fatfsDirRead H fs n old (rootAt d i) count) qs
      ({ rootAt d i with lseek := (32 * i + data.length) % 2 ^ 32 },
        dirOutcome (direntAt (data ++ old.drop data.length) 0)) (·.2 = .fail) := by
  have hflag : ¬ (rootAt d i).flag &&& 0xFF00 ≠ 0 := h.flag
  have hdir : ¬ ¬ isDir (rootAt d i).flag = true := not_not_intro h.dir
  have hret : ¬ (data.length : ℤ) = -1 := by omega
  simp only [fatfsDirRead, if_neg hcount, if_neg hflag, if_neg hdir]
  refine hp.bind ?_ ?_
  · intro n m
    simp only [if_neg hret, Int.toNat_natCast, dirOutcome]
    split <;> rfl
  · rintro ⟨file, ret, more⟩ m hret
    obtain rfl : ret = -1 := hret
    exact ⟨(file, .fail), m, rfl, fun n => rfl⟩

end ClusterHolds

/-- An entry only depends on its own 32 bytes. -/
theorem direntAt_congr {buf buf' : List UInt8} {j j' : ℕ}
    (h : ∀ k < 32, buf.getD (32 * j + k) 0 = buf'.getD (32 * j' + k) 0) :
    direntAt buf j = direntAt buf' j' := by
  unfold direntAt
  simp only [FatEntry.mk.injEq]
  refine ⟨read_congr fun k _ hk => h k (by omega), read_congr fun k _ hk => h k (by omega), ?_,
    u16_congr fun k _ hk => h k (by omega), u16_congr fun k _ hk => h k (by omega),
    u32_congr fun k _ hk => h k (by omega)⟩
  rw [h 11 (by decide)]

/-- An entry of a long read, by a read of its own bytes. -/
theorem direntAt_read (m : ℕ → UInt8) (a : ℕ) {n j : ℕ} (hj : 32 * (j + 1) ≤ n) :
    direntAt (Bytes.read m a n) j = direntAt (Bytes.read m (a + 32 * j) 32) 0 := by
  apply direntAt_congr
  intro k hk
  have hk' : 32 * j + k < n := by omega
  simp only [Bytes.read, List.getD_eq_getElem?_getD, List.getElem?_map, Nat.mul_zero, Nat.zero_add,
    List.getElem?_range hk, List.getElem?_range hk', Option.map_some, Nat.add_assoc]

theorem isZero_direntAt (buf : List UInt8) (j : ℕ) :
    (direntAt buf j).isZero = (buf.getD (32 * j) 0 == 0) := rfl

theorem dirOutcome_of_not_nonBlank (h : e.nonBlank = false) : dirOutcome e = .fail := by
  rw [FatEntry.nonBlank, decide_eq_false_iff_not] at h
  exact if_neg h

namespace ClusterHolds

/-- The bytes of a slot that lies in the cluster are its entry. -/
theorem direntAt_slotBytes (h : ClusterHolds fs d es) (hi : 32 * (i + 1) ≤ fs.bytesPerCluster)
    (rest : List UInt8) : direntAt (slotBytes fs d i ++ rest) 0 = slotOf es i := by
  rw [← h.slots i]
  apply direntAt_congr
  intro k hk
  have hlen := length_slotBytes fs d i
  rw [List.getD_append _ _ _ _ (by omega), slotBytes, List.getD_eq_getElem?_getD,
    List.getElem?_take_of_lt (by omega), List.getElem?_drop, ← List.getD_eq_getElem?_getD]
  congr 1
  omega

/-- Where the cluster ends inside a slot, it has no name. -/
theorem direntAt_slotBytes_of_partial (h : ClusterHolds fs d es) (hi : 32 * i < fs.bytesPerCluster)
    (hzero : slotOf es i = zeroEntry) (rest : List UInt8) :
    dirOutcome (direntAt (slotBytes fs d i ++ rest) 0) = .fail := by
  have hlen := length_slotBytes fs d i
  have hfirst : (slotBytes fs d i ++ rest).getD (32 * 0) 0 =
      (clusterBytes fs.toVolume d.entry).getD (32 * i) 0 := by
    rw [List.getD_append _ _ _ _ (by omega), slotBytes, List.getD_eq_getElem?_getD,
      List.getElem?_take_of_lt (by omega), List.getElem?_drop, ← List.getD_eq_getElem?_getD]
    rfl
  have hslot := isZero_direntAt (clusterBytes fs.toVolume d.entry) i
  rw [h.slots i, hzero, ← hfirst, ← isZero_direntAt] at hslot
  refine dirOutcome_of_not_nonBlank ?_
  by_contra hblank
  rw [FatEntry.isZero_of_nonBlank (Bool.of_not_eq_false hblank)] at hslot
  exact absurd hslot (by decide)

/-- **A call inside the cluster** asks for a cluster buffer and returns what the entry comes to; -/
theorem asks (h : ClusterHolds fs d es) (hcount : count ≠ 0) (hi : 32 * (i + 1) ≤ fs.bytesPerCluster) :
    ReadsAs H fs old count d (dirOutcome (slotOf es i)) i [.pass fs.bytesPerCluster] := by
  have hsmall := fs.toVolume.bytesPerCluster_lt
  have hlen := length_slotBytes fs d i
  obtain ⟨qs, hqs, hasks⟩ := h.pread_inside (H := H) (show 32 * i < fs.bytesPerCluster by omega)
  obtain rfl := hqs hi
  have hread : H.Asks (fun n => fatfsDirRead H fs n old (rootAt d i) count) _ _ _ :=
    h.dirRead_of_pread hcount hasks
  have hnext : (32 * i + (slotBytes fs d i).length) % 2 ^ 32 = 32 * (i + 1) := by omega
  rw [h.direntAt_slotBytes hi, hnext] at hread
  exact ⟨_, hread, fun _ => rfl⟩

/-- one behind a cluster that is full asks for a FAT buffer and decodes the caller's buffer. -/
theorem asks_behind (h : ClusterHolds fs d es) (hcount : count ≠ 0)
    (hend : fs.bytesPerCluster = 32 * i) :
    ∃ d', H.Asks (fun n => fatfsDirRead H fs n old (rootAt d i) count) [.pass (fatBuffer fs)]
      (d', dirOutcome (direntAt old 0)) (·.2 = .fail) := by
  have hp : H.Asks (fun n => fatfsPread H fs n (rootAt d i) 32 fs.bytesPerCluster) _
      (rootAt d i, (([] : List UInt8).length : ℤ), []) _ := h.pread_behind (show 32 ≠ 0 by decide) i
  rw [hend] at hp
  exact ⟨_, h.dirRead_of_pread hcount hp⟩

/-- A call at a slot of the cluster that the sequence does not reach returns `-1`. -/
theorem ended (h : ClusterHolds fs d es) (hcount : count ≠ 0)
    (hmore : 32 * es.length < fs.bytesPerCluster) :
    ∃ qs, ReadsAs H fs old count d .fail es.length qs := by
  have hslot : slotOf es es.length = zeroEntry := slotOf_of_ge le_rfl
  obtain ⟨qs, -, hasks⟩ := h.pread_inside (H := H) hmore
  have hread : H.Asks (fun n => fatfsDirRead H fs n old (rootAt d es.length) count) _ _ _ :=
    h.dirRead_of_pread hcount hasks
  rw [h.direntAt_slotBytes_of_partial hmore hslot] at hread
  exact ⟨qs, _, hread, fun hne => absurd rfl hne⟩

/-- The entries of a sequence that is passed as a whole all have names. -/
theorem nonBlank_of_passed (hpass : ∀ j < es.length, dirOutcome (slotOf es j) ≠ .fail) :
    ∀ e ∈ es, e.nonBlank = true := by
  intro e he
  obtain ⟨j, hj, rfl⟩ := List.getElem_of_mem he
  by_contra hblank
  refine hpass j hj (dirOutcome_of_not_nonBlank ?_)
  rw [slotOf, List.getD_eq_getElem _ _ hj]
  exact Bool.eq_false_of_not_eq_true hblank

/-- The listing of a full cluster of names goes past its end when it is given the memory and the caller's
buffer is not blank. -/
theorem lt_length_of_listDir (h : ClusterHolds fs d es) (hcount : count ≠ 0)
    (hall : ∀ e ∈ es, e.nonBlank = true) (hfull : fs.bytesPerCluster = 32 * es.length)
    (hold : (direntAt old 0).nonBlank = true) (k : ℕ) {m : μ} {s : Allocator.Store μ}
    (hi : i + k = es.length)
    (hgrants : H.Grants m (List.replicate k (.pass fs.bytesPerCluster) ++ [.pass (fatBuffer fs)]))
    (hlist : listDir H fs old count n (rootAt d i) (.fresh m) = some (rs, s)) : k < rs.length := by
  have hname : ∀ {e : FatEntry}, e.nonBlank = true → dirOutcome e ≠ .fail := by
    intro e he
    rw [FatEntry.nonBlank, decide_eq_true_iff] at he
    rw [dirOutcome, if_pos he]
    exact nofun
  induction k generalizing i n m rs with
  | zero =>
    obtain rfl : i = es.length := hi
    obtain ⟨m', hm'⟩ := Option.isSome_iff_exists.mp hgrants
    obtain ⟨d', hasks⟩ := h.asks_behind (H := H) hcount hfull
    obtain ⟨n', rest, -, rfl⟩ := exists_of_listDir (hasks.granted m m' hm') (hname hold) hlist
    exact Nat.succ_pos _
  | succ k ih =>
    have hlt : i < es.length := by omega
    obtain ⟨m', hm'⟩ := Option.isSome_iff_exists.mp hgrants
    rw [List.replicate_succ, List.cons_append, H.serveAll_cons] at hm'
    obtain ⟨m₁, hserve, hm'⟩ := Option.bind_eq_some_iff.mp hm'
    have hread : ReadsAs H fs old count d (dirOutcome (slotOf es i)) i _ := h.asks hcount (by omega)
    obtain ⟨d', hasks, hnext⟩ := hread
    have hne : dirOutcome (slotOf es i) ≠ .fail := by
      rw [slotOf, List.getD_eq_getElem _ _ hlt]
      exact hname (hall _ (List.getElem_mem hlt))
    obtain rfl := hnext hne
    obtain ⟨n', rest, hrest, rfl⟩ :=
      exists_of_listDir (hasks.granted m m₁ ((H.serveAll_singleton m _).trans hserve)) hne hlist
    have hlen := ih (by omega) (Option.isSome_iff_exists.mpr ⟨m', hm'⟩) hrest
    exact Nat.succ_lt_succ hlen

end ClusterHolds

/-! ### When the listings agree -/

/-- **The two listings agree exactly when** the entries that the listing of the cluster passes with its
memory are live, that of the root directory has a sector buffer for each of them and passes no live
entry behind them with those it has left, and the caller's buffer is blank if the sequence fills the
cluster, has no blank entry and the memory lasts to its end. -/
theorem listings_agree_iff (H : Allocator μ) (m m' : μ) (fs fs' : FatfsPriv) (old : List UInt8) (count : ℕ)
    (r d : FatfsDirent) (es : List FatEntry) (hcount : count ≠ 0) (hr : RootHolds fs r es)
    (hd : ClusterHolds fs' d es) :
    (∃ rs rs', ListsAs H m fs old count r rs ∧ ListsAs H m' fs' old count d rs' ∧
        listedNames rs = listedNames rs' ∧ ReportsLive es rs ∧ ReportsLive es rs') ↔
      let sectors := H.served (.keep fs.bytesPerSector) m es.length
      let clusters := H.served (.pass fs'.bytesPerCluster) m' es.length
      ((∀ e ∈ dirPassed es clusters, e.isLive = true) ∧ (dirPassed es clusters).length ≤ sectors ∧
        ∀ e ∈ rootPassed es sectors (dirPassed es clusters).length, e.isLive = false) ∧
      ((∀ e ∈ es, e.nonBlank = true) → fs'.bytesPerCluster = 32 * es.length →
        H.Grants m' (List.replicate es.length (.pass fs'.bytesPerCluster) ++ [.pass (fatBuffer fs')]) →
        (direntAt old 0).nonBlank = false) := by
  dsimp only
  generalize hsectors : H.served (.keep fs.bytesPerSector) m es.length = sectors
  generalize hclusters : H.served (.pass fs'.bytesPerCluster) m' es.length = clusters
  have hroot : ∀ rs, ListsAs H m fs old count r rs ↔ rs = results outcome (es.take sectors) := by
    intro rs
    rw [← hsectors]
    refine lists_iff (fun i hi hpass => hr.asks hcount (hi.trans_le hr.fits) hpass) ?_
    intro hpass m₁ _
    obtain ⟨qs, hread⟩ := hr.ended hcount hpass
    exact hread.yields_of_fail m₁
  by_cases hold : (∀ e ∈ es, e.nonBlank = true) → fs'.bytesPerCluster = 32 * es.length →
      H.Grants m' (List.replicate es.length (.pass fs'.bytesPerCluster) ++ [.pass (fatBuffer fs')]) →
      (direntAt old 0).nonBlank = false
  · have hfits := hd.fits
    have hdir : ∀ rs, ListsAs H m' fs' old count d rs ↔ rs = results dirOutcome (es.take clusters) := by
      intro rs
      rw [← hclusters]
      refine lists_iff (fun i hi _ => hd.asks hcount (by omega)) ?_
      intro hpass m₁ hm₁
      rcases Nat.lt_or_ge (32 * es.length) fs'.bytesPerCluster with hmore | hge
      · obtain ⟨qs, hread⟩ := hd.ended hcount hmore
        exact hread.yields_of_fail m₁
      -- the sequence fills the cluster, and the call decodes what the buffer holds
      · have hfull : fs'.bytesPerCluster = 32 * es.length := by omega
        obtain ⟨d', hasks⟩ := hd.asks_behind (H := H) hcount hfull
        cases hm₂ : H.serveAll m₁ [.pass (fatBuffer fs')] with
        | none =>
          obtain ⟨⟨d'', r⟩, m₂, hfail, hyields⟩ := hasks.refused m₁ hm₂
          obtain rfl : r = .fail := hfail
          exact ⟨_, yields_of_fail hyields⟩
        | some m₂ =>
          have hgrants : H.serveAll m' (List.replicate es.length (.pass fs'.bytesPerCluster) ++
              [.pass (fatBuffer fs')]) = some m₂ := by
            rw [H.serveAll_append, hm₁]
            exact hm₂
          have hblank := hold (ClusterHolds.nonBlank_of_passed hpass) hfull
            (Option.isSome_iff_exists.mpr ⟨m₂, hgrants⟩)
          have hyields := hasks.granted m₁ m₂ hm₂
          rw [dirOutcome_of_not_nonBlank hblank] at hyields
          exact ⟨_, yields_of_fail hyields⟩
    rw [and_iff_left hold, ← agree_iff]
    constructor
    · rintro ⟨rs, rs', hrs, hrs', hnames, -, hlive⟩
      obtain rfl := (hroot rs).mp hrs
      obtain rfl := (hdir rs').mp hrs'
      exact ⟨hnames, hlive⟩
    · rintro ⟨hnames, hlive⟩
      exact ⟨_, _, (hroot _).mpr rfl, (hdir _).mpr rfl, hnames, reportsLive_root es sectors, hlive⟩
  -- the listing of the cluster goes past the end of the sequence
  · refine iff_of_false ?_ fun h => hold h.2
    rintro ⟨-, rs', -, ⟨n, s, hn⟩, -, -, hlive⟩
    simp only [not_forall, Bool.not_eq_false] at hold
    obtain ⟨hall, hfull, hgrants, hblank⟩ := hold
    have hlt := hd.lt_length_of_listDir hcount hall hfull hblank es.length (Nat.zero_add _) hgrants hn
    have hle : (beforeEnd es).length ≤ es.length := (List.takeWhile_sublist _).length_le
    exact absurd hlive.1 (Nat.not_le.mpr (hle.trans_lt hlt))

/-- A FAT16 volume whose root directory and whose directory in cluster 2 both hold one entry, with a
name of the one character `c`. -/
def listVolume (c : UInt8) : FatfsPriv where
  image := fun a =>
    if a = 516 ∨ a = 517 then 0xFF
    else if a = 1024 ∨ a = 1536 then c
    else if 1024 < a ∧ a < 1036 ∨ 1536 < a ∧ a < 1548 then 0x20
    else 0
  bytesPerSector := 512
  sectorsPerCluster := 1
  firstClusterSector := 3
  reservedSector := 1
  sectorsPerFat := 1
  numberOfFAT := 1
  rootEntries := 16
  bytesPerSector_lt := Volume.sectorBytes_lt
  sectorsPerCluster_lt := Volume.clusterSectors_lt
  opvector := fat16fsOpvector fun _ => 0

/-- The entry. -/
def nameEntry (c : UInt8) : FatEntry := ⟨c :: List.replicate 7 0x20, List.replicate 3 0x20, 0x20, 0, 0, 0⟩

/-- The directory in cluster 2. -/
def clusterDirent : FatfsDirent := ⟨0, 2, 0, 0, 2, 0x10⟩

theorem rootHolds_listVolume {c : UInt8}
    (h : ∀ i < 16, direntAt (Bytes.read (listVolume c).byteAt (1024 + 32 * i) 32) 0
      = slotOf [nameEntry c] i) :
    RootHolds (listVolume c) rootDirent [nameEntry c] where
  sector := le_refl 512
  flag := by decide
  fits := (by decide : 1 ≤ 16)
  slots := by
    intro i hi hsector
    have haddr : (rootSector (listVolume c).toVolume + 0) % 2 ^ 32 * (listVolume c).bytesPerSector
        = 1024 := by simp [rootSector, listVolume]
    rw [rootEntry, Nat.div_eq_of_lt hsector, Nat.mod_eq_of_lt hsector, haddr]
    have hread := direntAt_read (listVolume c).byteAt 1024
      (show 32 * (i + 1) ≤ 512 from Nat.mul_le_mul_left 32 (show i + 1 ≤ 16 from hi))
    exact hread.trans (h i hi)
  ends := Or.inl (by decide : 16 ≤ 512 / 32)

theorem clusterHolds_listVolume {c : UInt8}
    (h : ∀ i < 16, direntAt (Bytes.read (listVolume c).byteAt ((3 + 2 ^ 32) * 512 + 32 * i) 32) 0
      = slotOf [nameEntry c] i)
    (hlast : (listVolume c).opvector.fatNextCluster (listVolume c).toVolume 2 = some 0xFFFF) :
    ClusterHolds (listVolume c) clusterDirent [nameEntry c] where
  sector := le_refl 512
  cluster := le_refl 1
  flag := by decide
  dir := by decide
  fits := (by decide : 32 * 1 ≤ 512 * 1)
  slots := by
    intro i
    rcases Nat.lt_or_ge i 16 with hi | hi
    · have hread := direntAt_read (listVolume c).byteAt ((3 + 2 ^ 32) * 512)
        (show 32 * (i + 1) ≤ 512 by omega)
      exact hread.trans (h i hi)
    · have hlen : (clusterBytes (listVolume c).toVolume 2).length = 512 := length_clusterBytes _ 2
      rw [slotOf_of_ge (show [nameEntry c].length ≤ i from (by decide : 1 ≤ 16).trans hi)]
      apply direntAt_congr
      intro k hk
      rw [show clusterDirent.entry = 2 from rfl, List.getD_eq_getElem?_getD,
        List.getElem?_eq_none (by omega)]
      rfl
  last := ⟨0xFFFF, hlast, (by decide : 0xFFF0 ≤ 0xFFFF)⟩

/-- The heap after boot has the buffers for one entry. -/
theorem served_bootHeap (c : UInt8) : ∃ h ∈ bootHeap,
    kernelAllocator.served (.keep (listVolume c).bytesPerSector) h 1 = 1 ∧
      kernelAllocator.served (.pass (listVolume c).bytesPerCluster) h 1 = 1 := by
  obtain ⟨h, hh⟩ := Option.isSome_iff_exists.mp (by decide : bootHeap.isSome)
  have hserved : bootHeap.all (fun h => kernelAllocator.served (.keep 512) h 1 == 1 &&
      kernelAllocator.served (.pass (512 * 1)) h 1 == 1) = true := by
    decide +kernel
  rw [hh, Option.all_some, Bool.and_eq_true, beq_iff_eq, beq_iff_eq] at hserved
  exact ⟨h, hh, hserved⟩

/-- With a file `A` the listings agree on the heap after boot. -/
theorem listings_agree_file : ∃ h ∈ bootHeap, ∃ rs rs',
    ListsAs kernelAllocator h (listVolume 0x41) [] 1024 rootDirent rs ∧
      ListsAs kernelAllocator h (listVolume 0x41) [] 1024 clusterDirent rs' ∧
      listedNames rs = listedNames rs' ∧ ReportsLive [nameEntry 0x41] rs ∧
        ReportsLive [nameEntry 0x41] rs' := by
  obtain ⟨h, hh, hsectors, hclusters⟩ := served_bootHeap 0x41
  refine ⟨h, hh, (listings_agree_iff kernelAllocator h h (listVolume 0x41) (listVolume 0x41) [] 1024
    rootDirent clusterDirent [nameEntry 0x41] (by decide) (rootHolds_listVolume (by decide +kernel))
    (clusterHolds_listVolume (by decide +kernel) (by decide +kernel))).mpr ⟨?_, ?_⟩⟩
  · rw [show [nameEntry 0x41].length = 1 from rfl, hsectors, hclusters]
    exact ⟨by decide, by decide, by decide⟩
  · exact fun _ hfull => absurd hfull (by decide)

/-- A deleted file is listed in the cluster only. -/
theorem listings_differ : ¬ ∀ (h : Heap) (fs fs' : FatfsPriv) (old : List UInt8) (count : ℕ)
    (r d : FatfsDirent) (es : List FatEntry), count ≠ 0 → RootHolds fs r es → ClusterHolds fs' d es →
      ∃ rs rs', ListsAs kernelAllocator h fs old count r rs ∧
        ListsAs kernelAllocator h fs' old count d rs' ∧
        listedNames rs = listedNames rs' ∧ ReportsLive es rs ∧ ReportsLive es rs' := by
  intro hall
  have hr : RootHolds (listVolume 0xE5) rootDirent [nameEntry 0xE5] :=
    rootHolds_listVolume (by decide +kernel)
  have hd : ClusterHolds (listVolume 0xE5) clusterDirent [nameEntry 0xE5] :=
    clusterHolds_listVolume (by decide +kernel) (by decide +kernel)
  obtain ⟨h, -, -, hclusters⟩ := served_bootHeap 0xE5
  obtain ⟨-, rs', -, hrs', -, -, hlive⟩ :=
    hall h (listVolume 0xE5) (listVolume 0xE5) [] 1024 rootDirent clusterDirent _ (by decide) hr hd
  have hresults : rs' = results dirOutcome ([nameEntry 0xE5].take
      (kernelAllocator.served (.pass (listVolume 0xE5).bytesPerCluster) h [nameEntry 0xE5].length)) := by
    refine (lists_iff (fun i hi _ => hd.asks (by decide) ?_) fun hpass m₁ _ => ?_).mp hrs'
    · obtain rfl : i = 0 := Nat.lt_one_iff.mp hi
      decide
    · obtain ⟨qs, hread⟩ := hd.ended (show 1024 ≠ 0 by decide) (by decide)
      exact hread.yields_of_fail m₁
  rw [show [nameEntry 0xE5].length = 1 from rfl, hclusters] at hresults
  rw [hresults] at hlive
  exact absurd (hlive.2 _ List.mem_cons_self (fun h => by cases h)) (by decide)

end YakOS
