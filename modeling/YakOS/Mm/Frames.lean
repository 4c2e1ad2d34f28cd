import Mathlib.Tactic.Ring
import YakOS.Mm.PageAlloc

/-!
# Addresses and page descriptors

`page_address` and `virt_to_page` translate between the two in different units: the
first counts descriptors from the start of the array, which is also the first page of
the zone, the second counts page frames from the start of the address space.  The range
test of `virt_to_page` lets the frame behind the last page of the zone through.

## Main definitions

* `InZone z a` — `a` lies in one of the pages of the zone.
* `FindsPage z a` — `virt_to_page` finds a page for `a` when there is one, and then
  the page `a` lies in.

## Main results

* `findsPage_iff` — the addresses for which it does.
-/

namespace YakOS

/-- `a` lies in one of the `spanned_pages` pages of the zone. -/
def InZone (z : Zone) (a : ℕ) : Prop :=
  ∃ n < z.spannedPages, pageAddress z n ≤ a ∧ a < pageAddress z n + pageSize

/-- `virt_to_page` answers for the addresses of the zone, with the page of the address. -/
def FindsPage (z : Zone) (a : ℕ) : Prop :=
  ((virtToPage z a).isSome ↔ InZone z a) ∧
    ∀ p, virtToPage z a = some p → pageAddress z p = a / pageSize * pageSize

/-- The zone begins on a page boundary and is smaller than the address space. -/
structure Framed (z : Zone) : Prop where
  aligned : z.memmapPages = z.zoneStartPfn * pageSize
  start_lt : z.zoneStartPfn < 2 ^ 20
  spanned_lt : z.spannedPages < 2 ^ 20

/-- Linking free blocks leaves the frame of the zone alone. -/
theorem Framed.insertLoop {fuel : ℕ} {z : Zone} (h : Framed z) (p : ℤ) (curNum order : ℕ) :
    Framed (insertLoop fuel z p curNum order) := by
  induction fuel generalizing z p curNum order with
  | zero => exact h
  | succ fuel ih =>
    have hstep : Framed (z.pushFreeTail order p) := ⟨h.aligned, h.start_lt, h.spanned_lt⟩
    rw [YakOS.insertLoop]
    by_cases hfit : 2 ^ order ≤ curNum
    · simp only [if_pos hfit]
      split
      · exact ih hstep _ _ _
      · exact hstep
    · simp only [if_neg hfit]
      split
      · exact ih h _ _ _
      · exact h

theorem framed_pageAllocInit {mem : ℤ → Page} {addr size : ℕ} {z : Zone}
    (h : pageAllocInit mem addr size = some z) : Framed z := by
  unfold pageAllocInit at h
  split at h
  · cases h
  · rw [← Option.some.inj h]
    refine Framed.insertLoop ⟨?_, ?_, ?_⟩ _ _ _
    · simp only
      rw [Nat.mul_div_cancel _ (by decide : 0 < pageSize)]
    · simp only
      unfold pageSize
      omega
    · simp only
      unfold pageSize
      omega

theorem isSome_virtToPage_iff (z : Zone) (a : ℕ) : (virtToPage z a).isSome ↔
    z.zoneStartPfn ≤ a / pageSize ∧ a / pageSize ≤ z.zoneStartPfn + z.spannedPages := by
  unfold virtToPage
  dsimp only
  split
  · simp only [Option.isSome_none, Bool.false_eq_true, false_iff]
    omega
  · simp only [Option.isSome_some, true_iff]
    omega

namespace Framed

variable {z : Zone} (h : Framed z)

include h

/-- The address of a page, by its frame: it wraps around behind the last frame. -/
theorem pageAddress_eq (n : ℕ) :
    pageAddress z n = (z.zoneStartPfn + n) % 2 ^ 20 * pageSize := by
  have hsum : (z.memmapPages : ℤ) + (n : ℤ) * pageSize
      = (((z.zoneStartPfn + n) * pageSize : ℕ) : ℤ) := by
    rw [h.aligned]
    push_cast
    ring
  unfold pageAddress
  rw [hsum]
  unfold pageSize
  omega

/-- An address lies in the zone if its frame does. -/
theorem inZone_iff (a : ℕ) :
    InZone z a ↔ ∃ n < z.spannedPages, (z.zoneStartPfn + n) % 2 ^ 20 = a / pageSize := by
  refine exists_congr fun n => and_congr_right ?_
  intro _
  rw [h.pageAddress_eq]
  unfold pageSize
  omega

/-- The page that is found for an address begins where the page of the address does. -/
theorem pageAddress_virtToPage {a : ℕ} (ha : a < 2 ^ 32) {p : ℤ} (hp : virtToPage z a = some p) :
    pageAddress z p = a / pageSize * pageSize := by
  unfold virtToPage at hp
  dsimp only at hp
  split at hp
  · cases hp
  · next hrange =>
    rw [← Option.some.inj hp, h.pageAddress_eq]
    have hframe : a / pageSize < 2 ^ 20 := by
      unfold pageSize
      omega
    rw [Nat.add_sub_cancel' (by omega), Nat.mod_eq_of_lt hframe]

/-- Only the frame behind the zone is taken for one of its pages, and only the pages that wrap
around are not found. -/
theorem findsPage_iff {a : ℕ} (ha : a < 2 ^ 32) :
    FindsPage z a ↔ a / pageSize ≠ z.zoneStartPfn + z.spannedPages ∧
      z.zoneStartPfn + z.spannedPages ≤ a / pageSize + 2 ^ 20 := by
  have hstart := h.start_lt
  have hspanned := h.spanned_lt
  have hframe : a / pageSize < 2 ^ 20 := by
    unfold pageSize
    omega
  unfold FindsPage
  rw [and_iff_left fun p hp => h.pageAddress_virtToPage ha hp, isSome_virtToPage_iff, h.inZone_iff]
  generalize a / pageSize = pfn at hframe ⊢
  constructor
  · intro hiff
    by_contra hcond
    by_cases hend : pfn = z.zoneStartPfn + z.spannedPages
    · obtain ⟨n, hn, hmod⟩ := hiff.mp (by omega)
      omega
    · have := hiff.mpr ⟨pfn + 2 ^ 20 - z.zoneStartPfn, by omega, by omega⟩
      omega
  · rintro ⟨hend, hwrap⟩
    constructor
    · intro hrange
      exact ⟨pfn - z.zoneStartPfn, by omega, by omega⟩
    · rintro ⟨n, hn, hmod⟩
      omega

theorem virtToPage_pageAddress_iff {n : ℕ} (hn : n < z.spannedPages) :
    virtToPage z (pageAddress z n) = some (n : ℤ) ↔ z.zoneStartPfn + n < 2 ^ 20 := by
  have hstart := h.start_lt
  have hspanned := h.spanned_lt
  unfold virtToPage
  rw [h.pageAddress_eq, Nat.mul_div_cancel _ (by decide : 0 < pageSize)]
  dsimp only
  split
  · simp only [reduceCtorEq, false_iff]
    omega
  · rw [Option.some.injEq, Nat.cast_inj]
    omega

end Framed

/-- In a zone that `page_alloc_init` sets up, `virt_to_page` is right about an address exactly when the
address is not in the page behind the zone and the zone does not run over the end of the address space
up to it.  It takes the address of a descriptor back to the descriptor if the page does not wrap
around. -/
theorem virtToPage_exact {mem : ℤ → Page} {addr size : ℕ} {z : Zone}
    (h : pageAllocInit mem addr size = some z) :
    (∀ a < 2 ^ 32, FindsPage z a ↔ a / pageSize ≠ z.zoneStartPfn + z.spannedPages ∧
      z.zoneStartPfn + z.spannedPages ≤ a / pageSize + 2 ^ 20) ∧
    ∀ n < z.spannedPages,
      virtToPage z (pageAddress z n) = some (n : ℤ) ↔ z.zoneStartPfn + n < 2 ^ 20 :=
  ⟨fun _ ha => (framed_pageAllocInit h).findsPage_iff ha,
    fun _ hn => (framed_pageAllocInit h).virtToPage_pageAddress_iff hn⟩

theorem exists_onePageZone : ∃ z, pageAllocInit (fun _ => default) 4096 4096 = some z ∧
    z.zoneStartPfn = 1 ∧ z.spannedPages = 1 :=
  ⟨_, rfl, by decide, by decide⟩

theorem virtToPage_exact_onePage : ∃ z, pageAllocInit (fun _ => default) 4096 4096 = some z ∧
    (∀ a < 2 ^ 32, FindsPage z a ↔ a / pageSize ≠ z.zoneStartPfn + z.spannedPages ∧
      z.zoneStartPfn + z.spannedPages ≤ a / pageSize + 2 ^ 20) ∧
    ∀ n < z.spannedPages,
      virtToPage z (pageAddress z n) = some (n : ℤ) ↔ z.zoneStartPfn + n < 2 ^ 20 := by
  obtain ⟨z, hz, -⟩ := exists_onePageZone
  exact ⟨z, hz, virtToPage_exact hz⟩

/-- The address right behind a zone of one page is taken for an address of the zone. -/
theorem not_findsPage_behind : ¬ ∀ mem addr size z, pageAllocInit mem addr size = some z →
    ∀ a < 2 ^ 32, FindsPage z a := by
  intro hall
  obtain ⟨z, hz, hstart, hspanned⟩ := exists_onePageZone
  have hfinds := hall _ _ _ z hz 8192 (by decide)
  rw [(framed_pageAllocInit hz).findsPage_iff (by decide), hstart, hspanned] at hfinds
  exact hfinds.1 rfl

end YakOS
