import Mathlib.Data.List.Basic
import Mathlib.Data.UInt

/-!
# Two-level page tables

The translation of a 32-bit address through a page directory of 4096 descriptors, one
for each megabyte.  A descriptor is a fault, a section, or points to a coarse table of
256 words (pages of 4K and 64K) or to a fine table of 1024 (pages of 1K too).  The
permission bits of a page are given for each quarter of it.

## Main definitions

* `field` — two neighbouring bits of a word.
* `Translation` — the physical address and the bits that decide on the access.
* `coarseEntry`, `fineEntry`, `translateAddr` — the walk.
* `InTable` — the words of the table a descriptor points to.

## Main results

* `field_or`, `field_and` — the bits of the words that `|` and `&` build.
* `translateAddr_congr` — the walk only reads the descriptor and the table behind it.
* `translateAddr_coarse`, `translateAddr_section` — the walk through a coarse table, and that of a
  section.
-/

namespace PageTable

/-! ### Bits -/

/-- The bits `k` and `k + 1` of a word. -/
def field (w k : ℕ) : ℕ := w / 2 ^ k % 4

theorem field_or (a b k : ℕ) : field (a ||| b) k = field a k ||| field b k := by
  unfold field
  rw [Nat.or_div_two_pow]
  exact Nat.or_mod_two_pow (n := 2)

theorem field_and (a b k : ℕ) : field (a &&& b) k = field a k &&& field b k := by
  unfold field
  rw [Nat.and_div_two_pow]
  exact Nat.and_mod_two_pow (n := 2)

theorem field_lt (w k : ℕ) : field w k < 4 := Nat.mod_lt _ (by decide)

/-- A field masked with two bits set. -/
theorem field_and_three (w k : ℕ) : field w k &&& 3 = field w k := by
  rw [show 3 = 2 ^ 2 - 1 from rfl, Nat.and_two_pow_sub_one_eq_mod]
  exact Nat.mod_eq_of_lt (field_lt w k)

/-! ### The walk -/

/-- Where an address leads: the physical address, the permission bits, the bits for the cache and
the write buffer, and the domain. -/
structure Translation where
  paddr : ℕ
  ap : ℕ
  cb : ℕ
  domain : ℕ
  deriving DecidableEq, Repr

/-- A page of 4K, with permissions for each of its quarters. -/
def smallPage (domain w v : ℕ) : Translation :=
  ⟨w / 2 ^ 12 * 2 ^ 12 + v % 2 ^ 12, field w (4 + 2 * (v / 2 ^ 10 % 4)), field w 2, domain⟩

/-- A page of 64K, with permissions for each of its quarters. -/
def largePage (domain w v : ℕ) : Translation :=
  ⟨w / 2 ^ 16 * 2 ^ 16 + v % 2 ^ 16, field w (4 + 2 * (v / 2 ^ 14 % 4)), field w 2, domain⟩

/-- A page of 1K. -/
def tinyPage (domain w v : ℕ) : Translation :=
  ⟨w / 2 ^ 10 * 2 ^ 10 + v % 2 ^ 10, field w 4, field w 2, domain⟩

/-- A section of a megabyte. -/
def sectionPage (d v : ℕ) : Translation :=
  ⟨d / 2 ^ 20 * 2 ^ 20 + v % 2 ^ 20, field d 10, field d 2, d / 2 ^ 5 % 16⟩

/-- The word `w` of a coarse table. -/
def coarseEntry (domain w v : ℕ) : Option Translation :=
  match field w 0 with
  | 1 => some (largePage domain w v)
  | 2 => some (smallPage domain w v)
  | _ => none

/-- The word `w` of a fine table. -/
def fineEntry (domain w v : ℕ) : Option Translation :=
  match field w 0 with
  | 1 => some (largePage domain w v)
  | 2 => some (smallPage domain w v)
  | 3 => some (tinyPage domain w v)
  | _ => none

/-- The address of the descriptor of the address `v`. -/
def descriptorAt (ttb v : ℕ) : ℕ := ttb + 4 * (v / 2 ^ 20)

/-- The coarse table the descriptor `d` points to. -/
def coarseBase (d : ℕ) : ℕ := d / 2 ^ 10 * 2 ^ 10

/-- The fine table the descriptor `d` points to. -/
def fineBase (d : ℕ) : ℕ := d / 2 ^ 12 * 2 ^ 12

/-- The walk of the address `v` through the directory at `ttb`. -/
def translateAddr (mem : ℕ → UInt32) (ttb v : ℕ) : Option Translation :=
  let d := (mem (descriptorAt ttb v)).toNat
  match field d 0 with
  | 1 => coarseEntry (d / 2 ^ 5 % 16) (mem (coarseBase d + 4 * (v / 2 ^ 12 % 256))).toNat v
  | 2 => some (sectionPage d v)
  | 3 => fineEntry (d / 2 ^ 5 % 16) (mem (fineBase d + 4 * (v / 2 ^ 10 % 1024))).toNat v
  | _ => none

/-- The byte `x` lies in the table the descriptor `d` points to. -/
def InTable (d x : ℕ) : Prop :=
  (field d 0 = 1 ∧ coarseBase d ≤ x ∧ x < coarseBase d + 2 ^ 10) ∨
    (field d 0 = 3 ∧ fineBase d ≤ x ∧ x < fineBase d + 2 ^ 12)

variable {mem mem' : ℕ → UInt32} {ttb v : ℕ}

/-- The walk depends on the descriptor and on the table it points to. -/
theorem translateAddr_congr (hdir : mem' (descriptorAt ttb v) = mem (descriptorAt ttb v))
    (htable : ∀ x, InTable (mem (descriptorAt ttb v)).toNat x → mem' x = mem x) :
    translateAddr mem' ttb v = translateAddr mem ttb v := by
  unfold translateAddr
  rw [hdir]
  generalize (mem (descriptorAt ttb v)).toNat = d at htable
  by_cases h₁ : field d 0 = 1
  · have hword := htable (coarseBase d + 4 * (v / 2 ^ 12 % 256)) (Or.inl ⟨h₁, by omega, by omega⟩)
    simp only [h₁, hword]
  · by_cases h₃ : field d 0 = 3
    · have hword := htable (fineBase d + 4 * (v / 2 ^ 10 % 1024)) (Or.inr ⟨h₃, by omega, by omega⟩)
      simp only [h₃, hword]
    · have hlt := field_lt d 0
      have h02 : field d 0 = 0 ∨ field d 0 = 2 := by omega
      rcases h02 with h | h <;> simp only [h]

/-- The walk through a coarse table at `base`. -/
theorem translateAddr_coarse {base : ℕ} (hbase : base % 2 ^ 10 = 0)
    (hdir : (mem (descriptorAt ttb v)).toNat = base + 1) :
    translateAddr mem ttb v =
      coarseEntry 0 (mem (base + 4 * (v / 2 ^ 12 % 256))).toNat v := by
  have hfield : field (base + 1) 0 = 1 := by
    unfold field
    omega
  have htable : coarseBase (base + 1) = base := by
    unfold coarseBase
    omega
  have hdomain : (base + 1) / 2 ^ 5 % 16 = 0 := by omega
  unfold translateAddr
  simp only [hdir, hfield, htable, hdomain]

/-- The walk ends at the descriptor of a section. -/
theorem translateAddr_section (hdir : field (mem (descriptorAt ttb v)).toNat 0 = 2) :
    translateAddr mem ttb v = some (sectionPage (mem (descriptorAt ttb v)).toNat v) := by
  unfold translateAddr
  simp only [hdir]

/-- The descriptor of a coarse table points to the table. -/
theorem inTable_coarse {base x : ℕ} (hbase : base % 2 ^ 10 = 0) :
    InTable (base + 1) x ↔ base ≤ x ∧ x < base + 2 ^ 10 := by
  have hfield : field (base + 1) 0 = 1 := by
    unfold field
    omega
  have htable : coarseBase (base + 1) = base := by
    unfold coarseBase
    omega
  unfold InTable
  rw [hfield, htable]
  simp

end PageTable
