import YakOS.Lib.Bytes
import Mathlib.Algebra.Group.Nat.Defs
import Mathlib.Order.Lattice

/-!
# Moving and comparing memory

`memmove` and `memcmp` of `lib/string.c`.  `memmove` compares the two pointers and
copies upwards or downwards, so that a byte of the source is read before the loop
reaches it.  `memcmp` keeps the difference of two bytes in a `signed char`.

## Main definitions

* `memmove`, `copyUp`, `copyDown` — the copy and its two loops.
* `Moved m m' dest src count` — what a copy that reads the bytes before the call leaves.
* `memcmp`, `memcmpLoop` — the comparison.
* `CharRange cs ct count` — the first bytes that differ are at a distance that a
  `signed char` holds.

## Main results

* `memmove_moves` — for every overlap of the two ranges.
* `memcmp_order` — when the sign of `memcmp` is the lexicographic order.
-/

namespace YakOS

open Bytes

/-- An address of the machine. -/
abbrev Addr := BitVec 32

/-- The bytes of the address space. -/
abbrev Memory := Addr → UInt8

section Move

/-- `while (count--) *tmp++ = *s++;` -/
def copyUp (m : Memory) (tmp s : Addr) : ℕ → Memory
  | 0 => m
  | count + 1 => copyUp (Function.update m tmp (m s)) (tmp + 1) (s + 1) count

/-- `while (count--) *--tmp = *--s;` -/
def copyDown (m : Memory) (tmp s : Addr) : ℕ → Memory
  | 0 => m
  | count + 1 => copyDown (Function.update m (tmp - 1) (m (s - 1))) (tmp - 1) (s - 1) count

/-- `memmove`: the value it returns and the memory it leaves. -/
def memmove (m : Memory) (dest src : Addr) (count : BitVec 32) : Addr × Memory :=
  if dest ≤ src then (dest, copyUp m dest src count.toNat)
  else (dest, copyDown m (dest + count) (src + count) count.toNat)

/-- `m'` holds at `dest` the `count` bytes that `m` holds at `src`, and is `m` elsewhere. -/
structure Moved (m m' : Memory) (dest src : Addr) (count : ℕ) : Prop where
  copied : ∀ i < count, m' (dest + BitVec.ofNat 32 i) = m (src + BitVec.ofNat 32 i)
  frame : ∀ a, (∀ i < count, a ≠ dest + BitVec.ofNat 32 i) → m' a = m a

variable {m m' : Memory} {dest src : Addr} {count : ℕ}

theorem toNat_add_ofNat {a : Addr} {i : ℕ} (h : a.toNat + i < 2 ^ 32) :
    (a + BitVec.ofNat 32 i).toNat = a.toNat + i := by
  rw [BitVec.toNat_add, toNat_ofNat_of_lt (by omega), Nat.mod_eq_of_lt h]

theorem add_one_add_ofNat (a : Addr) (i : ℕ) : a + 1 + BitVec.ofNat 32 i = a + BitVec.ofNat 32 (i + 1) := by
  rw [BitVec.add_assoc, Nat.add_comm i 1, BitVec.ofNat_add]
  rfl

theorem add_ofNat_succ_sub_one (a : Addr) (k : ℕ) :
    a + BitVec.ofNat 32 (k + 1) - 1 = a + BitVec.ofNat 32 k := by
  rw [BitVec.ofNat_add, ← BitVec.add_assoc]
  exact BitVec.add_sub_cancel _ _

theorem Moved.zero (m : Memory) (dest src : Addr) : Moved m m dest src 0 :=
  ⟨fun _ h => absurd h (Nat.not_lt_zero _), fun _ _ => rfl⟩

/-- Copying one byte and then the bytes behind it. -/
theorem Moved.up (hle : dest ≤ src) (hsrc : src.toNat + (count + 1) ≤ 2 ^ 32)
    (h : Moved (Function.update m dest (m src)) m' (dest + 1) (src + 1) count) :
    Moved m m' dest src (count + 1) := by
  have hlt : dest.toNat ≤ src.toNat := hle
  constructor
  · intro i hi
    cases i with
    | zero =>
      have hdest : ∀ i < count, dest ≠ dest + 1 + BitVec.ofNat 32 i := by
        intro i hi heq
        rw [add_one_add_ofNat] at heq
        have := congrArg BitVec.toNat heq
        rw [toNat_add_ofNat (by omega)] at this
        omega
      rw [BitVec.add_zero, BitVec.add_zero, h.frame dest hdest, Function.update_self]
    | succ i =>
      have hne : src + BitVec.ofNat 32 (i + 1) ≠ dest := by
        intro heq
        have := congrArg BitVec.toNat heq
        rw [toNat_add_ofNat (by omega)] at this
        omega
      rw [← add_one_add_ofNat, h.copied i (by omega), add_one_add_ofNat, Function.update_of_ne hne]
  · intro a ha
    have hdest : a ≠ dest := by
      have := ha 0 (by omega)
      rwa [BitVec.add_zero] at this
    rw [h.frame a ?_, Function.update_of_ne hdest]
    intro i hi
    rw [add_one_add_ofNat]
    exact ha (i + 1) (by omega)

/-- Copying the last byte and then the bytes in front of it. -/
theorem Moved.down (hlt : src < dest) (hdest : dest.toNat + (count + 1) ≤ 2 ^ 32)
    (h : Moved (Function.update m (dest + BitVec.ofNat 32 count) (m (src + BitVec.ofNat 32 count)))
      m' dest src count) :
    Moved m m' dest src (count + 1) := by
  have hlt' : src.toNat < dest.toNat := hlt
  have hlast : (dest + BitVec.ofNat 32 count).toNat = dest.toNat + count := toNat_add_ofNat (by omega)
  constructor
  · intro i hi
    rcases Nat.lt_succ_iff_lt_or_eq.mp hi with hi' | rfl
    · have hne : src + BitVec.ofNat 32 i ≠ dest + BitVec.ofNat 32 count := by
        intro heq
        have := congrArg BitVec.toNat heq
        rw [hlast, toNat_add_ofNat (by omega)] at this
        omega
      rw [h.copied i hi', Function.update_of_ne hne]
    · have hlast' : ∀ j < i, dest + BitVec.ofNat 32 i ≠ dest + BitVec.ofNat 32 j := by
        intro j hj heq
        have := congrArg BitVec.toNat heq
        rw [hlast, toNat_add_ofNat (by omega)] at this
        omega
      rw [h.frame _ hlast', Function.update_self]
  · intro a ha
    rw [h.frame a fun i hi => ha i (by omega), Function.update_of_ne (ha count (by omega))]

theorem moved_copyUp (hle : dest ≤ src) (hsrc : src.toNat + count ≤ 2 ^ 32) :
    Moved m (copyUp m dest src count) dest src count := by
  induction count generalizing m dest src with
  | zero => exact Moved.zero m dest src
  | succ count ih =>
    refine Moved.up hle hsrc ?_
    cases count with
    | zero => exact Moved.zero _ _ _
    | succ count =>
      have hlt : dest.toNat ≤ src.toNat := hle
      have hsrc1 : (src + 1).toNat = src.toNat + 1 := toNat_add_ofNat (i := 1) (by omega)
      have hdest1 : (dest + 1).toNat = dest.toNat + 1 := toNat_add_ofNat (i := 1) (by omega)
      exact ih (BitVec.le_def.mpr (by omega)) (by omega)

theorem moved_copyDown (hlt : src < dest) (hdest : dest.toNat + count ≤ 2 ^ 32) :
    Moved m (copyDown m (dest + BitVec.ofNat 32 count) (src + BitVec.ofNat 32 count) count) dest src
      count := by
  induction count generalizing m with
  | zero => exact Moved.zero m dest src
  | succ count ih =>
    rw [copyDown, add_ofNat_succ_sub_one, add_ofNat_succ_sub_one]
    exact Moved.down hlt hdest (ih (by omega))

/-- `memmove` moves: however the two ranges overlap, the destination holds what the source held, and
no other byte changes. -/
theorem memmove_moves (m : Memory) (dest src : Addr) (count : BitVec 32)
    (hdest : dest.toNat + count.toNat ≤ 2 ^ 32) (hsrc : src.toNat + count.toNat ≤ 2 ^ 32) :
    (memmove m dest src count).1 = dest ∧
      (∀ i < count.toNat, (memmove m dest src count).2 (dest + BitVec.ofNat 32 i)
        = m (src + BitVec.ofNat 32 i)) ∧
      ∀ a, (a.toNat < dest.toNat ∨ dest.toNat + count.toNat ≤ a.toNat) →
        (memmove m dest src count).2 a = m a := by
  have hmoved : (memmove m dest src count).1 = dest ∧
      Moved m (memmove m dest src count).2 dest src count.toNat := by
    unfold memmove
    split
    · next hle => exact ⟨rfl, moved_copyUp hle hsrc⟩
    · next hlt =>
      refine ⟨rfl, ?_⟩
      have h := moved_copyDown (m := m) (BitVec.not_le.mp hlt) hdest
      rwa [BitVec.ofNat_toNat, BitVec.setWidth_eq] at h
  refine ⟨hmoved.1, hmoved.2.copied, fun a ha => hmoved.2.frame a fun i hi heq => ?_⟩
  have := congrArg BitVec.toNat heq
  rw [toNat_add_ofNat (by omega)] at this
  omega

/-- Every byte holds the low byte of its address, and three of them move up by one. -/
theorem memmove_moves_overlap :
    let m : Memory := fun a => UInt8.ofNat a.toNat
    (memmove m 5 4 3).1 = 5 ∧
      (∀ i < 3, (memmove m 5 4 3).2 (5 + BitVec.ofNat 32 i) = m (4 + BitVec.ofNat 32 i)) ∧
      ∀ a : Addr, (a.toNat < 5 ∨ 5 + 3 ≤ a.toNat) → (memmove m 5 4 3).2 a = m a :=
  memmove_moves _ 5 4 3 (by decide) (by decide)

end Move

section Compare

/-- The loop of `memcmp` on the bytes that the two pointers point at. -/
def memcmpLoop (su1 su2 : ℕ → UInt8) : ℕ → Int8 → Int8
  | 0, res => res
  | count + 1, _ =>
      let res := Int8.ofInt ((su1 0).toNat - (su2 0).toNat)
      if res ≠ 0 then res else memcmpLoop (fun i => su1 (i + 1)) (fun i => su2 (i + 1)) count res

/-- `memcmp` -/
def memcmp (cs ct : ℕ → UInt8) (count : ℕ) : ℤ := (memcmpLoop cs ct count 0).toInt

/-- The sign of `memcmp` is that of the lexicographic comparison of the first `count` bytes. -/
def ComparesBytes (cs ct : ℕ → UInt8) (count : ℕ) : Prop :=
  (memcmp cs ct count < 0 ↔ read cs 0 count < read ct 0 count) ∧
    (memcmp cs ct count = 0 ↔ read cs 0 count = read ct 0 count) ∧
    (0 < memcmp cs ct count ↔ read ct 0 count < read cs 0 count)

/-- The first bytes that differ, if they are among the first `count`, are at a distance that a
`signed char` holds. -/
def CharRange (cs ct : ℕ → UInt8) (count : ℕ) : Prop :=
  ∀ i < count, (∀ j < i, cs j = ct j) →
    (cs i).toNat ≤ (ct i).toNat + 127 ∧ (ct i).toNat ≤ (cs i).toNat + 128

/-- The difference of the first bytes that differ, before it is narrowed. -/
def firstDiff (cs ct : ℕ → UInt8) : ℕ → ℤ
  | 0 => 0
  | count + 1 =>
      if cs 0 = ct 0 then firstDiff (fun i => cs (i + 1)) (fun i => ct (i + 1)) count
      else (cs 0).toNat - (ct 0).toNat

variable {cs ct : ℕ → UInt8} {count : ℕ}

theorem int8_ofInt_toInt (a b : UInt8) :
    (Int8.ofInt ((a.toNat : ℤ) - b.toNat)).toInt = ((a.toNat : ℤ) - b.toNat).bmod 256 :=
  Int8.toInt_ofInt

theorem toNat_ne_of_ne {a b : UInt8} (h : a ≠ b) : a.toNat ≠ b.toNat :=
  fun heq => h (UInt8.toNat_inj.mp heq)

/-- Narrowed to a `signed char`, the difference of two bytes is zero for equal bytes only. -/
theorem int8_ofInt_eq_zero_iff (a b : UInt8) : Int8.ofInt ((a.toNat : ℤ) - b.toNat) = 0 ↔ a = b := by
  have ha := a.toNat_lt
  have hb := b.toNat_lt
  constructor
  · intro h
    have hz : ((a.toNat : ℤ) - b.toNat).bmod 256 = 0 := by
      rw [← int8_ofInt_toInt, h]
      rfl
    rw [Int.bmod_def] at hz
    exact UInt8.toNat_inj.mp (by omega)
  · rintro rfl
    rw [sub_self]
    rfl

theorem memcmpLoop_toInt (cs ct : ℕ → UInt8) (count : ℕ) {res : Int8} (hres : res = 0) :
    (memcmpLoop cs ct count res).toInt = (firstDiff cs ct count).bmod 256 := by
  induction count generalizing cs ct res with
  | zero => rw [hres]; rfl
  | succ count ih =>
    rw [memcmpLoop, firstDiff]
    by_cases h : cs 0 = ct 0
    · have hzero := (int8_ofInt_eq_zero_iff (cs 0) (ct 0)).mpr h
      rw [if_neg (not_not_intro hzero), if_pos h]
      exact ih _ _ hzero
    · rw [if_pos (fun hz => h ((int8_ofInt_eq_zero_iff _ _).mp hz)), if_neg h, int8_ofInt_toInt]

theorem memcmp_eq (cs ct : ℕ → UInt8) (count : ℕ) :
    memcmp cs ct count = (firstDiff cs ct count).bmod 256 :=
  memcmpLoop_toInt cs ct count rfl

theorem firstDiff_bounds (cs ct : ℕ → UInt8) (count : ℕ) :
    -255 ≤ firstDiff cs ct count ∧ firstDiff cs ct count ≤ 255 := by
  induction count generalizing cs ct with
  | zero => simp [firstDiff]
  | succ count ih =>
    rw [firstDiff]
    split
    · exact ih _ _
    · have ha := (cs 0).toNat_lt
      have hb := (ct 0).toNat_lt
      omega

theorem firstDiff_swap (cs ct : ℕ → UInt8) (count : ℕ) :
    firstDiff ct cs count = - firstDiff cs ct count := by
  induction count generalizing cs ct with
  | zero => rfl
  | succ count ih =>
    rw [firstDiff, firstDiff]
    by_cases h : cs 0 = ct 0
    · rw [if_pos h, if_pos h.symm, ih]
    · rw [if_neg h, if_neg (Ne.symm h), neg_sub]

theorem read_zero_succ (m : ℕ → UInt8) (count : ℕ) :
    read m 0 (count + 1) = m 0 :: read (fun i => m (i + 1)) 0 count := by
  rw [Bytes.read, Bytes.read, List.range_succ_eq_map, List.map_cons, List.map_map]
  simp [Function.comp_def]

theorem firstDiff_eq_zero_iff (cs ct : ℕ → UInt8) (count : ℕ) :
    firstDiff cs ct count = 0 ↔ read cs 0 count = read ct 0 count := by
  induction count generalizing cs ct with
  | zero => simp [firstDiff, Bytes.read]
  | succ count ih =>
    rw [firstDiff, read_zero_succ, read_zero_succ, List.cons.injEq, ← ih]
    by_cases h : cs 0 = ct 0
    · simp [h]
    · have := toNat_ne_of_ne h
      rw [if_neg h]
      simp only [h, false_and, iff_false]
      omega

theorem firstDiff_neg_iff (cs ct : ℕ → UInt8) (count : ℕ) :
    firstDiff cs ct count < 0 ↔ read cs 0 count < read ct 0 count := by
  induction count generalizing cs ct with
  | zero => simp [firstDiff, Bytes.read]
  | succ count ih =>
    rw [firstDiff, read_zero_succ, read_zero_succ, List.cons_lt_cons_iff, ← ih]
    by_cases h : cs 0 = ct 0
    · simp [h]
    · have := toNat_ne_of_ne h
      rw [if_neg h]
      simp only [h, false_and, or_false, UInt8.lt_iff_toNat_lt]
      omega

theorem firstDiff_pos_iff (cs ct : ℕ → UInt8) (count : ℕ) :
    0 < firstDiff cs ct count ↔ read ct 0 count < read cs 0 count := by
  rw [← firstDiff_neg_iff, firstDiff_swap]
  omega

/-- A statement about the first bytes that differ is one about their difference. -/
theorem firstDiff_iff {P : ℤ → Prop} (hP : P 0) (cs ct : ℕ → UInt8) (count : ℕ) :
    P (firstDiff cs ct count)
      ↔ ∀ i < count, (∀ j < i, cs j = ct j) → P ((cs i).toNat - (ct i).toNat) := by
  induction count generalizing cs ct with
  | zero => simpa [firstDiff] using hP
  | succ count ih =>
    rw [firstDiff]
    by_cases h : cs 0 = ct 0
    · rw [if_pos h, ih]
      constructor
      · intro hall i hi heq
        cases i with
        | zero => rwa [h, sub_self]
        | succ i => exact hall i (by omega) fun j hj => heq (j + 1) (by omega)
      · intro hall i hi heq
        refine hall (i + 1) (by omega) ?_
        intro j hj
        cases j with
        | zero => exact h
        | succ j => exact heq j (by omega)
    · rw [if_neg h]
      constructor
      · intro hp i _ heq
        cases i with
        | zero => exact hp
        | succ i => exact absurd (heq 0 (by omega)) h
      · intro hall
        exact hall 0 (by omega) fun j hj => absurd hj (Nat.not_lt_zero j)

theorem charRange_iff (cs ct : ℕ → UInt8) (count : ℕ) :
    CharRange cs ct count ↔ -128 ≤ firstDiff cs ct count ∧ firstDiff cs ct count ≤ 127 := by
  rw [firstDiff_iff (P := fun d => -128 ≤ d ∧ d ≤ 127) (by decide)]
  unfold CharRange
  refine forall_congr' fun i => forall_congr' fun _ => forall_congr' ?_
  intro _
  omega

theorem CharRange.memcmp_eq (h : CharRange cs ct count) : memcmp cs ct count = firstDiff cs ct count := by
  rw [charRange_iff] at h
  rw [YakOS.memcmp_eq, Int.bmod_def]
  omega

theorem comparesBytes_iff (cs ct : ℕ → UInt8) (count : ℕ) :
    ComparesBytes cs ct count ↔ CharRange cs ct count := by
  unfold ComparesBytes
  rw [charRange_iff, ← firstDiff_neg_iff, ← firstDiff_eq_zero_iff, ← firstDiff_pos_iff, memcmp_eq,
    Int.bmod_def]
  have := firstDiff_bounds cs ct count
  omega

/-- Two comparisons of a pair, one each way, disagree at a distance of 128 only. -/
theorem memcmp_swap_iff (cs ct : ℕ → UInt8) (count : ℕ) :
    memcmp ct cs count = - memcmp cs ct count ↔
      ∀ i < count, (∀ j < i, cs j = ct j) →
        (cs i).toNat ≠ (ct i).toNat + 128 ∧ (ct i).toNat ≠ (cs i).toNat + 128 := by
  have hdist : (∀ i < count, (∀ j < i, cs j = ct j) →
      (cs i).toNat ≠ (ct i).toNat + 128 ∧ (ct i).toNat ≠ (cs i).toNat + 128) ↔
      firstDiff cs ct count ≠ 128 ∧ firstDiff cs ct count ≠ -128 := by
    rw [firstDiff_iff (P := fun d => d ≠ 128 ∧ d ≠ -128) (by decide)]
    refine forall_congr' fun i => forall_congr' fun _ => forall_congr' ?_
    intro _
    omega
  have hbounds := firstDiff_bounds cs ct count
  rw [hdist, memcmp_eq, memcmp_eq, firstDiff_swap cs ct, Int.bmod_def, Int.bmod_def]
  omega

/-- `memcmp` orders two sequences as unsigned bytes exactly when the first bytes that differ are within
a `signed char` of each other.  Swapping the arguments swaps the sign unless they are 128 apart, and
among sequences that are pairwise in range the comparison is transitive. -/
theorem memcmp_order (cs ct cu : ℕ → UInt8) (count : ℕ) :
    (ComparesBytes cs ct count ↔ CharRange cs ct count) ∧
    (memcmp ct cs count = - memcmp cs ct count ↔
      ∀ i < count, (∀ j < i, cs j = ct j) →
        (cs i).toNat ≠ (ct i).toNat + 128 ∧ (ct i).toNat ≠ (cs i).toNat + 128) ∧
    (CharRange cs ct count → CharRange ct cu count → CharRange cs cu count →
      memcmp cs ct count < 0 → memcmp ct cu count < 0 → memcmp cs cu count < 0) := by
  refine ⟨comparesBytes_iff cs ct count, memcmp_swap_iff cs ct count, ?_⟩
  intro hst htu hsu hlt hlt'
  rw [hst.memcmp_eq, firstDiff_neg_iff] at hlt
  rw [htu.memcmp_eq, firstDiff_neg_iff] at hlt'
  rw [hsu.memcmp_eq, firstDiff_neg_iff]
  exact List.lt_trans hlt hlt'

/-- The bytes 0 and 128 come out smaller than each other. -/
theorem memcmp_both_negative :
    ¬ ComparesBytes (fun _ => 128) (fun _ => 0) 1 ∧
      memcmp (fun _ => 128) (fun _ => 0) 1 < 0 ∧ memcmp (fun _ => 0) (fun _ => 128) 1 < 0 := by
  refine ⟨?_, by decide, by decide⟩
  intro h
  exact absurd (h.1.mp (by decide)) (by decide)

end Compare

end YakOS
