import Mathlib.Data.List.Basic
import Mathlib.Data.UInt
import Mathlib.Data.BitVec

/-!
# Flat memories

A memory is a function from addresses to cells.  `write` overwrites a run of
cells, `read` returns one; for byte memories `u16` and `u32` are the
little-endian words at an address, `le16` and `le32` the bytes that store them, and
`field` the numbers that are packed in them; `cString` and `strcmp` are the strings
of C.

## Main results

* `read_write_self`, `read_write_of_disjoint` — reading back a write, and reading
  beside it.
* `u16_write_le16`, `u32_write_le32` — a stored word is read back modulo its width.
* `read_congr`, `u16_congr`, `u32_congr` — a read only depends on the cells it
  covers.
* `field_eq` — a packed number, from the bytes it covers.
* `view_store` — a store into a wrapping memory is a write, seen from a base below it.
* `take_drop_flatMap_chunks` — a piece of a concatenation of equally long chunks
  that lies inside one of them.
-/

namespace Bytes

variable {α : Type*}

/-- Overwrite the cells from address `a` on by `bs`. -/
def write (m : ℕ → α) (a : ℕ) (bs : List α) : ℕ → α :=
  fun i => if a ≤ i then (bs[i - a]?).getD (m i) else m i

/-- The `n` cells from address `a` on. -/
def read (m : ℕ → α) (a n : ℕ) : List α := (List.range n).map fun i => m (a + i)

@[simp] theorem length_read (m : ℕ → α) (a n : ℕ) : (read m a n).length = n := by simp [read]

theorem write_of_lt (m : ℕ → α) {a i : ℕ} (bs : List α) (h : i < a) : write m a bs i = m i := by
  rw [write, if_neg (by omega)]

theorem write_of_ge (m : ℕ → α) {a i : ℕ} (bs : List α) (h : a + bs.length ≤ i) :
    write m a bs i = m i := by
  rw [write, if_pos (by omega), List.getElem?_eq_none (by omega), Option.getD_none]

theorem write_add (m : ℕ → α) (a : ℕ) {i : ℕ} {bs : List α} (h : i < bs.length) :
    write m a bs (a + i) = bs[i] := by
  rw [write, if_pos (by omega), Nat.add_sub_cancel_left, List.getElem?_eq_getElem h, Option.getD_some]

/-- A write leaves every cell outside it alone. -/
theorem write_of_disjoint (m : ℕ → α) {a i : ℕ} {bs : List α} (h : i < a ∨ a + bs.length ≤ i) :
    write m a bs i = m i :=
  h.elim (write_of_lt m bs) (write_of_ge m bs)

/-- A read only depends on the cells it covers. -/
theorem read_congr {m m' : ℕ → α} {a n : ℕ} (h : ∀ i, a ≤ i → i < a + n → m i = m' i) :
    read m a n = read m' a n := by
  apply List.map_congr_left
  intro i hi
  rw [List.mem_range] at hi
  exact h (a + i) (by omega) (by omega)

theorem read_write_self (m : ℕ → α) (a : ℕ) (bs : List α) : read (write m a bs) a bs.length = bs := by
  refine List.ext_getElem (by simp) ?_
  intro i hi hi'
  simp only [read, List.getElem_map, List.getElem_range]
  exact write_add m a hi'

theorem read_write_of_disjoint (m : ℕ → α) {a b n : ℕ} {bs : List α}
    (h : b + n ≤ a ∨ a + bs.length ≤ b) : read (write m a bs) b n = read m b n :=
  read_congr fun _ _ _ => write_of_disjoint m (by omega)

theorem write_nil (m : ℕ → α) (a : ℕ) : write m a [] = m := by
  funext i
  simp [write]

/-- Two writes in a row are one. -/
theorem write_append (m : ℕ → α) (a : ℕ) (bs cs : List α) :
    write (write m a bs) (a + bs.length) cs = write m a (bs ++ cs) := by
  funext i
  rcases Nat.lt_or_ge i (a + bs.length) with hi | hi
  · rw [write_of_lt _ _ hi, write, write]
    split
    · rw [List.getElem?_append_left (by omega)]
    · rfl
  · rw [write, if_pos hi, write_of_ge _ _ hi, write, if_pos (by omega),
      List.getElem?_append_right (by omega), Nat.sub_add_eq]

theorem read_append (m : ℕ → α) (a n k : ℕ) :
    read m a (n + k) = read m a n ++ read m (a + n) k := by
  simp only [read, List.range_add, List.map_append, List.map_map]
  congr 1
  apply List.map_congr_left
  intro i _
  simp [Nat.add_assoc]

/-! ### Little-endian words -/

/-- The 16-bit little-endian word at address `a`. -/
def u16 (m : ℕ → UInt8) (a : ℕ) : ℕ := (m a).toNat + 256 * (m (a + 1)).toNat

/-- The 32-bit little-endian word at address `a`. -/
def u32 (m : ℕ → UInt8) (a : ℕ) : ℕ := u16 m a + 65536 * u16 m (a + 2)

/-- The two bytes of a 16-bit word. -/
def le16 (n : ℕ) : List UInt8 := [UInt8.ofNat n, UInt8.ofNat (n / 256)]

/-- The four bytes of a 32-bit word. -/
def le32 (n : ℕ) : List UInt8 := le16 n ++ le16 (n / 65536)

@[simp] theorem length_le16 (n : ℕ) : (le16 n).length = 2 := rfl

@[simp] theorem length_le32 (n : ℕ) : (le32 n).length = 4 := rfl

theorem u16_congr {m m' : ℕ → UInt8} {a : ℕ} (h : ∀ i, a ≤ i → i < a + 2 → m i = m' i) :
    u16 m a = u16 m' a := by
  rw [u16, u16, h a le_rfl (by omega), h (a + 1) (by omega) (by omega)]

theorem u32_congr {m m' : ℕ → UInt8} {a : ℕ} (h : ∀ i, a ≤ i → i < a + 4 → m i = m' i) :
    u32 m a = u32 m' a := by
  rw [u32, u32, u16_congr fun i h1 h2 => h i h1 (by omega),
    u16_congr fun i h1 h2 => h i (by omega) (by omega)]

theorem u16_lt (m : ℕ → UInt8) (a : ℕ) : u16 m a < 2 ^ 16 := by
  have h1 := (m a).toNat_lt
  have h2 := (m (a + 1)).toNat_lt
  unfold u16
  omega

theorem u32_lt (m : ℕ → UInt8) (a : ℕ) : u32 m a < 2 ^ 32 := by
  have h1 := u16_lt m a
  have h2 := u16_lt m (a + 2)
  unfold u32
  omega

/-- A word has one sequence of bytes. -/
theorem u32_inj {m m' : ℕ → UInt8} {a a' : ℕ} (h : u32 m a = u32 m' a') {i : ℕ} (hi : i < 4) :
    m (a + i) = m' (a' + i) := by
  have hlt : ∀ b : UInt8, b.toNat < 256 := UInt8.toNat_lt
  have h0 := hlt (m a)
  have h1 := hlt (m (a + 1))
  have h2 := hlt (m (a + 2))
  have h3 := hlt (m (a + 3))
  have h0' := hlt (m' a')
  have h1' := hlt (m' (a' + 1))
  have h2' := hlt (m' (a' + 2))
  have h3' := hlt (m' (a' + 3))
  simp only [u32, u16, Nat.add_assoc, Nat.reduceAdd] at h
  rw [← UInt8.toNat_inj]
  rcases (by omega : i = 0 ∨ i = 1 ∨ i = 2 ∨ i = 3) with rfl | rfl | rfl | rfl
  · show (m a).toNat = (m' a').toNat
    omega
  all_goals omega

theorem u16_write_le16 (m : ℕ → UInt8) (a n : ℕ) : u16 (write m a (le16 n)) a = n % 2 ^ 16 := by
  have h0 : write m a (le16 n) a = UInt8.ofNat n := write_add m a (i := 0) (by simp)
  have h1 : write m a (le16 n) (a + 1) = UInt8.ofNat (n / 256) := write_add m a (i := 1) (by simp)
  rw [u16, h0, h1, UInt8.toNat_ofNat', UInt8.toNat_ofNat']
  omega

theorem u32_write_le32 (m : ℕ → UInt8) (a n : ℕ) : u32 (write m a (le32 n)) a = n % 2 ^ 32 := by
  have h0 : write m a (le32 n) a = UInt8.ofNat n := write_add m a (i := 0) (by simp)
  have h1 : write m a (le32 n) (a + 1) = UInt8.ofNat (n / 256) := write_add m a (i := 1) (by simp)
  have h2 : write m a (le32 n) (a + 2) = UInt8.ofNat (n / 65536) :=
    write_add m a (i := 2) (by simp)
  have h3 : write m a (le32 n) (a + 2 + 1) = UInt8.ofNat (n / 65536 / 256) :=
    write_add m a (i := 3) (by simp)
  rw [u32, u16, u16, h0, h1, h2, h3]
  simp only [UInt8.toNat_ofNat']
  omega

theorem u16_write_of_disjoint (m : ℕ → UInt8) {a b : ℕ} {bs : List UInt8}
    (h : b + 2 ≤ a ∨ a + bs.length ≤ b) : u16 (write m a bs) b = u16 m b :=
  u16_congr fun _ _ _ => write_of_disjoint m (by omega)

/-! ### Packed numbers -/

/-- The little-endian number of the first `n` bytes. -/
def number (m : ℕ → UInt8) : ℕ → ℕ
  | 0 => 0
  | n + 1 => number m n + 256 ^ n * (m n).toNat

/-- The `c`-th of the `w`-bit numbers that a byte sequence packs, lowest bits first. -/
def field (m : ℕ → UInt8) (w c : ℕ) : ℕ := number m ((w * (c + 1) + 7) / 8) / 2 ^ (w * c) % 2 ^ w

theorem number_lt (m : ℕ → UInt8) (n : ℕ) : number m n < 256 ^ n := by
  induction n with
  | zero => exact Nat.one_pos
  | succ n ih =>
    have hbyte : (m n).toNat ≤ 255 := Nat.le_of_lt_succ (m n).toNat_lt
    have hmul := Nat.mul_le_mul_left (256 ^ n) hbyte
    rw [number, Nat.pow_succ]
    omega

theorem number_add (m : ℕ → UInt8) (a n : ℕ) :
    number m (a + n) = number m a + 256 ^ a * number (fun i => m (a + i)) n := by
  induction n with
  | zero => simp [number]
  | succ n ih =>
    rw [← Nat.add_assoc, number, ih, number, Nat.mul_add, ← Nat.mul_assoc, ← Nat.pow_add, Nat.add_assoc]

/-- A packed number only depends on the bytes it covers. -/
theorem field_eq (m : ℕ → UInt8) {w c a r : ℕ} (h : w * c = 8 * a + r) :
    field m w c = number (fun i => m (a + i)) ((r + w + 7) / 8) / 2 ^ r % 2 ^ w := by
  have hcount : (w * (c + 1) + 7) / 8 = a + (r + w + 7) / 8 := by
    rw [Nat.mul_add, h]
    omega
  have hpow : 2 ^ (w * c) = 256 ^ a * 2 ^ r := by
    rw [h, Nat.pow_add, Nat.pow_mul]
  rw [field, hcount, hpow, number_add, ← Nat.div_div_eq_div_mul,
    Nat.add_mul_div_left _ _ (Nat.pow_pos (by decide)), Nat.div_eq_of_lt (number_lt m a), Nat.zero_add]

theorem number_two (m : ℕ → UInt8) (a : ℕ) : number (fun i => m (a + i)) 2 = u16 m a := by
  simp [number, u16]

theorem number_four (m : ℕ → UInt8) (a : ℕ) : number (fun i => m (a + i)) 4 = u32 m a := by
  simp only [number, u32, u16, Nat.add_assoc, Nat.add_zero, Nat.reduceAdd]
  omega
/-! ### Strings -/

/-- The characters of a buffer before its first NUL. -/
def cString (buf : List UInt8) : List UInt8 := buf.takeWhile (· != 0)

theorem cString_append_zero (cs rest : List UInt8) : cString (cs ++ 0 :: rest) = cString cs := by
  induction cs with
  | nil => rfl
  | cons c cs ih =>
    unfold cString at ih ⊢
    rw [List.cons_append, List.takeWhile_cons, List.takeWhile_cons, ih]

/-- `strcmp` on the characters before the terminating NULs. -/
def strcmp : List UInt8 → List UInt8 → ℤ
  | [], [] => 0
  | [], _ :: _ => -1
  | _ :: _, [] => 1
  | c₁ :: cs, c₂ :: ct => if c₁ ≠ c₂ then (if c₁ < c₂ then -1 else 1) else strcmp cs ct

theorem strcmp_eq_zero_iff {cs ct : List UInt8} : strcmp cs ct = 0 ↔ cs = ct := by
  induction cs generalizing ct with
  | nil => cases ct <;> simp [strcmp]
  | cons c₁ cs ih =>
    cases ct with
    | nil => simp [strcmp]
    | cons c₂ ct =>
      rw [strcmp, List.cons.injEq, ← ih]
      by_cases hc : c₁ = c₂
      · rw [if_neg (not_not_intro hc)]
        exact (and_iff_right hc).symm
      · rw [if_pos hc]
        split <;> simp [hc]

/-- `strcmp` orders strings lexicographically. -/
theorem strcmp_neg_iff {cs ct : List UInt8} : strcmp cs ct < 0 ↔ cs < ct := by
  induction cs generalizing ct with
  | nil => cases ct <;> simp [strcmp]
  | cons c₁ cs ih =>
    cases ct with
    | nil => simp [strcmp]
    | cons c₂ ct =>
      rw [strcmp, List.cons_lt_cons_iff, ← ih]
      by_cases hc : c₁ = c₂
      · simp [hc]
      · rw [if_pos hc]
        split <;> simp_all

theorem strcmp_trans {cs ct cu : List UInt8} (h : strcmp cs ct < 0) (h' : strcmp ct cu < 0) :
    strcmp cs cu < 0 := by
  rw [strcmp_neg_iff] at *
  exact List.lt_trans h h'

theorem strcmp_swap (cs ct : List UInt8) : strcmp ct cs = - strcmp cs ct := by
  induction cs generalizing ct with
  | nil => cases ct <;> simp [strcmp]
  | cons c₁ cs ih =>
    cases ct with
    | nil => simp [strcmp]
    | cons c₂ ct =>
      rw [strcmp, strcmp]
      by_cases hc : c₁ = c₂
      · simp [hc, ih]
      · rw [if_pos hc, if_pos (Ne.symm hc)]
        rcases UInt8.lt_or_lt_of_ne hc with hlt | hlt
        · rw [if_pos hlt, if_neg (UInt8.lt_asymm hlt)]
          rfl
        · rw [if_pos hlt, if_neg (UInt8.lt_asymm hlt)]

/-- `strncmp` on the characters before the terminating NULs. -/
def strncmp : List UInt8 → List UInt8 → ℕ → ℤ
  | _, _, 0 => 0
  | [], [], _ + 1 => 0
  | [], _ :: _, _ + 1 => -1
  | _ :: _, [], _ + 1 => 1
  | c₁ :: cs, c₂ :: ct, count + 1 =>
      if c₁ ≠ c₂ then (if c₁ < c₂ then -1 else 1) else strncmp cs ct count

/-- The characters of a string literal. -/
def chars (s : String) : List UInt8 := s.toList.map fun c => UInt8.ofNat c.toNat

theorem strncmp_length_eq_zero_iff (cs : List UInt8) {ct : List UInt8} :
    strncmp cs ct ct.length = 0 ↔ ct <+: cs := by
  induction ct generalizing cs with
  | nil => simp [strncmp]
  | cons c₂ ct ih =>
    cases cs with
    | nil => simp [strncmp]
    | cons c₁ cs =>
      rw [List.length_cons, strncmp, List.cons_prefix_cons]
      by_cases hc : c₁ = c₂
      · rw [if_neg (not_not_intro hc), ih]
        exact (and_iff_right hc.symm).symm
      · rw [if_pos hc]
        have hne : c₂ ≠ c₁ := fun h => hc h.symm
        split <;> simp [hne]

theorem strncmp_eq_zero_comm (cs ct : List UInt8) (count : ℕ) :
    strncmp cs ct count = 0 ↔ strncmp ct cs count = 0 := by
  induction count generalizing cs ct with
  | zero => simp [strncmp]
  | succ count ih =>
    cases cs with
    | nil => cases ct <;> simp [strncmp]
    | cons c₁ cs =>
      cases ct with
      | nil => simp [strncmp]
      | cons c₂ ct =>
        rw [strncmp, strncmp]
        by_cases hc : c₁ = c₂
        · rw [if_neg (not_not_intro hc), if_neg (not_not_intro hc.symm)]
          exact ih cs ct
        · rw [if_pos hc, if_pos (Ne.symm hc)]
          split <;> split <;> decide

/-- A string is a prefix of the part of a buffer in front of a delimiter that it does not contain as
soon as it is one of the buffer. -/
theorem prefix_takeWhile_iff {p : α → Bool} {ct buf : List α} (h : ∀ c ∈ ct, p c = true) :
    ct <+: buf.takeWhile p ↔ ct <+: buf := by
  constructor
  · intro hp
    exact hp.trans (List.takeWhile_prefix _)
  · rintro ⟨rest, rfl⟩
    rw [List.takeWhile_append_of_pos h]
    exact List.prefix_append _ _

/-- A string comes before the longer ones that begin with it. -/
theorem lt_of_isPrefix [LT α] {cs ct : List α} (h : cs <+: ct) (hne : cs ≠ ct) : cs < ct := by
  obtain ⟨rest, rfl⟩ := h
  induction cs with
  | nil =>
    cases rest with
    | nil => exact absurd rfl hne
    | cons c rest => exact List.nil_lt_cons c rest
  | cons c cs ih =>
    rw [List.cons_append] at hne ⊢
    exact List.cons_lt_cons_iff.mpr (Or.inr ⟨rfl, ih fun heq => hne (by rw [← heq])⟩)

/-- A string without NUL is a prefix of the characters of a buffer as soon as it is one of the
buffer. -/
theorem prefix_cString_iff {ct buf : List UInt8} (h : 0 ∉ ct) : ct <+: cString buf ↔ ct <+: buf :=
  prefix_takeWhile_iff fun _ hc => bne_iff_ne.mpr (ne_of_mem_of_not_mem hc h)

/-- A buffer holds a string that is shorter than the buffer: its characters and a NUL behind them. -/
theorem cString_eq_iff {buf cs : List UInt8} (h : cs.length < buf.length) :
    cString buf = cs ↔ 0 ∉ cs ∧ cs ++ [0] <+: buf := by
  constructor
  · rintro rfl
    have hsplit : cString buf ++ buf.dropWhile (· != 0) = buf := List.takeWhile_append_dropWhile
    constructor
    · intro hmem
      exact absurd (List.all_eq_true.mp List.all_takeWhile 0 hmem) (by decide)
    · cases hrest : buf.dropWhile (· != 0) with
      | nil =>
        rw [hrest, List.append_nil] at hsplit
        rw [hsplit] at h
        exact absurd h (lt_irrefl _)
      | cons c rest =>
        obtain rfl : c = 0 := by
          have hne : buf.dropWhile (· != 0) ≠ [] := by simp [hrest]
          have hc := List.head_dropWhile_not (· != 0) hne
          simpa [hrest] using hc
        rw [hrest] at hsplit
        exact ⟨rest, by rw [List.append_assoc]; exact hsplit⟩
  · rintro ⟨hcs, rest, rfl⟩
    have hall : ∀ c ∈ cs, (c != 0) = true := fun c hc => bne_iff_ne.mpr (ne_of_mem_of_not_mem hc hcs)
    rw [cString, List.append_assoc, List.takeWhile_append_of_pos hall]
    exact List.append_nil cs

theorem take_read (m : ℕ → α) (a : ℕ) {n k : ℕ} (h : k ≤ n) : (read m a n).take k = read m a k := by
  obtain ⟨d, rfl⟩ := Nat.exists_eq_add_of_le h
  rw [read_append, List.take_left' (length_read m a k)]

theorem prefix_read_iff {m : ℕ → α} {a n : ℕ} {bs : List α} (h : bs.length ≤ n) :
    bs <+: read m a n ↔ read m a bs.length = bs := by
  rw [List.prefix_iff_eq_take, take_read m a h]
  exact eq_comm

/-! ### Memories that wrap around

The addresses of a machine with `w`-bit pointers: `view` lays the cells out from a base
address on, `store` is the assignment of a run of cells. -/

section Wrapping

variable {w : ℕ}

/-- The cells of a wrapping memory from address `a` on. -/
def view (m : BitVec w → α) (a : BitVec w) : ℕ → α := fun i => m (a + BitVec.ofNat w i)

/-- Overwrite the cells of a wrapping memory from address `a` on by `bs`. -/
def store (m : BitVec w → α) (a : BitVec w) (bs : List α) : BitVec w → α :=
  fun b => (bs[(b - a).toNat]?).getD (m b)

theorem store_of_le (m : BitVec w → α) {a b : BitVec w} {bs : List α} (h : bs.length ≤ (b - a).toNat) :
    store m a bs b = m b := by
  rw [store, List.getElem?_eq_none h, Option.getD_none]

theorem toNat_ofNat_of_lt {n : ℕ} (h : n < 2 ^ w) : (BitVec.ofNat w n).toNat = n := by
  rw [BitVec.toNat_ofNat, Nat.mod_eq_of_lt h]

/-- The distance from an address `n` cells behind `a`: it wraps around below that. -/
theorem toNat_sub_add (a b : BitVec w) {n : ℕ} (hn : n < 2 ^ w) :
    (b - (a + BitVec.ofNat w n)).toNat
      = if n ≤ (b - a).toNat then (b - a).toNat - n else 2 ^ w + (b - a).toNat - n := by
  have hlt := (b - a).isLt
  rw [← sub_sub]
  split
  next h =>
    rw [BitVec.toNat_sub_of_le, toNat_ofNat_of_lt hn]
    rwa [BitVec.le_def, toNat_ofNat_of_lt hn]
  next h =>
    rw [BitVec.toNat_sub, toNat_ofNat_of_lt hn, Nat.mod_eq_of_lt (by omega)]
    omega

theorem view_add (m : BitVec w → α) (a b : BitVec w) (i : ℕ) :
    view m a (b.toNat + i) = view m (a + b) i := by
  rw [view, view, BitVec.ofNat_add, BitVec.ofNat_toNat, BitVec.setWidth_eq, BitVec.add_assoc]

/-- Seen from a base below it, a store that does not wrap around is a `write`. -/
theorem view_store (m : BitVec w → α) (base : BitVec w) {n i : ℕ} {bs : List α}
    (hn : n + bs.length ≤ 2 ^ w) (hi : i < 2 ^ w) :
    view (store m (base + BitVec.ofNat w n) bs) base i = write (view m base) n bs i := by
  have hd : (base + BitVec.ofNat w i - base).toNat = i := by
    rw [add_sub_cancel_left, toNat_ofNat_of_lt hi]
  rcases Nat.lt_or_ge n (2 ^ w) with hn' | hn'
  · rw [view, store, toNat_sub_add _ _ hn', hd, write]
    split
    · rfl
    · rw [List.getElem?_eq_none (by omega), Option.getD_none]
      rfl
  · rw [write_of_lt _ _ (by omega), view, store_of_le _ (by omega), view]

/-- An address, seen from another one. -/
theorem view_sub (m : BitVec w → α) (a b : BitVec w) : view m b (a - b).toNat = m a := by
  have hback : b + (a - b) = a := by rw [BitVec.add_comm, BitVec.sub_add_cancel]
  rw [view, BitVec.ofNat_toNat, BitVec.setWidth_eq, hback]

/-- Cells that were read, stored at an address and seen from there. -/
theorem view_store_read (m : BitVec w → α) (a : BitVec w) (f : ℕ → α) {n i : ℕ} (hn : n < 2 ^ w)
    (hi : i < n) : view (store m a (read f 0 n)) a i = f i := by
  have hlen : i < (read f 0 n).length := by rwa [length_read]
  have hview : view (store m (a + .ofNat w 0) (read f 0 n)) a i = write (view m a) 0 (read f 0 n) i :=
    view_store m a (by rw [length_read]; omega) (by omega)
  have hread := write_add (view m a) 0 hlen
  rw [Nat.zero_add] at hread
  rw [BitVec.add_zero] at hview
  rw [hview, hread]
  simp [read]

/-- Two stores in a row are one. -/
theorem store_append (m : BitVec w → α) (a : BitVec w) {bs cs : List α}
    (h : bs.length + cs.length ≤ 2 ^ w) :
    store (store m a bs) (a + BitVec.ofNat w bs.length) cs = store m a (bs ++ cs) := by
  funext b
  have hlt := (b - a).isLt
  rcases Nat.lt_or_ge bs.length (2 ^ w) with hn | hn
  · rw [store, toNat_sub_add _ _ hn]
    split
    · rw [store, store, List.getElem?_append_right (by omega),
        List.getElem?_eq_none (by omega : bs.length ≤ (b - a).toNat), Option.getD_none]
    · rw [List.getElem?_eq_none (by omega), Option.getD_none, store, store,
        List.getElem?_append_left (by omega)]
  · have hcs : cs = [] := List.eq_nil_of_length_eq_zero (by omega)
    rw [hcs, List.append_nil, store_of_le _ (by simp)]

end Wrapping

/-! ### Concatenations of equally long chunks -/

theorem length_flatMap_chunks {β : Type*} {f : α → List β} {b : ℕ} (hf : ∀ c, (f c).length = b)
    (cs : List α) : (cs.flatMap f).length = cs.length * b := by
  induction cs with
  | nil => simp
  | cons c cs ih => rw [List.flatMap_cons, List.length_append, hf, ih, List.length_cons,
      Nat.succ_mul, Nat.add_comm]

/-- A piece of a concatenation that lies inside one chunk. -/
theorem take_drop_flatMap_chunks {β : Type*} {f : α → List β} {b : ℕ}
    (hf : ∀ c, (f c).length = b) {cs : List α} {i r n : ℕ} {c : α} (hc : cs[i]? = some c)
    (hr : r + n ≤ b) :
    ((cs.flatMap f).drop (i * b + r)).take n = ((f c).drop r).take n := by
  induction cs generalizing i with
  | nil => simp at hc
  | cons c' cs ih =>
    rw [List.flatMap_cons]
    cases i with
    | zero =>
      obtain rfl : c' = c := by simpa using hc
      rw [Nat.zero_mul, Nat.zero_add, List.drop_append_of_le_length (by rw [hf]; omega),
        List.take_append_of_le_length (by rw [List.length_drop, hf]; omega)]
    | succ i =>
      rw [Nat.succ_mul, show i * b + b + r = (f c').length + (i * b + r) by rw [hf]; omega,
        List.drop_append, List.drop_eq_nil_of_le (by omega), List.nil_append,
        Nat.add_sub_cancel_left]
      exact ih (by simpa using hc)

end Bytes
