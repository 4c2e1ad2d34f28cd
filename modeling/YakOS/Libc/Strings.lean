import YakOS.Lib.Run
import YakOS.Libc.Memory

/-!
# Strings in memory

`strlen`, `strcpy` and `strcat` of `lib/string.c`, on the bytes of the address space.  None of the three
is told how long a buffer is, and addresses wrap: what they do depends on where the NULs are.  A copy
whose destination lies in its source overwrites the NUL it waits for, and never comes back.

## Main definitions

* `TextAt m a text` — the string at an address.
* `strlen`, `strcpy`, `strcat` — with fuel for their loops.

## Main results

* `strcpy_returns_iff` — `strcpy` comes back exactly when its destination is not one of the characters
  behind the first one of its source, nor its NUL.
* `strcat_returns_iff` — `strcat` comes back exactly when what it appends is empty, or the two strings do
  not end in the same NUL.
* `moved_strcpyLoop`, `textAt_strcat` — what they leave behind.
-/

namespace YakOS

/-- The string at an address: its characters, and a NUL behind them. -/
def TextAt (m : Memory) (a : Addr) : List UInt8 → Prop
  | [] => m a = 0
  | c :: cs => m a = c ∧ c ≠ 0 ∧ TextAt m (a + 1) cs

/-- `while (*s) s++;` -/
def textEnd (m : Memory) (s : Addr) : ℕ → Option Addr
  | 0 => none
  | fuel + 1 => if m s = 0 then some s else textEnd m (s + 1) fuel

/-- `strlen`. -/
def strlen (m : Memory) (s : Addr) (fuel : ℕ) : Option (BitVec 32) := (textEnd m s fuel).map (· - s)

/-- `while ((*dest++ = *src++) != '\0');` -/
def strcpyLoop (m : Memory) (dest src : Addr) : ℕ → Option Memory
  | 0 => none
  | fuel + 1 =>
    let m' := Function.update m dest (m src)
    if m src ≠ 0 then strcpyLoop m' (dest + 1) (src + 1) fuel else some m'

/-- `strcpy`. -/
def strcpy (m : Memory) (dest src : Addr) (fuel : ℕ) : Option (Addr × Memory) :=
  (strcpyLoop m dest src fuel).map fun m' => (dest, m')

/-- `strcat`. -/
def strcat (m : Memory) (dest src : Addr) (fuel : ℕ) : Option (Addr × Memory) :=
  (textEnd m dest fuel).bind fun e => (strcpyLoop m e src fuel).map fun m' => (dest, m')

section Texts

variable {m m' : Memory} {a dest src : Addr} {text : List UInt8} {count : ℕ}

theorem TextAt.char (h : TextAt m a text) {i : ℕ} (hi : i < text.length) :
    m (a + BitVec.ofNat 32 i) = text[i] ∧ text[i] ≠ 0 := by
  induction text generalizing a i with
  | nil => exact absurd hi (Nat.not_lt_zero i)
  | cons c cs ih =>
    obtain ⟨hc, h0, hcs⟩ := h
    cases i with
    | zero => exact ⟨by rw [BitVec.add_zero]; exact hc, h0⟩
    | succ i =>
      rw [← add_one_add_ofNat]
      exact ih hcs (Nat.lt_of_succ_lt_succ hi)

theorem TextAt.nul (h : TextAt m a text) : m (a + BitVec.ofNat 32 text.length) = 0 := by
  induction text generalizing a with
  | nil =>
    rw [List.length_nil, BitVec.add_zero]
    exact h
  | cons c cs ih =>
    rw [List.length_cons, ← add_one_add_ofNat]
    exact ih h.2.2

theorem textAt_iff : TextAt m a text ↔
    (∀ i (hi : i < text.length), m (a + BitVec.ofNat 32 i) = text[i] ∧ text[i] ≠ 0) ∧
      m (a + BitVec.ofNat 32 text.length) = 0 := by
  refine ⟨fun h => ⟨fun i hi => h.char hi, h.nul⟩, fun ⟨hchar, hnul⟩ => ?_⟩
  induction text generalizing a with
  | nil => rwa [List.length_nil, BitVec.add_zero] at hnul
  | cons c cs ih =>
    have hfirst := hchar 0 (Nat.succ_pos _)
    rw [BitVec.add_zero] at hfirst
    have hrest : ∀ i (hi : i < cs.length), m (a + 1 + BitVec.ofNat 32 i) = cs[i] ∧ cs[i] ≠ 0 := by
      intro i hi
      rw [add_one_add_ofNat]
      exact hchar (i + 1) (Nat.succ_lt_succ hi)
    rw [List.length_cons, ← add_one_add_ofNat] at hnul
    exact ⟨hfirst.1, hfirst.2, ih ⟨hrest, hnul⟩ hrest hnul⟩

/-- Offsets below `2 ^ 32` lead to different addresses. -/
theorem add_ofNat_inj {i j : ℕ} (hi : i < 2 ^ 32) (hj : j < 2 ^ 32) :
    a + BitVec.ofNat 32 i = a + BitVec.ofNat 32 j ↔ i = j := by
  rw [BitVec.add_right_inj, ← BitVec.toNat_inj, BitVec.toNat_ofNat, BitVec.toNat_ofNat,
    Nat.mod_eq_of_lt hi, Nat.mod_eq_of_lt hj]

/-- An address behind another one. -/
theorem eq_add_sub (dest src : Addr) : dest = src + BitVec.ofNat 32 (dest - src).toNat := by
  rw [BitVec.ofNat_toNat, BitVec.setWidth_eq, BitVec.add_comm, BitVec.sub_add_cancel]

/-- A string and its NUL fit into the address space: otherwise the NUL would be one of the characters. -/
theorem TextAt.length_lt (h : TextAt m a text) : text.length < 2 ^ 32 := by
  by_contra hge
  have hwrap : BitVec.ofNat 32 (text.length - 2 ^ 32) = BitVec.ofNat 32 text.length := by
    rw [← BitVec.toNat_inj, BitVec.toNat_ofNat, BitVec.toNat_ofNat]
    omega
  obtain ⟨hchar, hne⟩ := h.char (i := text.length - 2 ^ 32) (by omega)
  rw [hwrap, h.nul] at hchar
  exact hne hchar.symm

/-- A string only depends on its bytes. -/
theorem TextAt.congr (h : TextAt m a text)
    (hm : ∀ i ≤ text.length, m' (a + BitVec.ofNat 32 i) = m (a + BitVec.ofNat 32 i)) :
    TextAt m' a text := by
  rw [textAt_iff] at h ⊢
  exact ⟨fun i hi => by rw [hm i (by omega)]; exact h.1 i hi, by rw [hm _ le_rfl]; exact h.2⟩

/-- There is one string at an address. -/
theorem TextAt.unique {text' : List UInt8} (h : TextAt m a text) (h' : TextAt m a text') :
    text = text' := by
  induction text generalizing a text' with
  | nil =>
    cases text' with
    | nil => rfl
    | cons c cs => exact absurd (h'.1.symm.trans h) h'.2.1
  | cons c cs ih =>
    cases text' with
    | nil => exact absurd (h.1.symm.trans h') h.2.1
    | cons d ds => rw [h.1.symm.trans h'.1, ih h.2.2 h'.2.2]

theorem yields_textEnd (h : TextAt m a text) :
    Run.Yields (textEnd m a) (a + BitVec.ofNat 32 text.length) := by
  induction text generalizing a with
  | nil =>
    refine Run.Yields.of_succ rfl ?_
    intro n
    rw [List.length_nil, BitVec.add_zero]
    exact if_pos h
  | cons c cs ih =>
    obtain ⟨hc, h0, hcs⟩ := h
    rw [List.length_cons, ← add_one_add_ofNat]
    obtain ⟨hsound, N, hN⟩ := ih hcs
    have hstep : ∀ n, textEnd m a (n + 1) = textEnd m (a + 1) n := by
      intro n
      rw [textEnd, if_neg (hc ▸ h0)]
    constructor
    · intro n x hx
      cases n with
      | zero => cases hx
      | succ n => exact hsound n x (hstep n ▸ hx)
    · refine ⟨N + 1, fun n hn => ?_⟩
      obtain ⟨k, rfl⟩ := Nat.exists_eq_add_of_le' hn
      rw [← Nat.add_assoc, hstep]
      exact hN _ (Nat.le_add_left N k)

/-- `strlen` is the number of characters. -/
theorem yields_strlen (h : TextAt m a text) :
    Run.Yields (strlen m a) (BitVec.ofNat 32 text.length) := by
  have hlen := (yields_textEnd h).map (· - a)
  rwa [BitVec.add_comm, BitVec.add_sub_cancel] at hlen

/-! ### Copies -/

/-- Copying one byte and then the bytes behind it, when the first one is written neither again nor over
a byte still to be read. -/
theorem Moved.cons (hdest : ∀ i < count, dest ≠ dest + BitVec.ofNat 32 (i + 1))
    (hsrc : ∀ i < count, src + BitVec.ofNat 32 (i + 1) ≠ dest)
    (h : Moved (Function.update m dest (m src)) m' (dest + 1) (src + 1) count) :
    Moved m m' dest src (count + 1) := by
  constructor
  · intro i hi
    cases i with
    | zero =>
      have hlater : ∀ i < count, dest ≠ dest + 1 + BitVec.ofNat 32 i := by
        intro i hi
        rw [add_one_add_ofNat]
        exact hdest i hi
      rw [BitVec.add_zero, BitVec.add_zero, h.frame dest hlater, Function.update_self]
    | succ i =>
      rw [← add_one_add_ofNat, h.copied i (by omega), add_one_add_ofNat,
        Function.update_of_ne (hsrc i (by omega))]
  · intro a ha
    have hfirst : a ≠ dest := by
      have := ha 0 (Nat.succ_pos count)
      rwa [BitVec.add_zero] at this
    rw [h.frame a ?_, Function.update_of_ne hfirst]
    intro i hi
    rw [add_one_add_ofNat]
    exact ha (i + 1) (by omega)

/-- The copy, when its destination is its source or does not lie in it. -/
theorem moved_strcpyLoop (h : TextAt m src text)
    (hd : (dest - src).toNat = 0 ∨ text.length < (dest - src).toNat) :
    ∃ m', Run.Yields (strcpyLoop m dest src) m' ∧ Moved m m' dest src (text.length + 1) := by
  induction text generalizing m dest src with
  | nil =>
    refine ⟨Function.update m dest (m src), Run.Yields.of_succ rfl fun n => ?_, ?_⟩
    · exact if_neg (not_not_intro h)
    · exact Moved.cons (fun i hi => absurd hi (Nat.not_lt_zero i)) (fun i hi => absurd hi (Nat.not_lt_zero i))
        (Moved.zero _ _ _)
  | cons c cs ih =>
    have hlen := h.length_lt
    obtain ⟨hc, h0, hcs⟩ := h
    rw [List.length_cons] at hd hlen
    -- the bytes still to be read are not the one that is written now
    have hsrc : ∀ i < cs.length + 1, src + BitVec.ofNat 32 (i + 1) ≠ dest := by
      intro i hi heq
      have hlt := (dest - src).isLt
      rw [eq_add_sub dest src, add_ofNat_inj (by omega) hlt] at heq
      omega
    have hdest : ∀ i < cs.length + 1, dest ≠ dest + BitVec.ofNat 32 (i + 1) := by
      intro i hi heq
      have hne : dest + BitVec.ofNat 32 0 = dest + BitVec.ofNat 32 (i + 1) := by
        rw [BitVec.add_zero]
        exact heq
      rw [add_ofNat_inj (by decide) (by omega)] at hne
      omega
    have hrest : TextAt (Function.update m dest (m src)) (src + 1) cs := by
      refine hcs.congr fun i hi => Function.update_of_ne ?_ ..
      rw [add_one_add_ofNat]
      exact hsrc i (by omega)
    have hsame : dest + 1 - (src + 1) = dest - src := by bv_omega
    have hd' : (dest + 1 - (src + 1)).toNat = 0 ∨ cs.length < (dest + 1 - (src + 1)).toNat := by
      rw [hsame]
      omega
    obtain ⟨m', ⟨hsound, N, hN⟩, hmoved⟩ := ih hrest hd'
    have hstep : ∀ n, strcpyLoop m dest src (n + 1) =
        strcpyLoop (Function.update m dest (m src)) (dest + 1) (src + 1) n := by
      intro n
      exact if_pos (hc ▸ h0)
    refine ⟨m', ⟨fun n x hx => ?_, N + 1, fun n hn => ?_⟩, Moved.cons hdest hsrc hmoved⟩
    · cases n with
      | zero => cases hx
      | succ n => exact hsound n x (hstep n ▸ hx)
    · obtain ⟨k, rfl⟩ := Nat.exists_eq_add_of_le' hn
      rw [← Nat.add_assoc, hstep]
      exact hN _ (Nat.le_add_left N k)

/-- A copy whose destination lies `d` bytes behind its source, in front of which there is no NUL, never
finds one: it writes the bytes that it reads `d` bytes later. -/
theorem strcpyLoop_eq_none {d : ℕ} (hd : 0 < d) (hne : ∀ j < d, m (src + BitVec.ofNat 32 j) ≠ 0)
    (fuel : ℕ) : strcpyLoop m (src + BitVec.ofNat 32 d) src fuel = none := by
  induction fuel generalizing m src with
  | zero => rfl
  | succ fuel ih =>
    have hfirst : m src ≠ 0 := by
      have := hne 0 hd
      rwa [BitVec.add_zero] at this
    have hnext : src + BitVec.ofNat 32 d + 1 = src + 1 + BitVec.ofNat 32 d := by
      rw [BitVec.add_assoc, BitVec.add_comm (BitVec.ofNat 32 d), BitVec.add_assoc]
    rw [strcpyLoop, if_pos hfirst, hnext]
    refine ih ?_
    intro j hj
    rw [add_one_add_ofNat]
    by_cases heq : src + BitVec.ofNat 32 (j + 1) = src + BitVec.ofNat 32 d
    · rw [heq, Function.update_self]
      exact hfirst
    · rw [Function.update_of_ne heq]
      refine hne (j + 1) (lt_of_le_of_ne hj ?_)
      rintro rfl
      exact heq rfl

/-- When the copy of a string comes back. -/
theorem strcpyLoop_returns_iff (dest : Addr) (h : TextAt m src text) :
    (∃ fuel, strcpyLoop m dest src fuel ≠ none) ↔
      (dest - src).toNat = 0 ∨ text.length < (dest - src).toNat := by
  constructor
  · rintro ⟨fuel, hfuel⟩
    by_contra hd
    refine hfuel ?_
    rw [eq_add_sub dest src]
    exact strcpyLoop_eq_none (by omega) (fun j hj => by
      obtain ⟨hchar, hne⟩ := h.char (i := j) (by omega)
      rwa [hchar]) fuel
  · intro hd
    obtain ⟨m', ⟨-, N, hN⟩, -⟩ := moved_strcpyLoop h hd
    exact ⟨N, by rw [hN N le_rfl]; exact Option.some_ne_none m'⟩

/-- **`strcpy`** comes back exactly when its destination is its source, or outside it; then the
destination holds the string, and no byte behind its NUL or in front of it has changed. -/
theorem strcpy_returns_iff (h : TextAt m src text) :
    ((∃ fuel, strcpy m dest src fuel ≠ none) ↔
      (dest - src).toNat = 0 ∨ text.length < (dest - src).toNat) ∧
    ∀ fuel d m', strcpy m dest src fuel = some (d, m') →
      d = dest ∧ TextAt m' dest text ∧ Moved m m' dest src (text.length + 1) := by
  have hiff := strcpyLoop_returns_iff dest h
  refine ⟨?_, fun fuel d m' hr => ?_⟩
  · rw [← hiff]
    exact exists_congr fun fuel => not_congr Option.map_eq_none_iff
  · obtain ⟨m₁, hm₁, heq⟩ := Option.map_eq_some_iff.mp hr
    obtain ⟨rfl, rfl⟩ := Prod.mk.inj heq
    have hd := hiff.mp ⟨fuel, by rw [hm₁]; exact Option.some_ne_none m₁⟩
    obtain ⟨m₂, hyields, hmoved⟩ := moved_strcpyLoop h hd
    obtain rfl := hyields.sound fuel m₁ hm₁
    refine ⟨rfl, textAt_iff.mpr ⟨fun i hi => ?_, ?_⟩, hmoved⟩
    · rw [hmoved.copied i (by omega)]
      exact h.char hi
    · rw [hmoved.copied _ (Nat.lt_succ_self _)]
      exact h.nul

/-! ### Appending -/

variable {b : List UInt8} {e : Addr}

/-- What a string is appended to has room behind its NUL, or the copy does not come back. -/
theorem length_add_length_lt (ha : TextAt m dest text) (hb : TextAt m src b)
    (he : e = dest + BitVec.ofNat 32 text.length)
    (hd : (e - src).toNat = 0 ∨ b.length < (e - src).toNat) : text.length + b.length < 2 ^ 32 := by
  have hsrc := eq_add_sub e src
  have hlt := (e - src).isLt
  generalize (e - src).toNat = d at *
  rcases hd with rfl | hd
  · have hnil : b = [] := by
      rw [BitVec.add_zero] at hsrc
      refine hb.unique (?_ : TextAt m src [])
      rw [TextAt, ← hsrc, he]
      exact ha.nul
    rw [hnil]
    exact ha.length_lt
  · by_contra hge
    -- the NUL of the source is a character of the destination
    obtain ⟨hchar, hne⟩ := ha.char (i := text.length - (d - b.length)) (by omega)
    have htext : text.length = text.length - (d - b.length) + (d - b.length) := by omega
    have hd' : d = b.length + (d - b.length) := by omega
    have hsame : dest + BitVec.ofNat 32 (text.length - (d - b.length)) =
        src + BitVec.ofNat 32 b.length := by
      rw [he, htext, hd', BitVec.ofNat_add, BitVec.ofNat_add, ← BitVec.add_assoc, ← BitVec.add_assoc,
        Nat.add_sub_cancel_left] at hsrc
      simpa using hsrc
    rw [hsame, hb.nul] at hchar
    exact hne hchar.symm

/-- A copy to the end of a string runs into its source exactly when both strings end there. -/
theorem append_apart_iff (hb : TextAt m src b) (he : m e = 0) :
    ((e - src).toNat = 0 ∨ b.length < (e - src).toNat) ↔ b = [] ∨ e ≠ src + BitVec.ofNat 32 b.length := by
  have hlen := hb.length_lt
  have hsrc := eq_add_sub e src
  have hlt := (e - src).isLt
  constructor
  · rintro (hd | hd)
    · refine .inl (hb.unique (?_ : TextAt m src []))
      rw [hd, BitVec.add_zero] at hsrc
      rw [TextAt, ← hsrc, he]
    · refine .inr ?_
      intro heq
      rw [heq, add_ofNat_inj hlen (by rw [← heq]; exact hlt), ← heq] at hsrc
      omega
  · rintro (rfl | hne)
    · exact Nat.eq_zero_or_pos _
    · by_contra hd
      rcases Nat.lt_or_ge (e - src).toNat b.length with hi | hi
      · obtain ⟨hchar, hne'⟩ := hb.char hi
        rw [← hsrc, he] at hchar
        exact hne' hchar.symm
      · refine hne (hsrc.trans ?_)
        congr 2
        omega

/-- **`strcat`** comes back exactly when the string it appends is empty, or does not end where the other
one does; then the destination holds one string and then the other, and nothing else has changed. -/
theorem strcat_returns_iff (ha : TextAt m dest text) (hb : TextAt m src b) :
    ((∃ fuel, strcat m dest src fuel ≠ none) ↔
      b = [] ∨ dest + BitVec.ofNat 32 text.length ≠ src + BitVec.ofNat 32 b.length) ∧
    ∀ fuel d m', strcat m dest src fuel = some (d, m') → d = dest ∧ TextAt m' dest (text ++ b) ∧
      ∀ i, (∀ j ≤ b.length, i ≠ dest + BitVec.ofNat 32 (text.length + j)) → m' i = m i := by
  obtain ⟨e, he⟩ : ∃ e, e = dest + BitVec.ofNat 32 text.length := ⟨_, rfl⟩
  have hend := he ▸ yields_textEnd ha
  have hapart := append_apart_iff hb (he ▸ ha.nul)
  have hreturns := strcpyLoop_returns_iff e hb
  rw [← he]
  refine ⟨?_, fun fuel d m' hr => ?_⟩
  · rw [← hapart, ← hreturns]
    constructor
    · rintro ⟨fuel, hfuel⟩
      refine ⟨fuel, fun hnone => hfuel ?_⟩
      rw [strcat]
      cases htext : textEnd m dest fuel with
      | none => rfl
      | some x => rw [Option.bind_some, hend.sound fuel x htext, hnone, Option.map_none]
    · intro hloop
      obtain ⟨m', ⟨-, N, hN⟩, -⟩ := moved_strcpyLoop hb (hreturns.mp hloop)
      obtain ⟨K, hK⟩ := hend.total
      refine ⟨N + K, ?_⟩
      rw [strcat, hK _ (Nat.le_add_left K N), Option.bind_some, hN _ (Nat.le_add_right N K)]
      exact Option.some_ne_none _
  · obtain ⟨x, hx, hr⟩ := Option.bind_eq_some_iff.mp hr
    obtain rfl := hend.sound fuel x hx
    obtain ⟨m₁, hm₁, heq⟩ := Option.map_eq_some_iff.mp hr
    obtain ⟨rfl, rfl⟩ := Prod.mk.inj heq
    have hd := hreturns.mp ⟨fuel, by rw [hm₁]; exact Option.some_ne_none m₁⟩
    have hroom := length_add_length_lt ha hb he hd
    obtain ⟨m₂, hyields, hmoved⟩ := moved_strcpyLoop hb hd
    obtain rfl := hyields.sound fuel m₁ hm₁
    have hoff : ∀ j, x + BitVec.ofNat 32 j = dest + BitVec.ofNat 32 (text.length + j) := by
      intro j
      rw [he, BitVec.ofNat_add, BitVec.add_assoc]
    refine ⟨rfl, textAt_iff.mpr ⟨fun i hi => ?_, ?_⟩, fun i hi => hmoved.frame i fun j hj => ?_⟩
    · rw [List.length_append] at hi
      rcases Nat.lt_or_ge i text.length with hlt | hge
      · rw [List.getElem_append_left hlt, hmoved.frame]
        · exact ha.char hlt
        · intro j hj
          rw [hoff, ne_eq, add_ofNat_inj (by omega) (by omega)]
          omega
      · obtain ⟨j, rfl⟩ := Nat.exists_eq_add_of_le hge
        rw [← hoff, hmoved.copied j (by omega), List.getElem_append_right hge]
        simp only [Nat.add_sub_cancel_left]
        exact hb.char (by omega)
    · rw [List.length_append, ← hoff, hmoved.copied _ (Nat.lt_succ_self _)]
      exact hb.nul
    · rw [hoff]
      exact hi j (Nat.le_of_lt_succ hj)

end Texts

/-- Two strings, of one and of two characters. -/
def twoTexts : Memory := fun a =>
  if a = 0x100 then 0x61 else if a = 0x200 then 0x62 else if a = 0x201 then 0x63 else 0

theorem twoTexts_one : TextAt twoTexts 0x100 [0x61] := by simp [TextAt, twoTexts]

theorem twoTexts_two : TextAt twoTexts 0x200 [0x62, 0x63] := by simp [TextAt, twoTexts]

theorem strcpy_returns_iff_inside :
    ((∃ fuel, strcpy twoTexts 0x201 0x200 fuel ≠ none) ↔
      ((0x201 : Addr) - 0x200).toNat = 0 ∨ 2 < ((0x201 : Addr) - 0x200).toNat) ∧
    ∀ fuel d m', strcpy twoTexts 0x201 0x200 fuel = some (d, m') →
      d = 0x201 ∧ TextAt m' 0x201 [0x62, 0x63] ∧ Moved twoTexts m' 0x201 0x200 3 :=
  strcpy_returns_iff twoTexts_two

theorem strcat_returns_iff_apart :
    ((∃ fuel, strcat twoTexts 0x100 0x200 fuel ≠ none) ↔
      [0x62, 0x63] = ([] : List UInt8) ∨ (0x100 : Addr) + BitVec.ofNat 32 1 ≠ 0x200 + BitVec.ofNat 32 2) ∧
    ∀ fuel d m', strcat twoTexts 0x100 0x200 fuel = some (d, m') →
      d = 0x100 ∧ TextAt m' 0x100 [0x61, 0x62, 0x63] ∧
        ∀ i, (∀ j ≤ 2, i ≠ 0x100 + BitVec.ofNat 32 (1 + j)) → m' i = twoTexts i :=
  strcat_returns_iff twoTexts_one twoTexts_two

end YakOS
