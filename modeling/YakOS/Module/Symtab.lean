import YakOS.Module.Elf

/-!
# The kernel symbol table

The table that `make-symbols-nm` generates is sorted by name and ends with a sentinel of null
name, which `symbols_nelts` counts.  The binary search of `symtab_lookup` takes it for an
entry: a name behind the last one, and every name when there is no entry, is compared with
the null name in the end.

## Main definitions

* `symtabRounds` — the search, round by round, up to a comparison with a null name.
* `symtabLinear` — the variant that is compiled without `SYMTAB_CONF_BINARY_SEARCH`.
* `kernelTable`, `Sorted` — the tables that are generated.
* `LooksUp` — the value a lookup should return.
* `Window` — the invariant of the search.

## Main results

* `symtabRounds_lookup` — the search ends, whatever the table.
* `Window.found` — a name up to the last one is looked up rightly.
* `symtab_lookup_iff` — **when a name is looked up rightly.**
-/

namespace YakOS.Module

open Bytes (chars strcmp)

/-! ### The two variants -/

/-- The loop of `symtab_lookup`, `fuel` rounds of it; `none` when it is not done by then, and a fault
when it compares a null name.  The table lies in a 32-bit address space, so that `start + end` does
not overflow. -/
def symtabRounds (symbols : List Symbols) (name : List UInt8) :
    ℕ → ℤ → ℤ → Option (Except Stop (BitVec 32))
  | 0, _, _ => none
  | fuel + 1, start, stop =>
      if start ≤ stop then
        let middle := (start + stop) / 2
        match symbols[middle.toNat]? with
        | some ⟨some other, value⟩ =>
            let r := strcmp name other
            if r < 0 then symtabRounds symbols name fuel start (middle - 1)
            else if 0 < r then symtabRounds symbols name fuel (middle + 1) stop
            else some (.ok value)
        | _ => some (.error .fault)
      else some (.ok 0)

/-- `symtab_lookup` when `SYMTAB_CONF_BINARY_SEARCH` is 0. -/
def symtabLinear : List Symbols → List UInt8 → BitVec 32
  | ⟨some other, value⟩ :: symbols, name =>
      if strcmp name other = 0 then value else symtabLinear symbols name
  | _, _ => 0

variable {symbols : List Symbols} {name : List UInt8} {start stop : ℤ} {fuel : ℕ}

/-- **The search ends**: each round shortens the interval of candidates.  As long as no null name is
compared, it does not matter what lies at address 0. -/
theorem symtabRounds_eq_some (null : List UInt8) (h : (stop - start + 1).toNat < fuel) :
    ∃ res, symtabRounds symbols name fuel start stop = some res ∧
      ∀ v, res = .ok v → symtabSearch symbols null name fuel start stop = v := by
  induction fuel generalizing start stop with
  | zero => exact absurd h (Nat.not_lt_zero _)
  | succ fuel ih =>
    rw [symtabRounds, symtabSearch]
    split
    · cases hentry : symbols[((start + stop) / 2).toNat]? with
      | none => exact ⟨.error .fault, by simp only [hentry], fun v hv => nomatch hv⟩
      | some e =>
        obtain ⟨other, value⟩ := e
        cases other with
        | none => exact ⟨.error .fault, by simp only [hentry], fun v hv => nomatch hv⟩
        | some other =>
          simp only [hentry, Option.getD_some]
          split
          · exact ih (by omega)
          · split
            · exact ih (by omega)
            · exact ⟨_, rfl, fun v hv => Except.ok.inj hv⟩
    · exact ⟨_, rfl, fun v hv => Except.ok.inj hv⟩

/-- The rounds that `symtabLookup` allows are enough, whatever the table. -/
theorem symtabRounds_lookup (symbols : List Symbols) (null name : List UInt8) :
    ∃ res, symtabRounds symbols name (symbols.length + 1) 0 (symbols.length - 1) = some res ∧
      ∀ v, res = .ok v → symtabLookup symbols null name = v :=
  symtabRounds_eq_some null (by omega)

/-- More rounds do not change the result. -/
theorem symtabRounds_mono {fuel' : ℕ} {res : Except Stop (BitVec 32)} (hle : fuel ≤ fuel')
    (h : symtabRounds symbols name fuel start stop = some res) :
    symtabRounds symbols name fuel' start stop = some res := by
  induction fuel generalizing start stop fuel' with
  | zero => cases h
  | succ fuel ih =>
    obtain ⟨k, rfl⟩ := Nat.exists_eq_add_of_le' hle
    rw [← Nat.add_assoc]
    rw [symtabRounds] at h ⊢
    split at h
    next hlt =>
      rw [if_pos hlt]
      cases hentry : symbols[((start + stop) / 2).toNat]? with
      | none => simpa only [hentry] using h
      | some e =>
        obtain ⟨other, value⟩ := e
        cases other with
        | none => simpa only [hentry] using h
        | some other =>
          simp only [hentry] at h ⊢
          split_ifs at h ⊢ with hneg hpos
          · exact ih (Nat.le_add_left _ _) h
          · exact ih (Nat.le_add_left _ _) h
          · exact h
    next hlt =>
      rw [if_neg hlt]
      exact h

/-! ### Generated tables -/

/-- The table of `make-symbols-nm`: the entries, and the sentinel. -/
def kernelTable (entries : List (List UInt8 × BitVec 32)) : List Symbols :=
  (entries.map fun e => ⟨some e.1, e.2⟩) ++ [⟨none, 0⟩]

/-- The entries are sorted by name, and no name occurs twice. -/
def SortedNames (entries : List (List UInt8 × BitVec 32)) : Prop :=
  entries.Pairwise fun e e' => strcmp e.1 e'.1 < 0

instance (entries : List (List UInt8 × BitVec 32)) : Decidable (SortedNames entries) :=
  inferInstanceAs (Decidable (entries.Pairwise _))

/-- The value of a name: that of its entry, or `NULL`; the linear variant returns it. -/
structure LooksUp (entries : List (List UInt8 × BitVec 32)) (name : List UInt8) (v : BitVec 32) :
    Prop where
  found : ∀ e ∈ entries, e.1 = name → v = e.2
  absent : (∀ e ∈ entries, e.1 ≠ name) → v = 0
  linear : v = symtabLinear (kernelTable entries) name

variable {entries : List (List UInt8 × BitVec 32)} {e : List UInt8 × BitVec 32} {i : ℕ}

/-- The linear variant returns the value of the first entry of the name. -/
theorem symtabLinear_eq (entries : List (List UInt8 × BitVec 32)) (name : List UInt8) :
    symtabLinear (kernelTable entries) name = ((entries.find? fun e => e.1 == name).map Prod.snd).getD 0 := by
  induction entries with
  | nil => rfl
  | cons e entries ih =>
    show (if strcmp name e.1 = 0 then e.2 else symtabLinear (kernelTable entries) name) = _
    rw [ih, List.find?_cons]
    by_cases hname : strcmp name e.1 = 0
    · rw [if_pos hname, beq_iff_eq.mpr (Bytes.strcmp_eq_zero_iff.mp hname).symm]
      rfl
    · rw [if_neg hname, beq_eq_false_iff_ne.mpr fun h => hname (Bytes.strcmp_eq_zero_iff.mpr h.symm)]

/-- The linear variant agrees with what a lookup should return. -/
theorem LooksUp.of_spec {v : BitVec 32} (hfound : ∀ e ∈ entries, e.1 = name → v = e.2)
    (habsent : (∀ e ∈ entries, e.1 ≠ name) → v = 0) : LooksUp entries name v := by
  refine ⟨hfound, habsent, ?_⟩
  rw [symtabLinear_eq]
  cases hfind : entries.find? fun e => e.1 == name with
  | none =>
    apply habsent
    intro e he hname
    exact List.find?_eq_none.mp hfind e he (beq_iff_eq.mpr hname)
  | some e =>
    exact hfound e (List.mem_of_find?_eq_some hfind) (beq_iff_eq.mp (List.find?_some hfind :))

/-- A name behind an entry is behind the earlier ones, -/
theorem SortedNames.pos_of_le (hs : SortedNames entries) {j : ℕ} (hij : i ≤ j) (hj : j < entries.length)
    (h : 0 < strcmp name entries[j].1) : 0 < strcmp name entries[i].1 := by
  rcases Nat.lt_or_eq_of_le hij with hlt | rfl
  · have hlt := List.pairwise_iff_getElem.mp hs i j (hlt.trans hj) hj hlt
    rw [Bytes.strcmp_swap, neg_pos] at h ⊢
    exact Bytes.strcmp_trans hlt h
  · exact h

/-- and one before an entry is before the later ones. -/
theorem SortedNames.neg_of_le (hs : SortedNames entries) {j : ℕ} (hij : i ≤ j) (hj : j < entries.length)
    (h : strcmp name entries[i].1 < 0) : strcmp name entries[j].1 < 0 := by
  rcases Nat.lt_or_eq_of_le hij with hlt | rfl
  · exact Bytes.strcmp_trans h (List.pairwise_iff_getElem.mp hs i j (hlt.trans hj) hj hlt)
  · exact h

/-- The value of an entry of the table. -/
theorem LooksUp.of_getElem (hs : SortedNames entries) (hi : i < entries.length)
    (h : strcmp name entries[i].1 = 0) : LooksUp entries name entries[i].2 := by
  have hname := Bytes.strcmp_eq_zero_iff.mp h
  refine .of_spec (fun e he hother => ?_) fun habsent => ?_
  · obtain ⟨j, hj, rfl⟩ := List.getElem_of_mem he
    have hzero : strcmp name entries[j].1 = 0 := Bytes.strcmp_eq_zero_iff.mpr hother.symm
    rw [hname] at hzero
    rcases lt_trichotomy i j with hlt | rfl | hlt
    · have hneg := List.pairwise_iff_getElem.mp hs i j hi hj hlt
      omega
    · rfl
    · have hneg := List.pairwise_iff_getElem.mp hs j i hj hi hlt
      rw [Bytes.strcmp_swap] at hneg
      omega
  · exact absurd hname.symm (habsent _ (List.getElem_mem hi))

/-! ### The search in a generated table -/

theorem kernelTable_getElem? (hi : i < entries.length) :
    (kernelTable entries)[i]? = some ⟨some entries[i].1, entries[i].2⟩ := by
  rw [kernelTable, List.getElem?_append_left (by rwa [List.length_map]), List.getElem?_map,
    List.getElem?_eq_getElem hi]
  rfl

theorem kernelTable_sentinel (entries : List (List UInt8 × BitVec 32)) :
    (kernelTable entries)[entries.length]? = some ⟨none, 0⟩ := by
  rw [kernelTable, List.getElem?_append_right (by rw [List.length_map]), List.length_map, Nat.sub_self]
  rfl

theorem length_kernelTable (entries : List (List UInt8 × BitVec 32)) :
    (kernelTable entries).length = entries.length + 1 := by
  rw [kernelTable, List.length_append, List.length_map]
  rfl

/-- The invariant of the search: the name lies between the entries before `start` and those behind
`stop`. -/
structure Window (entries : List (List UInt8 × BitVec 32)) (name : List UInt8) (start stop : ℤ) :
    Prop where
  nonneg : 0 ≤ start
  le : start ≤ stop + 1
  stop_le : stop ≤ entries.length
  below : ∀ (i : ℕ) (hi : i < entries.length), i < start → 0 < strcmp name entries[i].1
  above : ∀ (i : ℕ) (hi : i < entries.length), stop < i → strcmp name entries[i].1 < 0

namespace Window

theorem left (w : Window entries name start stop) (hs : SortedNames entries) (hi : i < entries.length)
    (hstart : start ≤ i) (h : strcmp name entries[i].1 < 0) : Window entries name start (i - 1) where
  nonneg := w.nonneg
  le := by omega
  stop_le := by omega
  below := w.below
  above := by
    intro j hj hij
    exact hs.neg_of_le (by omega) hj h

theorem right (w : Window entries name start stop) (hs : SortedNames entries) (hi : i < entries.length)
    (hstop : i ≤ stop) (h : 0 < strcmp name entries[i].1) : Window entries name (i + 1) stop where
  nonneg := by omega
  le := by omega
  stop_le := w.stop_le
  below := by
    intro j hj hij
    exact hs.pos_of_le (by omega) hi h
  above := w.above

/-- When the window is empty, the table does not have the name. -/
theorem absent (w : Window entries name start stop) (h : stop < start) : LooksUp entries name 0 := by
  have hne : ∀ e ∈ entries, e.1 ≠ name := by
    intro e he hname
    obtain ⟨i, hi, rfl⟩ := List.getElem_of_mem he
    have hzero : strcmp name entries[i].1 = 0 := Bytes.strcmp_eq_zero_iff.mpr hname.symm
    rcases lt_or_ge (i : ℤ) start with hlt | hge
    · have hpos := w.below i hi hlt
      omega
    · have hneg := w.above i hi (by omega)
      omega
  exact .of_spec (fun e he hname => absurd hname (hne e he)) fun _ => rfl

/-- **A name that is not behind every entry** is looked up rightly: the search stays off the
sentinel. -/
theorem found (w : Window entries name start stop) (hs : SortedNames entries)
    (hlast : ∃ e ∈ entries, strcmp name e.1 ≤ 0) (hfuel : (stop - start + 1).toNat < fuel) :
    ∃ v, symtabRounds (kernelTable entries) name fuel start stop = some (.ok v) ∧
      LooksUp entries name v := by
  induction fuel generalizing start stop with
  | zero => exact absurd hfuel (Nat.not_lt_zero _)
  | succ fuel ih =>
    rw [symtabRounds]
    split
    next hle =>
      have hnonneg := w.nonneg
      have hstop := w.stop_le
      obtain ⟨m, hm⟩ : ∃ m : ℕ, (start + stop) / 2 = m := Int.eq_ofNat_of_zero_le (by omega)
      have hlt : m < entries.length := by
        by_contra hge
        -- the window holds nothing but the sentinel
        obtain ⟨e, he, hneg⟩ := hlast
        obtain ⟨i, hi, rfl⟩ := List.getElem_of_mem he
        have hpos := w.below i hi (by omega)
        omega
      simp only [hm, Int.toNat_natCast, kernelTable_getElem? hlt]
      -- one case for each sign of the comparison
      split
      next hneg =>
        exact ih (w.left hs hlt (by omega) hneg) (by omega)
      next hneg =>
        split
        next hpos => exact ih (w.right hs hlt (by omega) hpos) (by omega)
        next hpos => exact ⟨_, rfl, .of_getElem hs hlt (by omega)⟩
    next hgt => exact ⟨0, rfl, w.absent (by omega)⟩

end Window

/-- **A name behind every entry** is compared with that of the sentinel. -/
theorem symtabRounds_behind (h : ∀ e ∈ entries, 0 < strcmp name e.1) (hnonneg : 0 ≤ start)
    (hle : start ≤ entries.length) (hfuel : (entries.length - start + 1).toNat < fuel) :
    symtabRounds (kernelTable entries) name fuel start entries.length = some (.error .fault) := by
  induction fuel generalizing start with
  | zero => exact absurd hfuel (Nat.not_lt_zero _)
  | succ fuel ih =>
    obtain ⟨m, hm⟩ : ∃ m : ℕ, (start + entries.length) / 2 = m := Int.eq_ofNat_of_zero_le (by omega)
    rw [symtabRounds, if_pos hle]
    rcases Nat.lt_or_ge m entries.length with hlt | hge
    · have hpos := h _ (List.getElem_mem hlt)
      simp only [hm, Int.toNat_natCast, kernelTable_getElem? hlt]
      rw [if_neg (by omega), if_pos hpos]
      exact ih (by omega) (by omega) (by omega)
    · obtain rfl : m = entries.length := by omega
      simp only [hm, Int.toNat_natCast, kernelTable_sentinel]

/-! ### When a name is looked up -/

/-- **A lookup is right exactly when the name is not behind every entry**: the others, and every name
when there is no entry, are compared with the null name of the sentinel. -/
theorem symtab_lookup_iff (entries : List (List UInt8 × BitVec 32)) (name : List UInt8)
    (hs : SortedNames entries) :
    (∃ fuel v, symtabRounds (kernelTable entries) name fuel 0 ((kernelTable entries).length - 1)
        = some (.ok v) ∧ LooksUp entries name v) ↔
      ∃ e ∈ entries, strcmp name e.1 ≤ 0 := by
  have hstop : ((kernelTable entries).length - 1 : ℤ) = entries.length := by
    rw [length_kernelTable]
    omega
  rw [hstop]
  constructor
  · rintro ⟨fuel, v, hok, -⟩
    by_contra hnone
    have hbehind : ∀ e ∈ entries, 0 < strcmp name e.1 := by
      intro e he
      by_contra hle
      exact hnone ⟨e, he, by omega⟩
    -- with more rounds, the search that has returned a value would come to the sentinel
    have hfault := symtabRounds_behind hbehind le_rfl (Int.natCast_nonneg _)
      (show (entries.length - 0 + 1 : ℤ).toNat < fuel + (entries.length + 2) by omega)
    rw [symtabRounds_mono (Nat.le_add_right fuel _) hok] at hfault
    cases hfault
  · intro hlast
    have hstart : Window entries name 0 entries.length :=
      { nonneg := le_rfl
        le := by omega
        stop_le := le_rfl
        below := by
          intro i _ hi
          omega
        above := by
          intro i hi hlt
          omega }
    obtain ⟨v, hv, hlooks⟩ := hstart.found hs hlast (Nat.lt_succ_self _)
    exact ⟨_, v, hv, hlooks⟩

/-- The name `puts` is behind the only entry of this table. -/
def printkEntries : List (List UInt8 × BitVec 32) := [(chars "printk", 0x30010000)]

/-- The name `printk` is looked up rightly in it, -/
theorem symtab_lookup_printk :
    ∃ fuel v, symtabRounds (kernelTable printkEntries) (chars "printk") fuel 0
      ((kernelTable printkEntries).length - 1) = some (.ok v) ∧
        LooksUp printkEntries (chars "printk") v :=
  (symtab_lookup_iff printkEntries (chars "printk") (by decide)).mpr
    ⟨_, List.mem_cons_self, by decide⟩

/-- and `puts` is not. -/
theorem symtab_lookup_fault :
    ¬ ∀ entries name, SortedNames entries →
      ∃ fuel v, symtabRounds (kernelTable entries) name fuel 0 ((kernelTable entries).length - 1)
        = some (.ok v) ∧ LooksUp entries name v := by
  intro h
  obtain ⟨fuel, v, hok, -⟩ := h printkEntries (chars "puts") (by decide)
  have hfault : symtabRounds (kernelTable printkEntries) (chars "puts") (3 + fuel) 0
      ((kernelTable printkEntries).length - 1) = some (.error .fault) :=
    symtabRounds_mono (Nat.le_add_right 3 fuel) (by decide)
  rw [symtabRounds_mono (Nat.le_add_left fuel 3) hok] at hfault
  cases hfault

end YakOS.Module
