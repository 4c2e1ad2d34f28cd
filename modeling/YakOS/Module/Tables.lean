import YakOS.Module.Sections
import YakOS.Module.Segment

/-!
# The entry size of a relocation table

The entries of a `.rela` table have 12 bytes and those of a `.rel` table 8.  Which of
them a table has is kept in `s_relas` when the section headers are walked, and looked up
by `relocate_section` — in the entry of `sec_info` of *twice* the number of the section,
since the pointer it indexes already points at the section's own entry.  For text this is
the entry itself, for rodata that of data, and for data that of the string table, which no
table is ever kept in.

## Main definitions

* `SegType.table` — the names of the relocation tables of a segment.
* `LoadInfo.LastTable` — the table that is kept for a segment, and its kind.
* `LoadInfo.ReadsEntries` — a table is read entry by entry.
* `LoadInfo.SizeKept` — the flag that is looked up tells the kind of the table.

## Main results

* `elfGetSecInfo_relas` — what `s_relas` holds after the walk.
* `table_sizes_iff` — **when every table is read with its own entry size.**
-/

namespace YakOS.Module

open Bytes (chars)

/-- The relocation table of a segment, with addends or without. -/
def SegType.table : SegType → Bool → SecName
  | .text, false => .relText
  | .text, true => .relaText
  | .rodata, false => .relRodata
  | .rodata, true => .relaRodata
  | .data, false => .relData
  | .data, true => .relaData

/-- The section of index `j` is the one that is kept as the relocation table of a segment, and it
is a `.rela` table if `relas` is set. -/
def LoadInfo.LastTable (info : LoadInfo) (t : SegType) (relas : Bool) (j : ℕ) : Prop :=
  info.LastOf j (t.table relas) ∧ info.Begins j (t.table relas)

variable {info : LoadInfo} {t : SegType} {relas relas' : Bool} {i j : ℕ} {n m : SecName}
  {input : BitVec 32 → UInt8} {inputAddr : BitVec 32}

theorem SegType.table_slot (t : SegType) (relas : Bool) :
    (t.table relas).isTable = true ∧ (t.table relas).sec = t.sec := by
  cases t <;> cases relas <;> exact ⟨rfl, rfl⟩

theorem SegType.exists_eq_table (h : n.isTable = true ∧ n.sec = t.sec) : ∃ relas, n = t.table relas := by
  revert h
  cases n <;> cases t <;> decide

/-! ### The flag -/

/-- The value of `s_relas` that the test for a table's name sets. -/
def SecName.flag : SecName → BitVec 32
  | relaText | relRodata | relaRodata | relaData => 1
  | _ => 0

theorem SecName.sRelas_assign (n : SecName) (s : SecInfo) (i : BitVec 32) (shdr : Elf32Shdr) :
    (n.assign s i shdr).sRelas = if n.isTable then n.flag else s.sRelas := by
  cases n <;> rfl

/-- The section of index `i` is kept as a relocation table in the entry `k`. -/
def LoadInfo.IsTableOf (info : LoadInfo) (k : Fin 6) (i : ℕ) : Prop :=
  ∃ n, (n.isTable = true ∧ n.sec = k) ∧ info.Begins i n

variable {k : Fin 6}

theorem sRelas_recordSection_of_hit (secInfo : Fin 6 → SecInfo) (h : info.IsTableOf k i) :
    ∃ n, info.Begins i n ∧ (recordSection info secInfo i k).sRelas = n.flag := by
  obtain ⟨n, ⟨htable, hsec⟩, hn⟩ := h
  refine ⟨n, hn, ?_⟩
  rw [recordSection_of_begins secInfo hn hsec, SecName.sRelas_assign, if_pos htable]

theorem sRelas_recordSection_of_miss (secInfo : Fin 6 → SecInfo) (h : ¬ info.IsTableOf k i) :
    (recordSection info secInfo i k).sRelas = (secInfo k).sRelas := by
  by_cases hsec : ∃ m, info.Begins i m ∧ m.sec = k
  · obtain ⟨m, hm, hsec⟩ := hsec
    have htable : ¬ m.isTable = true := fun ht => h ⟨m, ⟨ht, hsec⟩, hm⟩
    rw [recordSection_of_begins secInfo hm hsec, SecName.sRelas_assign, if_neg htable]
  · rw [recordSection_of_ne secInfo fun m hm hk => hsec ⟨m, hm, hk⟩]

/-- Without a table, an entry keeps the flag it had. -/
theorem elfGetSecInfo_relas_of_miss (h : ∀ i < info.ehdr.eShnum.toNat, ¬ info.IsTableOf k i) :
    ((elfGetSecInfo info).1.secInfo k).sRelas = (info.secInfo k).sRelas :=
  Lists.foldl_range_of_miss (info.IsTableOf k) (fun secInfo => (secInfo k).sRelas)
    (fun s _ => sRelas_recordSection_of_miss s) h _

theorem LoadInfo.LastTable.last (h : info.LastTable t relas j) :
    info.IsTableOf t.sec j ∧ ∀ i, j < i → i < info.ehdr.eShnum.toNat → ¬ info.IsTableOf t.sec i := by
  obtain ⟨⟨hj, -, hlast⟩, hbegins⟩ := h
  refine ⟨⟨t.table relas, t.table_slot relas, hbegins⟩, ?_⟩
  intro i hji hi hit
  obtain ⟨n, ⟨htable, hsec⟩, hn⟩ := hit
  obtain ⟨htable', hsec'⟩ := t.table_slot relas
  exact hlast i hji hi ⟨n, ⟨hsec.trans hsec'.symm, htable.trans htable'.symm⟩, hn⟩

/-- **The flag kept for a segment** is that of its table. -/
theorem elfGetSecInfo_relas (h : info.LastTable t relas j) :
    ((elfGetSecInfo info).1.secInfo t.sec).sRelas = (t.table relas).flag := by
  obtain ⟨hit, hlast⟩ := h.last
  obtain ⟨n, hn, hflag⟩ := Lists.foldl_range_of_last (info.IsTableOf t.sec)
    (fun secInfo => (secInfo t.sec).sRelas) (fun j v => ∃ n, info.Begins j n ∧ v = n.flag)
    (fun s _ => sRelas_recordSection_of_hit s) (fun s _ => sRelas_recordSection_of_miss s)
    h.1.1 hit hlast info.secInfo
  rw [h.2.eq hn]
  exact hflag

/-- A segment that has a relocation table has a last one, of one of the two kinds. -/
theorem LoadInfo.IsTableOf.exists_lastTable (hi : i < info.ehdr.eShnum.toNat)
    (h : info.IsTableOf t.sec i) : ∃ relas j, info.LastTable t relas j := by
  obtain ⟨j, hj, ⟨n, hn, hbegins⟩, hlast⟩ := Lists.exists_last (info.IsTableOf t.sec) hi h
  obtain ⟨relas, rfl⟩ := SegType.exists_eq_table hn
  refine ⟨relas, j, ⟨hj, ⟨_, ⟨rfl, rfl⟩, hbegins⟩, fun i hji hi hit => ?_⟩, hbegins⟩
  obtain ⟨m, ⟨hsec, htable⟩, hm⟩ := hit
  obtain ⟨htable', hsec'⟩ := t.table_slot relas
  exact hlast i hji hi ⟨m, ⟨htable.trans htable', hsec.trans hsec'⟩, hm⟩

/-- A table that no other table follows is the last one. -/
theorem LoadInfo.lastTable_of_no_later (hj : j < info.ehdr.eShnum.toNat)
    (h : info.Begins j (t.table relas))
    (hlater : ∀ i < info.ehdr.eShnum.toNat, j < i → ∀ n ∈ SecName.all, n.isTable = true →
      ¬ info.Begins i n) : info.LastTable t relas j := by
  refine ⟨⟨hj, ⟨_, ⟨rfl, rfl⟩, h⟩, fun i hi hlt hit => ?_⟩, h⟩
  obtain ⟨n, ⟨-, htable⟩, hn⟩ := hit
  exact hlater i hlt hi n n.mem_all (htable.trans (t.table_slot relas).1) hn

/-! ### The flag that is looked up -/

/-- For text the flag of the table itself is looked up, -/
theorem usingRelas_text (h : info.LastTable .text relas j) :
    usingRelas (elfGetSecInfo info).1 .text = relas := by
  have hflag := elfGetSecInfo_relas h
  show (((elfGetSecInfo info).1.secInfo SegType.text.sec).sRelas.setWidth 8 != 0#8) = relas
  rw [hflag]
  cases relas <;> decide

/-- for rodata that of the table of data, -/
theorem usingRelas_rodata (hclear : (info.secInfo SegType.data.sec).sRelas = 0) :
    usingRelas (elfGetSecInfo info).1 .rodata = true ↔ ∃ j, info.LastTable .data true j := by
  show (((elfGetSecInfo info).1.secInfo SegType.data.sec).sRelas.setWidth 8 != 0#8) = true ↔ _
  constructor
  · intro h
    by_cases hit : ∃ i < info.ehdr.eShnum.toNat, info.IsTableOf SegType.data.sec i
    · obtain ⟨i, hi, hit⟩ := hit
      obtain ⟨relas, j, hj⟩ := hit.exists_lastTable hi
      rw [elfGetSecInfo_relas hj] at h
      cases relas with
      | false => exact absurd h (by decide)
      | true => exact ⟨j, hj⟩
    · rw [elfGetSecInfo_relas_of_miss fun i hi ht => hit ⟨i, hi, ht⟩, hclear] at h
      exact absurd h (by decide)
  · rintro ⟨j, hj⟩
    rw [elfGetSecInfo_relas hj]
    decide

/-- and for data that of the string table, which has none. -/
theorem usingRelas_data (hclear : (info.secInfo secTypeStrtab).sRelas = 0) :
    usingRelas (elfGetSecInfo info).1 .data = false := by
  have hmiss : ∀ i < info.ehdr.eShnum.toNat, ¬ info.IsTableOf secTypeStrtab i := by
    rintro i - ⟨n, ⟨htable, hsec⟩, -⟩
    revert htable hsec
    cases n <;> decide
  show (((elfGetSecInfo info).1.secInfo secTypeStrtab).sRelas.setWidth 8 != 0#8) = false
  rw [elfGetSecInfo_relas_of_miss hmiss, hclear]
  decide

/-! ### The entries -/

theorem relSize_pos (relas : Bool) : 0 < relSize relas := by
  cases relas <;> decide

theorem relSize_inj : relSize relas = relSize relas' ↔ relas = relas' := by
  cases relas <;> cases relas' <;> decide

/-- `relocate_section` walks the section of index `j` in steps of the entry size of its kind, and so
reads each of its entries once. -/
def LoadInfo.ReadsEntries (info : LoadInfo) (t : SegType) (relas : Bool) (j : ℕ) : Prop :=
  relSize (usingRelas info t) = relSize relas ∧
    ∀ k, (info.shdr j).shSize.toNat = relSize relas * k →
      (info.shdr j).shOffset.toNat + (info.shdr j).shSize.toNat < 2 ^ 32 →
      relocTable info t (usingRelas info t) = (List.range k).map fun i =>
        info.rela (t, i) ((info.shdr j).shOffset.toNat + relSize relas * i)

/-- The flag that is looked up is the kind of the table: for rodata when that of data is of the
same kind, and for data when it has no addends. -/
def LoadInfo.SizeKept (info : LoadInfo) : SegType → Bool → Prop
  | .text, _ => True
  | .rodata, relas => relas = true ↔ ∃ j, info.LastTable .data true j
  | .data, relas => relas = false

theorem elfGetSecInfo_table (h : info.LastTable t relas j) :
    ((elfGetSecInfo info).1.secInfo t.sec).sReloff = (info.shdr j).shOffset ∧
      ((elfGetSecInfo info).1.secInfo t.sec).sRelsize = (info.shdr j).shSize := by
  have hfields := elfGetSecInfo_fields h.1
  rw [(t.table_slot relas).2] at hfields
  cases t <;> cases relas <;> simpa [SegType.table, SecName.fields, SecName.values] using hfields

theorem readsEntries_iff (h : info.LastTable t relas j) :
    (elfGetSecInfo info).1.ReadsEntries t relas j ↔ usingRelas (elfGetSecInfo info).1 t = relas := by
  constructor
  · intro hreads
    exact relSize_inj.mp hreads.1
  · intro hrelas
    refine ⟨congrArg relSize hrelas, ?_⟩
    intro k hk hwrap
    obtain ⟨hoff, hsize⟩ := elfGetSecInfo_table h
    rw [shdr_elfGetSecInfo] at hk hwrap ⊢
    rw [hrelas, relocTable, hoff, hsize, loopCount_eq (loopRounds_of_mul (relSize_pos relas) hk hwrap)]
    refine List.map_congr_left ?_
    intro i hi
    have hle : relSize relas * i ≤ relSize relas * k :=
      Nat.mul_le_mul_left _ (List.mem_range.mp hi).le
    rw [toNat_loopOffset (by omega)]

theorem usingRelas_eq_iff (h : info.LastTable t relas j) (hclear : ∀ k, (info.secInfo k).sRelas = 0) :
    usingRelas (elfGetSecInfo info).1 t = relas ↔ info.SizeKept t relas := by
  cases t with
  | text => exact iff_of_true (usingRelas_text h) trivial
  | rodata =>
    rw [LoadInfo.SizeKept, ← usingRelas_rodata (hclear _), Bool.eq_iff_iff]
    exact iff_comm
  | data =>
    rw [LoadInfo.SizeKept, usingRelas_data (hclear _)]
    exact eq_comm

/-- Every relocation table of the image that is not empty is read with its own entry size. -/
def LoadInfo.TablesRead (info : LoadInfo) : Prop :=
  ∀ t relas j, info.LastTable t relas j → (info.shdr j).shSize ≠ 0 →
    (elfGetSecInfo info).1.ReadsEntries t relas j

/-- For every relocation table of the image that is not empty, the flag that is looked up tells its
kind. -/
def LoadInfo.SizesKept (info : LoadInfo) : Prop :=
  ∀ t relas j, info.LastTable t relas j → (info.shdr j).shSize ≠ 0 → info.SizeKept t relas

/-- **Each relocation table is read with its own entry size exactly when the flag that is looked up
is that of the table.** -/
theorem table_sizes_iff (input : BitVec 32 → UInt8) (inputAddr : BitVec 32) :
    (LoadInfo.cleared input inputAddr).TablesRead ↔ (LoadInfo.cleared input inputAddr).SizesKept := by
  refine forall₃_congr fun t relas j => forall₂_congr ?_
  intro h _
  rw [readsEntries_iff h]
  exact usingRelas_eq_iff h fun _ => rfl

/-- An image with a section `.data` and its relocation table, of one entry with addend. -/
def relaDataImage : LoadInfo :=
  let image := imageBytes
    [⟨0, 0, 0⟩, ⟨1, 344, 4⟩, ⟨7, 348, 4⟩, ⟨13, 352, 12⟩, ⟨24, 364, 16⟩, ⟨32, 292, 40⟩] 5
    (0 :: chars ".text" ++ 0 :: chars ".data" ++ 0 :: chars ".rela.data" ++ 0 :: chars ".symtab" ++
      0 :: chars ".strtab" ++ [0])
  .cleared (memoryAt 0x30100000 image) 0x30100000

/-- The table `.rela.data` is read in steps of 8 bytes. -/
theorem rela_data_read_as_rel :
    ¬ ∀ input inputAddr, (LoadInfo.cleared input inputAddr).TablesRead := by
  intro h
  have hlast : relaDataImage.LastTable .data true 3 :=
    LoadInfo.lastTable_of_no_later (by decide +kernel) (by decide +kernel) (by decide +kernel)
  have hsize : (relaDataImage.shdr 3).shSize ≠ 0 := by decide +kernel
  have hreads := h _ _ .data true 3 hlast hsize
  have hused : usingRelas (elfGetSecInfo relaDataImage).1 .data = false := by decide +kernel
  exact absurd (hused.symm.trans (relSize_inj.mp hreads.1)) (by decide)

end YakOS.Module
