import YakOS.Arch.Mmu

/-!
# Mapping sections

`arm_mmu_create_mapping` of `arch/arm/mmu.c` with a descriptor of sections.  The loop runs while
`vaddr` is below `md->vaddr + md->length`, a sum of 32-bit words: for a range that reaches up to the
end of the address space it is zero, and no section is mapped.

## Main definitions

* `sectionWord` — the descriptor `arm_mmu_map_section` stores.
* `MapDesc.Sections` — an aligned descriptor of sections that does not go beyond the address space.
* `MapsSections` — what is promised of a call.

## Main results

* `translate_sectionWord` — the address and the flags of a section do not overlap.
* `mapSections_mem` — the memory after the loop.
* `section_mapping_iff` — **the sections are mapped and nothing else changes exactly when the range
  ends below the end of the address space or was mapped before**; a misaligned descriptor changes
  nothing.
-/

namespace YakOS

open PageTable

/-- The word `arm_mmu_map_section` stores for the section. -/
def sectionWord (paddr flags : ℕ) : ℕ :=
  paddr / sectionSize * sectionSize ||| (flags &&& ttbAp) |||
    ((flags &&& ttbCacheable) ||| (flags &&& ttbBufferable)) ||| ttbSd

/-- A descriptor of sections as the property asks for. -/
structure MapDesc.Sections (md : MapDesc) : Prop where
  type : md.type = .section
  paddr : md.paddr.toNat % 2 ^ 20 = 0
  vaddr : md.vaddr.toNat % 2 ^ 20 = 0
  length : md.length.toNat % 2 ^ 20 = 0
  fits : md.vaddr.toNat + md.length.toNat ≤ 2 ^ 32

/-- A descriptor of sections that is not aligned. -/
structure MapDesc.Misaligned (md : MapDesc) : Prop where
  type : md.type = .section
  misaligned : md.paddr.toNat % 2 ^ 20 ≠ 0 ∨ md.vaddr.toNat % 2 ^ 20 ≠ 0 ∨ md.length.toNat % 2 ^ 20 ≠ 0

/-- Where the descriptor asks an address of one of its sections to lead. -/
def MapDesc.requestedSection (md : MapDesc) (v : ℕ) : Translation :=
  ⟨(md.paddr.toNat + (v - md.vaddr.toNat)) % 2 ^ 32, field md.attr.toNat 10, field md.attr.toNat 2, 0⟩

/-- The directory leads every address of the range where the descriptor asks it to lead. -/
def LeadsSections (mem : ℕ → UInt32) (md : MapDesc) : Prop :=
  ∀ v, md.Has v → translateAddr mem kernelPgd v = some (md.requestedSection v)

/-- The call returns, the addresses of the range lead where they have to, and no word but the
entries of the range has changed. -/
def MapsSections (s : Mmu) (md : MapDesc) : Prop :=
  ∃ s', armMmuCreateMapping s md = some s' ∧ LeadsSections s'.mem md ∧
    ∀ x, (∀ v, md.Has v → x ≠ descriptorAt kernelPgd v) → s'.mem x = s.mem x

/-! ### The word -/

/-- The masks of the word come to one. -/
theorem sectionWord_eq (paddr flags : ℕ) :
    sectionWord paddr flags = paddr / 2 ^ 20 * 2 ^ 20 ||| (flags &&& 0xc0c) ||| 2 := by
  unfold sectionWord
  rw [Nat.or_assoc (paddr / sectionSize * sectionSize)]
  simp only [← Nat.and_or_distrib_left]
  rfl

theorem sectionWord_lt {paddr : ℕ} (flags : ℕ) (h : paddr < 2 ^ 32) :
    sectionWord paddr flags < 2 ^ 32 := by
  rw [sectionWord_eq]
  refine Nat.or_lt_two_pow (Nat.or_lt_two_pow ?_ ?_) (by decide)
  · omega
  · exact Nat.and_lt_two_pow _ (by decide)

/-- The bits below the address of the section are those of the flags, and its type. -/
theorem field_sectionWord (paddr flags : ℕ) {k : ℕ} (hk : k ≤ 18) :
    field (sectionWord paddr flags) k = (field flags k &&& field 0xc0c k) ||| field 2 k := by
  have hbase : field (paddr / 2 ^ 20 * 2 ^ 20) k = 0 := by
    obtain ⟨j, hj⟩ := Nat.exists_eq_add_of_le hk
    unfold field
    rw [show paddr / 2 ^ 20 * 2 ^ 20 = paddr / 2 ^ 20 * 2 ^ (j + 2) * 2 ^ k by
      rw [Nat.mul_assoc, ← Nat.pow_add]
      congr 2
      omega]
    rw [Nat.mul_div_cancel _ (Nat.two_pow_pos k), Nat.pow_add, ← Nat.mul_assoc]
    exact Nat.mul_mod_left _ _
  rw [sectionWord_eq, field_or, field_or, field_and, hbase, Nat.zero_or]

theorem sectionWord_base (paddr flags : ℕ) : sectionWord paddr flags / 2 ^ 20 = paddr / 2 ^ 20 := by
  have hmask : (flags &&& 0xc0c) / 2 ^ 20 = 0 := by
    rw [Nat.and_div_two_pow]
    exact Nat.and_zero _
  rw [sectionWord_eq, Nat.or_div_two_pow, Nat.or_div_two_pow, hmask]
  simp

theorem sectionWord_domain (paddr flags : ℕ) : sectionWord paddr flags / 2 ^ 5 % 16 = 0 := by
  have h₅ := field_sectionWord paddr flags (k := 5) (by decide)
  have h₇ := field_sectionWord paddr flags (k := 7) (by decide)
  simp only [show field 0xc0c 5 = 0 from rfl, show field 2 5 = 0 from rfl, Nat.and_zero,
    Nat.or_zero] at h₅
  simp only [show field 0xc0c 7 = 0 from rfl, show field 2 7 = 0 from rfl, Nat.and_zero,
    Nat.or_zero] at h₇
  unfold field at h₅ h₇
  omega

/-- **One section.**  The stored word leads to the section, with the bits asked for. -/
theorem sectionPage_sectionWord (paddr flags v : ℕ) : sectionPage (sectionWord paddr flags) v =
    ⟨paddr / 2 ^ 20 * 2 ^ 20 + v % 2 ^ 20, field flags 10, field flags 2, 0⟩ := by
  have hap := field_sectionWord paddr flags (k := 10) (by decide)
  have hcb := field_sectionWord paddr flags (k := 2) (by decide)
  rw [show field 0xc0c 10 = 3 from rfl, field_and_three, show field 2 10 = 0 from rfl,
    Nat.or_zero] at hap
  rw [show field 0xc0c 2 = 3 from rfl, field_and_three, show field 2 2 = 0 from rfl,
    Nat.or_zero] at hcb
  unfold sectionPage
  rw [sectionWord_base, sectionWord_domain, hap, hcb]

/-! ### The loop -/

/-- The number of sections of the range. -/
def MapDesc.sections (md : MapDesc) : ℕ := md.length.toNat / 2 ^ 20

/-- The state after the first `k` sections. -/
def mapSections (s : Mmu) (md : MapDesc) : ℕ → Mmu
  | 0 => s
  | k + 1 => armMmuMapSection (mapSections s md k) (md.vaddr.toNat + 2 ^ 20 * k)
      ((md.paddr.toNat + 2 ^ 20 * k) % 2 ^ 32) md.attr.toNat

/-- The entry of the section number `k` of the range. -/
def MapDesc.sectionEntry (md : MapDesc) (k : ℕ) : ℕ := kernelPgd + 4 * (md.vaddr.toNat / 2 ^ 20 + k)

section Loop

variable {s : Mmu} {md : MapDesc}

theorem mapSections_succ_mem (hmd : md.Sections) (k : ℕ) : (mapSections s md (k + 1)).mem =
    setWord (mapSections s md k).mem (md.sectionEntry k)
      (sectionWord ((md.paddr.toNat + 2 ^ 20 * k) % 2 ^ 32) md.attr.toNat) := by
  have hvaddr := hmd.vaddr
  have hentry : pgdOffset kernelPgd (md.vaddr.toNat + 2 ^ 20 * k) = md.sectionEntry k := by
    unfold pgdOffset pgdIndex sectionSize MapDesc.sectionEntry
    omega
  rw [← hentry]
  rfl

/-- **The memory after `k` sections**: their entries, and else what it held. -/
theorem mapSections_mem (hmd : md.Sections) (k : ℕ) :
    (∀ j < k, ((mapSections s md k).mem (md.sectionEntry j)).toNat =
      sectionWord ((md.paddr.toNat + 2 ^ 20 * j) % 2 ^ 32) md.attr.toNat) ∧
    ∀ x, (∀ j < k, x ≠ md.sectionEntry j) → (mapSections s md k).mem x = s.mem x := by
  induction k with
  | zero => exact ⟨fun j hj => absurd hj (Nat.not_lt_zero j), fun _ _ => rfl⟩
  | succ k ih =>
    obtain ⟨hentries, hother⟩ := ih
    rw [mapSections_succ_mem hmd]
    constructor
    · intro j hj
      rcases Nat.lt_succ_iff_lt_or_eq.mp hj with hj | rfl
      · have hne : md.sectionEntry j ≠ md.sectionEntry k := by
          unfold MapDesc.sectionEntry
          omega
        rw [setWord_of_ne _ _ hne]
        exact hentries j hj
      · rw [setWord_self]
        exact UInt32.toNat_ofNat_of_lt' (sectionWord_lt _ (Nat.mod_lt _ (by decide)))
    · intro x hx
      rw [setWord_of_ne _ _ (hx k (Nat.lt_succ_self k))]
      exact hother x fun j hj => hx j (by omega)

/-- It passes the test of the code. -/
theorem MapDesc.Sections.aligned (hmd : md.Sections) : ¬ (md.paddr.toNat % sectionSize ≠ 0 ∨
    md.vaddr.toNat % sectionSize ≠ 0 ∨ md.length.toNat % sectionSize ≠ 0) := by
  have h₁ := hmd.paddr
  have h₂ := hmd.vaddr
  have h₃ := hmd.length
  unfold sectionSize
  omega

/-- The whole call, for a range that ends below the end of the address space. -/
theorem armMmuCreateMapping_sections (hmd : md.Sections)
    (hlt : md.vaddr.toNat + md.length.toNat < 2 ^ 32) :
    armMmuCreateMapping s md = some (mapSections s md md.sections) := by
  have hpaddr := UInt32.toNat_lt md.paddr
  have hstop : md.vaddr.toNat + 2 ^ 20 * md.sections = md.vaddr.toNat + md.length.toNat := by
    have := hmd.length
    unfold MapDesc.sections
    omega
  have hfuel : md.sections < 0 + (md.vaddr.toNat + md.length.toNat + 1) := by omega
  have hstep : ∀ k, mapSections s md (k + 1) = armMmuMapSection (mapSections s md k)
      (md.vaddr.toNat + sectionSize * k) ((md.paddr.toNat + sectionSize * k) % 2 ^ 32) md.attr.toNat :=
    fun _ => rfl
  have hloop := mapLoop_run md.paddr.toNat (fun s v p => armMmuMapSection s v p md.attr.toNat)
    (by decide : 0 < sectionSize) hstop hlt hstep (Nat.zero_le _) hfuel
  unfold armMmuCreateMapping
  simp only [hmd.type, if_neg hmd.aligned, Nat.mod_eq_of_lt hlt]
  rw [← hloop]
  simp only [mapSections, Nat.mul_zero, Nat.add_zero, Nat.mod_eq_of_lt hpaddr]

/-- For a range that reaches up to the end of the address space the loop ends at once. -/
theorem armMmuCreateMapping_top (hmd : md.Sections)
    (htop : md.vaddr.toNat + md.length.toNat = 2 ^ 32) : armMmuCreateMapping s md = some s := by
  unfold armMmuCreateMapping
  simp only [hmd.type, if_neg hmd.aligned, htop, Nat.mod_self]
  rfl

/-- The section of an address of the range. -/
theorem MapDesc.Has.section (hmd : md.Sections) {v : ℕ} (h : md.Has v) :
    (v - md.vaddr.toNat) / 2 ^ 20 < md.sections ∧
      descriptorAt kernelPgd v = md.sectionEntry ((v - md.vaddr.toNat) / 2 ^ 20) := by
  have hvaddr := hmd.vaddr
  have hlength := hmd.length
  obtain ⟨h₁, h₂⟩ := h
  constructor
  · unfold MapDesc.sections
    omega
  · unfold descriptorAt MapDesc.sectionEntry
    omega

/-- After all sections the addresses of the range lead where they have to. -/
theorem leadsSections_mapSections (hmd : md.Sections) :
    LeadsSections (mapSections s md md.sections).mem md := by
  intro v hv
  obtain ⟨hlt, hentry⟩ := hv.section hmd
  have hword := (mapSections_mem (s := s) hmd md.sections).1 _ hlt
  rw [← hentry] at hword
  have htype : field ((mapSections s md md.sections).mem (descriptorAt kernelPgd v)).toNat 0 = 2 := by
    rw [hword, field_sectionWord _ _ (by decide)]
    simp [field]
  have hvaddr := hmd.vaddr
  have hpaddr := hmd.paddr
  have haddr : (md.paddr.toNat + 2 ^ 20 * ((v - md.vaddr.toNat) / 2 ^ 20)) % 2 ^ 32 / 2 ^ 20 * 2 ^ 20
      + v % 2 ^ 20 = (md.paddr.toNat + (v - md.vaddr.toNat)) % 2 ^ 32 := by
    have := hv.1
    omega
  rw [translateAddr_section htype, hword, sectionPage_sectionWord, haddr]
  rfl

/-- **One descriptor of sections.** -/
theorem mapsSections_iff (hmd : md.Sections) : MapsSections s md ↔
    md.vaddr.toNat + md.length.toNat < 2 ^ 32 ∨ LeadsSections s.mem md := by
  rcases hmd.fits.lt_or_eq with hlt | htop
  · refine iff_of_true ⟨_, armMmuCreateMapping_sections hmd hlt, leadsSections_mapSections hmd, ?_⟩
      (Or.inl hlt)
    intro x hx
    refine (mapSections_mem hmd md.sections).2 x ?_
    rintro j hj rfl
    have hvaddr := hmd.vaddr
    refine hx (md.vaddr.toNat + 2 ^ 20 * j) ⟨by omega, ?_⟩ ?_
    · unfold MapDesc.sections at hj
      omega
    · unfold MapDesc.sectionEntry descriptorAt
      omega
  -- the loop has done nothing
  · unfold MapsSections
    rw [armMmuCreateMapping_top hmd htop]
    constructor
    · rintro ⟨s', hs', hleads, -⟩
      obtain rfl := Option.some.inj hs'
      exact Or.inr hleads
    · rintro (hlt | hleads)
      · omega
      · exact ⟨s, rfl, hleads, fun _ _ => rfl⟩

/-- A misaligned descriptor is only reported. -/
theorem armMmuCreateMapping_misaligned (hmd : md.Misaligned) : armMmuCreateMapping s md =
    some (s.print "%s %d: section address is not aligned\n") := by
  unfold armMmuCreateMapping
  simp only [hmd.type]
  exact if_pos hmd.misaligned

end Loop

/-- **Descriptors of sections.**  An aligned one is mapped, and nothing else changes, exactly when its
range ends below the end of the address space or was mapped so before; a misaligned one changes
nothing. -/
theorem section_mapping_iff {s : Mmu} {md bad : MapDesc} (hmd : md.Sections) (hbad : bad.Misaligned) :
    (MapsSections s md ↔
      md.vaddr.toNat + md.length.toNat < 2 ^ 32 ∨ LeadsSections s.mem md) ∧
    ∃ s', armMmuCreateMapping s bad = some s' ∧ s'.mem = s.mem ∧ s'.heap = s.heap ∧
      s'.pgdWrites = s.pgdWrites :=
  ⟨mapsSections_iff hmd, _, armMmuCreateMapping_misaligned hbad, rfl, rfl, rfl⟩

/-- The first section of the main memory, mapped to itself, and the same with a length of one page. -/
theorem section_mapping_iff_one :
    ∃ s : Mmu, MapsSections s ⟨0xc0000000, 0xc0000000, 0x100000, 0xc0c, .section⟩ ∧
      ∃ s', armMmuCreateMapping s ⟨0xc0000000, 0xc0000000, 0x1000, 0xc0c, .section⟩ = some s' ∧
        s'.mem = s.mem := by
  obtain ⟨z, -, -⟩ := exists_clearMmu
  have hmd : MapDesc.Sections ⟨0xc0000000, 0xc0000000, 0x100000, 0xc0c, .section⟩ := by
    constructor <;> decide
  have hbad : MapDesc.Misaligned ⟨0xc0000000, 0xc0000000, 0x1000, 0xc0c, .section⟩ := by
    constructor <;> decide
  obtain ⟨hiff, s', hs', hmem, -⟩ := section_mapping_iff (s := clearMmu z) hmd hbad
  exact ⟨clearMmu z, hiff.mpr (Or.inl (by decide)), s', hs', hmem⟩

/-- The last section of the address space is not mapped. -/
theorem top_section_not_mapped :
    ¬ ∀ (s : Mmu) (md : MapDesc), md.Sections → MapsSections s md := by
  intro hall
  obtain ⟨z, -, -⟩ := exists_clearMmu
  have hmd : MapDesc.Sections ⟨0xc0000000, 0xfff00000, 0x100000, 0xc00, .section⟩ := by
    constructor <;> decide
  rcases (mapsSections_iff hmd).mp (hall (clearMmu z) _ hmd) with hlt | hleads
  · revert hlt
    decide
  · have hfirst := hleads 0xfff00000 (by decide)
    simp [clearMmu, translateAddr, field] at hfirst

end YakOS
