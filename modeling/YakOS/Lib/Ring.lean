import Mathlib.Data.List.Basic

/-!
# Ring buffers

A buffer of `n` cells with a read index and a write index, both below `n`.  The
elements it holds are those from the read index up to the write index, around the end;
it is empty when the two are equal, so it holds `n - 1` elements at most.

## Main definitions

* `held n mem rp wp` — the elements held, first to last.

## Main results

* `held_eq_nil_iff` — the test for emptiness.
* `held_cons` — the element at the read index is the first.
* `held_store`, `held_bump` — storing an element at the write index, and moving it on.
* `length_held_add` — the number of elements, when the write index runs into the read index too.
-/

namespace Ring

variable {α : Type*}

/-- The elements from `rp` up to `wp`. -/
def held (n : ℕ) (mem : ℕ → α) (rp wp : ℕ) : List α :=
  (List.range ((wp + n - rp) % n)).map fun i => mem ((rp + i) % n)

variable {n : ℕ} {mem : ℕ → α} {rp wp : ℕ}

theorem length_held : (held n mem rp wp).length = (wp + n - rp) % n := by simp [held]

/-- The number of elements held, whichever way around the indices are. -/
theorem distance_eq (hr : rp < n) (hw : wp < n) :
    (wp + n - rp) % n = if rp ≤ wp then wp - rp else wp + n - rp := by
  split
  · rename_i hle
    rw [show wp + n - rp = wp - rp + n by omega, Nat.add_mod_right]
    exact Nat.mod_eq_of_lt (by omega)
  · exact Nat.mod_eq_of_lt (by omega)

/-- The index after another one. -/
theorem succ_mod (hr : rp < n) : (rp + 1) % n = if rp + 1 = n then 0 else rp + 1 := by
  split
  · rename_i heq
    rw [heq, Nat.mod_self]
  · exact Nat.mod_eq_of_lt (by omega)

theorem held_eq_nil_iff (mem : ℕ → α) (hr : rp < n) (hw : wp < n) : held n mem rp wp = [] ↔ rp = wp := by
  rw [← List.length_eq_zero_iff, length_held, distance_eq hr hw]
  split <;> omega

/-- The element at the read index is the first one. -/
theorem held_cons (hr : rp < n) (hw : wp < n) (hne : rp ≠ wp) :
    held n mem rp wp = mem rp :: held n mem ((rp + 1) % n) wp := by
  have hr' : (rp + 1) % n < n := Nat.mod_lt _ (by omega)
  have hlen : (wp + n - rp) % n = (wp + n - (rp + 1) % n) % n + 1 := by
    rw [distance_eq hr hw, distance_eq hr' hw, succ_mod hr]
    split <;> split <;> split <;> omega
  unfold held
  rw [hlen, List.range_succ_eq_map, List.map_cons, List.map_map, Nat.add_zero,
    Nat.mod_eq_of_lt hr]
  congr 1
  apply List.map_congr_left
  intro i _
  simp only [Function.comp_apply, Nat.mod_add_mod]
  congr 2
  omega

/-- Storing at the write index changes nothing that is held. -/
theorem held_store (hr : rp < n) (hw : wp < n) {mem' : ℕ → α}
    (hmem : ∀ i, i ≠ wp → mem' i = mem i) : held n mem' rp wp = held n mem rp wp := by
  unfold held
  refine List.map_congr_left fun i hi => hmem _ ?_
  rw [List.mem_range, distance_eq hr hw] at hi
  rcases Nat.lt_or_ge (rp + i) n with hlt | hge
  · rw [Nat.mod_eq_of_lt hlt]
    split at hi <;> omega
  · rw [Nat.mod_eq_sub_mod hge, Nat.mod_eq_of_lt (by split at hi <;> omega)]
    split at hi <;> omega

/-- Moving the write index on adds the element stored there, unless it then meets the read
index. -/
theorem held_bump (hr : rp < n) (hw : wp < n) (hne : (wp + 1) % n ≠ rp) :
    held n mem rp ((wp + 1) % n) = held n mem rp wp ++ [mem wp] := by
  have hw' : (wp + 1) % n < n := Nat.mod_lt _ (by omega)
  have hlen : ((wp + 1) % n + n - rp) % n = (wp + n - rp) % n + 1 := by
    rw [distance_eq hr hw, distance_eq hr hw', succ_mod hw]
    rw [succ_mod hw] at hne
    by_cases hend : wp + 1 = n
    · rw [if_pos hend] at hne ⊢
      split <;> split <;> omega
    · rw [if_neg hend] at hne ⊢
      split <;> split <;> omega
  have hlast : (rp + (wp + n - rp) % n) % n = wp := by
    rw [distance_eq hr hw]
    split
    · rw [show rp + (wp - rp) = wp by omega, Nat.mod_eq_of_lt hw]
    · rw [show rp + (wp + n - rp) = wp + n by omega, Nat.add_mod_right, Nat.mod_eq_of_lt hw]
  unfold held
  rw [hlen, List.range_succ, List.map_append, List.map_singleton, hlast]

/-- A ring that keeps a cell free has room for one more element. -/
theorem succ_ne_of_length (mem : ℕ → α) (hr : rp < n) (hw : wp < n)
    (h : (held n mem rp wp).length + 1 < n) : (wp + 1) % n ≠ rp := by
  rw [length_held, distance_eq hr hw] at h
  rw [succ_mod hw]
  split at h <;> split <;> omega

/-- The number of elements counts the moves of the write index, around the end. -/
theorem length_held_add (mem mem' : ℕ → α) (hr : rp < n) (wp k : ℕ) :
    (held n mem' rp ((wp + k) % n)).length = ((held n mem rp wp).length + k) % n := by
  obtain ⟨d, hd⟩ := Nat.exists_eq_add_of_lt hr
  have hsub : ∀ x, x + n - rp = x + (d + 1) := fun x => by omega
  rw [length_held, length_held, hsub, hsub, Nat.mod_add_mod, Nat.mod_add_mod]
  congr 1
  omega

end Ring
