import Mathlib.Data.List.Basic
import Mathlib.Data.List.Nodup
import Mathlib.Logic.Function.Basic

/-!
# Circular doubly linked lists

The lists of `include/kernel/list.h` as the pointers of their nodes.  A node of a list is
part of some object, the head of the list is a node of its own, and the pointers of a
node may be null.  The operations take the nodes they are told to; only when the nodes are
linked as they should be do the pointers stay those of a circle.

## Main definitions

* `Links` — the pointers `next` and `prev` of all nodes.
* `listAdd`, `listAddTail`, `listDel`, `listDelInit` — the operations; `none` stands for a
  step through a null pointer.
* `Ring l h xs` — the nodes `xs` are linked in this order in a circle through `h`.

## Main results

* `Ring.unique` — the pointers determine the circle.
* `Ring.listAdd_head`, `Ring.listAdd_mem`, `Ring.listAddTail` — adding a node that is not
  in the circle.
* `Ring.not_ring_insert` — adding a node that is in the circle breaks it.
* `Ring.listDel`, `Ring.listDelInit` — removing a node that is in the circle.
-/

/-- The pointers of the nodes. -/
structure Links (ν : Type*) where
  next : ν → Option ν
  prev : ν → Option ν

namespace Links

variable {ν : Type*}

section Operations

variable [DecidableEq ν] (l : Links ν)

/-- `a->next = b`. -/
def setNext (a : ν) (b : Option ν) : Links ν := { l with next := Function.update l.next a b }

/-- `a->prev = b`. -/
def setPrev (a : ν) (b : Option ν) : Links ν := { l with prev := Function.update l.prev a b }

/-- `INIT_LIST_HEAD`. -/
def initListHead (a : ν) : Links ν := (l.setNext a (some a)).setPrev a (some a)

/-- `__list_add`. -/
def insert (new prev next : ν) : Links ν :=
  (((l.setPrev next (some new)).setNext new (some next)).setPrev new (some prev)).setNext prev
    (some new)

/-- `list_add`. -/
def listAdd (new head : ν) : Option (Links ν) := (l.next head).map fun n => l.insert new head n

/-- `list_add_tail`. -/
def listAddTail (new head : ν) : Option (Links ν) := (l.prev head).map fun p => l.insert new p head

/-- `__list_del`. -/
def unlink (prev next : ν) : Links ν := (l.setPrev next (some prev)).setNext prev (some next)

/-- `list_del`. -/
def listDel (entry : ν) : Option (Links ν) :=
  match l.prev entry, l.next entry with
  | some p, some n => some (((l.unlink p n).setNext entry none).setPrev entry none)
  | _, _ => none

/-- `list_del_init`. -/
def listDelInit (entry : ν) : Option (Links ν) :=
  match l.prev entry, l.next entry with
  | some p, some n => some ((l.unlink p n).initListHead entry)
  | _, _ => none

/-- `list_empty`. -/
def listEmpty (head : ν) : Bool := l.next head = some head

/-- `list_empty_careful`. -/
def listEmptyCareful (head : ν) : Bool := l.next head = some head ∧ l.prev head = some head

end Operations

/-! ### Circles -/

/-- The pairs of neighbours of a circle. -/
def pairs (h : ν) (xs : List ν) : List (ν × ν) := (h :: xs).zip (xs ++ [h])

/-- The nodes `xs` are linked in this order in a circle through `h`. -/
structure Ring (l : Links ν) (h : ν) (xs : List ν) : Prop where
  nodup : (h :: xs).Nodup
  next : ∀ p ∈ pairs h xs, l.next p.1 = some p.2
  prev : ∀ p ∈ pairs h xs, l.prev p.2 = some p.1

variable {l : Links ν} {h : ν} {xs ys : List ν} {a b n x : ν}

/-- A circle cut open between two neighbours `a` and `b`. -/
structure Cut (h : ν) (xs ys : List ν) (as bs : List ν) (a b : ν) : Prop where
  left : h :: xs = as ++ [a]
  right : ys ++ [h] = b :: bs

theorem exists_cut (h : ν) (xs ys : List ν) : ∃ as bs a b, Cut h xs ys as bs a b := by
  have hright : ∃ b bs, ys ++ [h] = b :: bs := by
    cases ys with
    | nil => exact ⟨h, [], rfl⟩
    | cons y ys => exact ⟨y, ys ++ [h], rfl⟩
  obtain ⟨b, bs, hb⟩ := hright
  exact ⟨(h :: xs).dropLast, bs, (h :: xs).getLast (List.cons_ne_nil h xs), b,
    (List.dropLast_append_getLast _).symm, hb⟩

namespace Cut

variable {as bs : List ν} (c : Cut h xs ys as bs a b)

include c

theorem length_left : as.length = xs.length := by
  have := congrArg List.length c.left
  simpa using this.symm

/-- The pairs of the circle: those on the left of the cut, the cut, those on the right. -/
theorem pairs_eq : pairs h (xs ++ ys) = as.zip xs ++ (a, b) :: ys.zip bs := by
  unfold pairs
  have hl : h :: (xs ++ ys) = as ++ (a :: ys) := by
    rw [← List.cons_append, c.left, List.append_assoc]
    rfl
  rw [hl, List.append_assoc, c.right, List.zip_append c.length_left, List.zip_cons_cons]

/-- The pairs of the circle with a node put into the cut. -/
theorem pairs_insert : pairs h (xs ++ n :: ys) = as.zip xs ++ (a, n) :: (n, b) :: ys.zip bs := by
  unfold pairs
  have hl : h :: (xs ++ n :: ys) = as ++ (a :: n :: ys) := by
    rw [← List.cons_append, c.left, List.append_assoc]
    rfl
  have hr : xs ++ n :: ys ++ [h] = xs ++ (n :: b :: bs) := by
    rw [List.append_assoc, List.cons_append, c.right]
  rw [hl, hr, List.zip_append c.length_left, List.zip_cons_cons, List.zip_cons_cons]

theorem left_eq {cs : List ν} (hcs : h :: xs = cs ++ [x]) : a = x := by
  have happ := c.left.symm.trans hcs
  exact List.head_eq_of_cons_eq (List.append_inj' happ rfl).2

theorem left_mem : a ∈ h :: xs := c.left ▸ List.mem_append_right as (List.mem_singleton_self a)

theorem right_mem : b ∈ h :: ys := by
  have hb : b ∈ ys ++ [h] := c.right ▸ List.mem_cons_self
  simpa [or_comm] using hb

/-- The nodes of the circle that have a node after them, in the order from the head. -/
theorem nodup_left (hnd : (h :: (xs ++ ys)).Nodup) : (as ++ a :: ys).Nodup := by
  have heq : as ++ a :: ys = h :: (xs ++ ys) := by
    rw [← List.cons_append, c.left, List.append_assoc]
    rfl
  exact heq ▸ hnd

/-- The nodes of the circle that have a node before them, the head last. -/
theorem nodup_right (hnd : (h :: (xs ++ ys)).Nodup) : (xs ++ b :: bs).Nodup := by
  rw [← c.right, ← List.append_assoc]
  exact (List.perm_append_singleton h (xs ++ ys)).nodup_iff.mpr hnd

/-- The neighbours at the cut are no neighbours of that kind elsewhere. -/
theorem apart (hnd : (h :: (xs ++ ys)).Nodup) :
    (∀ p ∈ as.zip xs, p.1 ≠ a ∧ p.2 ≠ b) ∧ ∀ p ∈ ys.zip bs, p.1 ≠ a ∧ p.2 ≠ b := by
  have ha := List.nodup_middle.mp (c.nodup_left hnd)
  have hb := List.nodup_middle.mp (c.nodup_right hnd)
  rw [List.nodup_cons, List.mem_append, not_or] at ha hb
  constructor
  · intro p hp
    obtain ⟨h1, h2⟩ := List.of_mem_zip hp
    exact ⟨fun e => ha.1.1 (e ▸ h1), fun e => hb.1.1 (e ▸ h2)⟩
  · intro p hp
    obtain ⟨h1, h2⟩ := List.of_mem_zip hp
    exact ⟨fun e => ha.1.2 (e ▸ h1), fun e => hb.1.2 (e ▸ h2)⟩

/-- The nodes beside the cut are nodes of the circle. -/
theorem mem_of_mem (q : ν) (hq : q ∈ as ∨ q ∈ xs ∨ q ∈ ys ∨ q ∈ bs) : q ∈ h :: (xs ++ ys) := by
  have hleft : q ∈ as → q ∈ h :: xs := fun hm => c.left ▸ List.mem_append_left [a] hm
  have hright : q ∈ bs → q ∈ ys ++ [h] := fun hm => c.right ▸ List.mem_cons_of_mem b hm
  simp only [List.mem_cons, List.mem_append, List.not_mem_nil, or_false] at hleft hright ⊢
  tauto

/-- The pairs away from the cut are of nodes of the circle. -/
theorem mem_of_mem_zip {p : ν × ν} (hp : p ∈ as.zip xs ∨ p ∈ ys.zip bs) :
    p.1 ∈ h :: (xs ++ ys) ∧ p.2 ∈ h :: (xs ++ ys) := by
  have hsub := c.mem_of_mem
  rcases hp with hp | hp
  · obtain ⟨h1, h2⟩ := List.of_mem_zip hp
    exact ⟨hsub _ (Or.inl h1), hsub _ (Or.inr (Or.inl h2))⟩
  · obtain ⟨h1, h2⟩ := List.of_mem_zip hp
    exact ⟨hsub _ (Or.inr (Or.inr (Or.inl h1))), hsub _ (Or.inr (Or.inr (Or.inr h2)))⟩

/-- The neighbours at the cut are nodes of the circle. -/
theorem mem_left : a ∈ h :: (xs ++ ys) := by
  have ha := c.left_mem
  simp only [List.mem_cons, List.mem_append] at ha ⊢
  tauto

theorem mem_right : b ∈ h :: (xs ++ ys) := by
  have hb := c.right_mem
  simp only [List.mem_cons, List.mem_append] at hb ⊢
  tauto

/-- When only the node before the cut gets another one behind it, and only the one behind the cut
another one before it, the pairs away from the cut keep their pointers. -/
theorem keep {l' : Links ν} {p : ν × ν} (hnd : (h :: (xs ++ ys)).Nodup)
    (hnext : ∀ y ∈ h :: (xs ++ ys), y ≠ a → l'.next y = l.next y)
    (hprev : ∀ y ∈ h :: (xs ++ ys), y ≠ b → l'.prev y = l.prev y)
    (hp : p ∈ as.zip xs ∨ p ∈ ys.zip bs) (hadj : l.next p.1 = some p.2 ∧ l.prev p.2 = some p.1) :
    l'.next p.1 = some p.2 ∧ l'.prev p.2 = some p.1 := by
  obtain ⟨hl, hrt⟩ := c.apart hnd
  have hmem := c.mem_of_mem_zip hp
  have hpab : p.1 ≠ a ∧ p.2 ≠ b := hp.elim (hl p) (hrt p)
  rw [hnext p.1 hmem.1 hpab.1, hprev p.2 hmem.2 hpab.2]
  exact hadj

end Cut

/-! ### Neighbours -/

/-- Only the pointers of the nodes of a circle matter to it. -/
theorem Ring.congr {l' : Links ν} (hr : Ring l h xs) (hnext : ∀ y ∈ h :: xs, l'.next y = l.next y)
    (hprev : ∀ y ∈ h :: xs, l'.prev y = l.prev y) : Ring l' h xs where
  nodup := hr.nodup
  next p hp := by
    rw [hnext p.1 (List.of_mem_zip hp).1]
    exact hr.next p hp
  prev p hp := by
    have hmem : p.2 ∈ h :: xs := by
      have := (List.of_mem_zip hp).2
      simpa [or_comm] using this
    rw [hprev p.2 hmem]
    exact hr.prev p hp

/-- The neighbours of the nodes at a cut. -/
theorem Ring.cut {as bs : List ν} (hr : Ring l h (xs ++ ys)) (c : Cut h xs ys as bs a b) :
    l.next a = some b ∧ l.prev b = some a := by
  have hmem : (a, b) ∈ pairs h (xs ++ ys) := by
    rw [c.pairs_eq]
    exact List.mem_append_right _ List.mem_cons_self
  exact ⟨hr.next _ hmem, hr.prev _ hmem⟩

/-- The neighbours of a node of the circle. -/
theorem Ring.mem {as bs : List ν} (hr : Ring l h (xs ++ x :: ys)) (c : Cut h xs ys as bs a b) :
    l.prev x = some a ∧ l.next x = some b := by
  have h₁ : (a, x) ∈ pairs h (xs ++ x :: ys) := by
    rw [c.pairs_insert]
    exact List.mem_append_right _ List.mem_cons_self
  have h₂ : (x, b) ∈ pairs h (xs ++ x :: ys) := by
    rw [c.pairs_insert]
    exact List.mem_append_right _ (List.mem_cons_of_mem _ List.mem_cons_self)
  exact ⟨hr.prev _ h₁, hr.next _ h₂⟩

theorem Ring.next_head (hr : Ring l h xs) : l.next h = (xs ++ [h]).head? := by
  obtain ⟨as, bs, a, b, c⟩ := exists_cut h [] xs
  have hr' : Ring l h ([] ++ xs) := hr
  have hab := hr'.cut c
  obtain rfl : a = h := by
    have := c.left_mem
    simpa using this
  rw [hab.1, c.right]
  rfl

theorem Ring.prev_head (hr : Ring l h xs) : l.prev h = (h :: xs).getLast? := by
  obtain ⟨as, bs, a, b, c⟩ := exists_cut h xs []
  have hr' : Ring l h (xs ++ []) := by rwa [List.append_nil]
  have hab := hr'.cut c
  obtain rfl : b = h := by
    have := c.right_mem
    simpa using this
  rw [hab.2, c.left, List.getLast?_concat]

theorem Ring.next_mem (hr : Ring l h (xs ++ x :: ys)) : l.next x = (ys ++ [h]).head? := by
  obtain ⟨as, bs, a, b, c⟩ := exists_cut h xs ys
  rw [(hr.mem c).2, c.right]
  rfl

/-- Every node of a circle has a node after it, and none is its own neighbour but the head
of an empty list. -/
theorem Ring.next_ne (hr : Ring l h xs) (hx : x ∈ xs) : l.next x ≠ none ∧ l.next x ≠ some x := by
  obtain ⟨as, bs, rfl⟩ := List.append_of_mem hx
  rw [hr.next_mem]
  cases bs with
  | nil =>
    refine ⟨by simp, ?_⟩
    intro e
    obtain rfl : h = x := by simpa using e
    have := hr.nodup
    simp at this
  | cons y bs =>
    refine ⟨by simp, ?_⟩
    intro e
    obtain rfl : y = x := by simpa using e
    have := (List.nodup_cons.mp hr.nodup).2
    rw [List.nodup_append] at this
    simp at this

/-- A node of the circle taken to the front. -/
theorem perm_front (h x : ν) (xs ys : List ν) :
    (h :: (xs ++ x :: ys)).Perm (x :: h :: (xs ++ ys)) :=
  (List.perm_middle.cons h).trans (List.Perm.swap x h _)

theorem Ring.not_mem (hr : Ring l h (xs ++ x :: ys)) : x ∉ h :: (xs ++ ys) :=
  (List.nodup_cons.mp ((perm_front h x xs ys).nodup_iff.mp hr.nodup)).1

/-- Every node of a circle has a node after it, which has it before itself. -/
theorem Ring.prev_next (hr : Ring l h xs) (hx : x ∈ h :: xs) :
    ∃ y, l.next x = some y ∧ l.prev y = some x := by
  have hsplit : ∃ as bs, xs = as ++ bs ∧ ∃ cs, h :: as = cs ++ [x] := by
    rcases List.mem_cons.mp hx with rfl | hx
    · exact ⟨[], xs, rfl, [], rfl⟩
    · obtain ⟨as, bs, rfl⟩ := List.append_of_mem hx
      exact ⟨as ++ [x], bs, by simp, h :: as, rfl⟩
  obtain ⟨as, bs, rfl, cs, hcs⟩ := hsplit
  obtain ⟨as', bs', a, b, c⟩ := exists_cut h as bs
  obtain ⟨hnext, hprev⟩ := hr.cut c
  obtain rfl := c.left_eq hcs
  exact ⟨b, hnext, hprev⟩

/-- No two nodes of a circle have the same node after them. -/
theorem Ring.next_inj {y : ν} (hr : Ring l h xs) (hx : x ∈ h :: xs) (hy : y ∈ h :: xs)
    (heq : l.next x = l.next y) : x = y := by
  obtain ⟨a, hxa, hax⟩ := hr.prev_next hx
  obtain ⟨b, hyb, hby⟩ := hr.prev_next hy
  obtain rfl : a = b := Option.some.inj (hxa.symm.trans (heq.trans hyb))
  exact Option.some.inj (hax.symm.trans hby)

/-- Every node of a circle has a node of it before itself. -/
theorem Ring.exists_next_eq (hr : Ring l h xs) (hx : x ∈ h :: xs) :
    ∃ a ∈ h :: xs, l.next a = some x ∧ l.prev x = some a := by
  have hpair : ∃ a, (a, x) ∈ pairs h xs := by
    rcases List.mem_cons.mp hx with rfl | hx
    · obtain ⟨as, bs, a, b, c⟩ := exists_cut x xs []
      obtain rfl : b = x := by simpa using c.right_mem
      have hmem := c.pairs_eq ▸ List.mem_append_right (as.zip xs) (List.mem_cons_self (a := (a, b)))
      exact ⟨a, by simpa using hmem⟩
    · obtain ⟨as, bs, rfl⟩ := List.append_of_mem hx
      obtain ⟨as', bs', a, b, c⟩ := exists_cut h as bs
      exact ⟨a, c.pairs_insert ▸ List.mem_append_right _ List.mem_cons_self⟩
  obtain ⟨a, ha⟩ := hpair
  exact ⟨a, (List.of_mem_zip ha).1, hr.next _ ha, hr.prev _ ha⟩

/-- The pointers determine the circle. -/
theorem Ring.unique (hx : Ring l h xs) (hy : Ring l h ys) : xs = ys := by
  -- behind a common beginning the two go on with the same node
  suffices hsuff : ∀ as, Ring l h (as ++ xs) → Ring l h (as ++ ys) → xs = ys from hsuff [] hx hy
  clear hx hy
  induction xs generalizing ys with
  | nil =>
    intro as hx hy
    cases ys with
    | nil => rfl
    | cons y ys =>
      obtain ⟨as', bs, a, b, c⟩ := exists_cut h as []
      obtain ⟨as'', bs', a', b', c'⟩ := exists_cut h as (y :: ys)
      obtain rfl := c.left_eq c'.left
      obtain rfl : b = b' := Option.some.inj ((hx.cut c).1.symm.trans (hy.cut c').1)
      obtain rfl : b = h := by simpa using c.right_mem
      obtain rfl : y = b := List.head_eq_of_cons_eq c'.right
      exact absurd (hy.nodup) (by simp)
  | cons x xs ih =>
    intro as hx hy
    obtain ⟨as', bs, a, b, c⟩ := exists_cut h as (x :: xs)
    obtain ⟨as'', bs', a', b', c'⟩ := exists_cut h as ys
    obtain rfl := c.left_eq c'.left
    obtain rfl : b = b' := Option.some.inj ((hx.cut c).1.symm.trans (hy.cut c').1)
    obtain rfl : x = b := List.head_eq_of_cons_eq c.right
    cases ys with
    | nil =>
      obtain rfl : x = h := by simpa using c'.right_mem
      exact absurd (hx.nodup) (by simp)
    | cons y ys =>
      obtain rfl : y = x := List.head_eq_of_cons_eq c'.right
      exact congrArg (y :: ·) (ih (as ++ [y]) (by simpa using hx) (by simpa using hy))

/-- The pointers of the nodes outside the circle, apart from `n`, are the same. -/
def Frame (l l' : Links ν) (n : ν) (zs : List ν) : Prop :=
  ∀ y, y ≠ n → y ∉ zs → l'.next y = l.next y ∧ l'.prev y = l.prev y

/-! ### Adding a node -/

variable [DecidableEq ν]

/-- Putting a node into a cut. -/
theorem Ring.insert {as bs : List ν} (hr : Ring l h (xs ++ ys)) (c : Cut h xs ys as bs a b)
    (hn : n ∉ h :: (xs ++ ys)) : Ring (l.insert n a b) h (xs ++ n :: ys) := by
  have hna : a ≠ n := fun e => hn (e ▸ c.mem_left)
  have hnb : b ≠ n := fun e => hn (e ▸ c.mem_right)
  -- a pair away from the cut keeps its pointers
  have haway : ∀ p, p ∈ as.zip xs ∨ p ∈ ys.zip bs →
      (l.insert n a b).next p.1 = some p.2 ∧ (l.insert n a b).prev p.2 = some p.1 := by
    intro p hp
    have hpair : p ∈ pairs h (xs ++ ys) := by
      rw [c.pairs_eq, List.mem_append, List.mem_cons]
      tauto
    refine c.keep hr.nodup (fun y hy hya => ?_) (fun y hy hyb => ?_) hp
      ⟨hr.next p hpair, hr.prev p hpair⟩
    · have hyn : y ≠ n := fun e => hn (e ▸ hy)
      simp [Links.insert, setNext, setPrev, Function.update_of_ne hya, Function.update_of_ne hyn]
    · have hyn : y ≠ n := fun e => hn (e ▸ hy)
      simp [Links.insert, setNext, setPrev, Function.update_of_ne hyb, Function.update_of_ne hyn]
  have hnew : ∀ p ∈ pairs h (xs ++ n :: ys),
      (l.insert n a b).next p.1 = some p.2 ∧ (l.insert n a b).prev p.2 = some p.1 := by
    intro p hp
    rw [c.pairs_insert, List.mem_append, List.mem_cons, List.mem_cons] at hp
    rcases hp with hp | rfl | rfl | hp
    · exact haway p (Or.inl hp)
    · simp [Links.insert, setNext, setPrev]
    · simp [Links.insert, setNext, setPrev, Function.update_of_ne hnb,
        Function.update_of_ne hna.symm]
    · exact haway p (Or.inr hp)
  refine ⟨?_, fun p hp => (hnew p hp).1, fun p hp => (hnew p hp).2⟩
  exact (perm_front h n xs ys).nodup_iff.mpr (List.nodup_cons.mpr ⟨hn, hr.nodup⟩)

/-- The nodes that are not at the cut keep their pointers. -/
theorem insert_frame {y : ν} (hy : y ≠ n) (hya : y ≠ a) (hyb : y ≠ b) :
    (l.insert n a b).next y = l.next y ∧ (l.insert n a b).prev y = l.prev y := by
  constructor
  · simp [Links.insert, setNext, setPrev, Function.update_of_ne hya, Function.update_of_ne hy]
  · simp [Links.insert, setNext, setPrev, Function.update_of_ne hyb, Function.update_of_ne hy]

theorem Cut.frame_insert {as bs : List ν} (c : Cut h xs ys as bs a b) :
    Frame l (l.insert n a b) n (h :: (xs ++ ys)) := by
  intro y hyn hy
  apply insert_frame hyn
  · exact fun e => hy (e ▸ c.mem_left)
  · exact fun e => hy (e ▸ c.mem_right)

/-- `list_add` after a node of the circle. -/
theorem Ring.listAdd_mem (hr : Ring l h (xs ++ x :: ys)) (hn : n ∉ h :: (xs ++ x :: ys)) :
    ∃ l', l.listAdd n x = some l' ∧ Ring l' h (xs ++ x :: n :: ys) ∧
      Frame l l' n (h :: (xs ++ x :: ys)) := by
  have happ : xs ++ x :: ys = (xs ++ [x]) ++ ys := by simp
  obtain ⟨as, bs, a, b, c⟩ := exists_cut h (xs ++ [x]) ys
  obtain rfl : a = x := c.left_eq (show h :: (xs ++ [x]) = (h :: xs) ++ [x] from rfl)
  rw [happ] at hr hn ⊢
  refine ⟨l.insert n a b, ?_, ?_, c.frame_insert⟩
  · rw [listAdd, (hr.cut c).1]
    rfl
  · have := hr.insert c hn
    simpa using this

/-- `list_add` after the head. -/
theorem Ring.listAdd_head (hr : Ring l h xs) (hn : n ∉ h :: xs) :
    ∃ l', l.listAdd n h = some l' ∧ Ring l' h (n :: xs) ∧ Frame l l' n (h :: xs) := by
  obtain ⟨as, bs, a, b, c⟩ := exists_cut h [] xs
  obtain rfl : a = h := by
    have := c.left_mem
    simpa using this
  have hr' : Ring l a ([] ++ xs) := hr
  refine ⟨l.insert n a b, ?_, hr'.insert c hn, c.frame_insert⟩
  rw [listAdd, (hr'.cut c).1]
  rfl

/-- `list_add_tail` before the head. -/
theorem Ring.listAddTail (hr : Ring l h xs) (hn : n ∉ h :: xs) :
    ∃ l', l.listAddTail n h = some l' ∧ Ring l' h (xs ++ [n]) ∧ Frame l l' n (h :: xs) := by
  obtain ⟨as, bs, a, b, c⟩ := exists_cut h xs []
  obtain rfl : b = h := by
    have := c.right_mem
    simpa using this
  have hr' : Ring l b (xs ++ []) := by simpa using hr
  have hn' : n ∉ b :: (xs ++ []) := by simpa using hn
  refine ⟨l.insert n a b, ?_, hr'.insert c hn', by simpa using c.frame_insert (l := l) (n := n)⟩
  rw [Links.listAddTail, (hr'.cut c).2]
  rfl

/-- `list_empty` of the head of a circle. -/
theorem Ring.listEmpty_iff (hr : Ring l h xs) : l.listEmpty h = true ↔ xs = [] := by
  rw [listEmpty, decide_eq_true_iff, hr.next_head]
  cases xs with
  | nil => simp
  | cons x xs =>
    have hxh : x ≠ h := fun e => (List.nodup_cons.mp hr.nodup).1 (by simp [e])
    simp [hxh]

/-- Adding a node that is in the circle already leaves no circle of the same nodes. -/
theorem Ring.not_ring_insert (hr : Ring l h xs) (hn : n ∈ xs) (ha : a ∈ h :: xs)
    (hab : l.next a = some b) (hmem : ∀ y ∈ xs, y ∈ ys) : ¬ Ring (l.insert n a b) h ys := by
  intro hr'
  have hsub : ∀ y ∈ h :: xs, y ∈ h :: ys := by
    intro y hy
    rw [List.mem_cons] at hy ⊢
    exact hy.imp id (hmem y)
  have hnext_a : (l.insert n a b).next a = some n := by simp [Links.insert, setNext, setPrev]
  have hself : (l.insert n a b).next n ≠ some n := (hr'.next_ne (hmem n hn)).2
  have hna : n ≠ a := by
    rintro rfl
    exact hself hnext_a
  have hnext_n : (l.insert n a b).next n = some b := by
    simp [Links.insert, setNext, setPrev, Function.update_of_ne hna]
  -- the node before `n` still leads to it, and so does `a`
  obtain ⟨c, hc, hcn, -⟩ := hr.exists_next_eq (List.mem_cons_of_mem h hn)
  have hcne : c ≠ n := by
    rintro rfl
    exact (hr.next_ne hn).2 hcn
  have hca : c ≠ a := by
    rintro rfl
    obtain rfl : n = b := Option.some.inj (hcn.symm.trans hab)
    exact hself hnext_n
  have hnext_c : (l.insert n a b).next c = some n := by
    simp [Links.insert, setNext, setPrev, Function.update_of_ne hca, Function.update_of_ne hcne, hcn]
  exact hca (hr'.next_inj (hsub c hc) (hsub a ha) (hnext_c.trans hnext_a.symm))

/-! ### Removing a node -/

/-- Closing the circle over a node. -/
theorem Ring.unlink {as bs : List ν} (hr : Ring l h (xs ++ x :: ys))
    (c : Cut h xs ys as bs a b) : Ring (l.unlink a b) h (xs ++ ys) := by
  have hnd := (List.nodup_cons.mp ((perm_front h x xs ys).nodup_iff.mp hr.nodup)).2
  -- the pairs beside the cut do not change
  have haway : ∀ p, p ∈ as.zip xs ∨ p ∈ ys.zip bs →
      (l.unlink a b).next p.1 = some p.2 ∧ (l.unlink a b).prev p.2 = some p.1 := by
    intro p hp
    have hpair : p ∈ pairs h (xs ++ x :: ys) := by
      rw [c.pairs_insert, List.mem_append, List.mem_cons, List.mem_cons]
      tauto
    refine c.keep hnd (fun y _ hya => ?_) (fun y _ hyb => ?_) hp
      ⟨hr.next p hpair, hr.prev p hpair⟩
    · simp [Links.unlink, setNext, setPrev, Function.update_of_ne hya]
    · simp [Links.unlink, setNext, setPrev, Function.update_of_ne hyb]
  have hnew : ∀ p ∈ pairs h (xs ++ ys),
      (l.unlink a b).next p.1 = some p.2 ∧ (l.unlink a b).prev p.2 = some p.1 := by
    intro p hp
    rw [c.pairs_eq, List.mem_append, List.mem_cons] at hp
    rcases hp with hp | rfl | hp
    · exact haway p (Or.inl hp)
    · simp [Links.unlink, setNext, setPrev]
    · exact haway p (Or.inr hp)
  exact ⟨hnd, fun p hp => (hnew p hp).1, fun p hp => (hnew p hp).2⟩

theorem Cut.frame_unlink {as bs : List ν} (c : Cut h xs ys as bs a b) :
    Frame l (l.unlink a b) x (h :: (xs ++ x :: ys)) := by
  intro y hyn hy
  have ha := c.left_mem
  have hb := c.right_mem
  simp only [List.mem_cons, List.mem_append] at ha hb hy
  have hya : y ≠ a := by
    rintro rfl
    tauto
  have hyb : y ≠ b := by
    rintro rfl
    tauto
  constructor
  · simp [Links.unlink, setNext, setPrev, Function.update_of_ne hya]
  · simp [Links.unlink, setNext, setPrev, Function.update_of_ne hyb]

/-- `list_del` of a node of the circle. -/
theorem Ring.listDel (hr : Ring l h (xs ++ x :: ys)) :
    ∃ l', l.listDel x = some l' ∧ Ring l' h (xs ++ ys) ∧ l'.next x = none ∧ l'.prev x = none ∧
      Frame l l' x (h :: (xs ++ x :: ys)) := by
  obtain ⟨as, bs, a, b, c⟩ := exists_cut h xs ys
  obtain ⟨hprev, hnext⟩ := hr.mem c
  have hx := hr.not_mem
  have hnode : ∀ y, y ≠ x →
      (((l.unlink a b).setNext x none).setPrev x none).next y = (l.unlink a b).next y ∧
      (((l.unlink a b).setNext x none).setPrev x none).prev y = (l.unlink a b).prev y := by
    intro y hy
    simp [setNext, setPrev, Function.update_of_ne hy]
  refine ⟨((l.unlink a b).setNext x none).setPrev x none, ?_, ?_, ?_, ?_, ?_⟩
  · rw [Links.listDel, hprev, hnext]
  · refine (hr.unlink c).congr (fun y hy => ?_) (fun y hy => ?_)
    · exact (hnode y fun e => hx (e ▸ hy)).1
    · exact (hnode y fun e => hx (e ▸ hy)).2
  · simp [setNext, setPrev]
  · simp [setPrev]
  · intro y hyx hy
    obtain ⟨h₁, h₂⟩ := hnode y hyx
    rw [h₁, h₂]
    exact c.frame_unlink y hyx hy

/-- `list_del_init` of a node of the circle. -/
theorem Ring.listDelInit (hr : Ring l h (xs ++ x :: ys)) :
    ∃ l', l.listDelInit x = some l' ∧ Ring l' h (xs ++ ys) ∧ l'.next x = some x ∧
      l'.prev x = some x ∧ Frame l l' x (h :: (xs ++ x :: ys)) := by
  obtain ⟨as, bs, a, b, c⟩ := exists_cut h xs ys
  obtain ⟨hprev, hnext⟩ := hr.mem c
  have hx := hr.not_mem
  have hnode : ∀ y, y ≠ x →
      ((l.unlink a b).initListHead x).next y = (l.unlink a b).next y ∧
      ((l.unlink a b).initListHead x).prev y = (l.unlink a b).prev y := by
    intro y hy
    simp [initListHead, setNext, setPrev, Function.update_of_ne hy]
  refine ⟨(l.unlink a b).initListHead x, ?_, ?_, ?_, ?_, ?_⟩
  · rw [Links.listDelInit, hprev, hnext]
  · refine (hr.unlink c).congr (fun y hy => ?_) (fun y hy => ?_)
    · exact (hnode y fun e => hx (e ▸ hy)).1
    · exact (hnode y fun e => hx (e ▸ hy)).2
  · simp [initListHead, setNext, setPrev]
  · simp [initListHead, setNext, setPrev]
  · intro y hyx hy
    obtain ⟨h₁, h₂⟩ := hnode y hyx
    rw [h₁, h₂]
    exact c.frame_unlink y hyx hy

end Links
