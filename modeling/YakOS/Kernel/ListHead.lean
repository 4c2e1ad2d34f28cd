import Mathlib.Data.List.Rotate
import YakOS.Lib.Circles
import YakOS.Lib.Run

/-!
# The operations on lists

`include/kernel/list.h`: every queue of the kernel is a circle of `list_head` nodes, and all
of them change by a few pointer writes each.  Over the lists that the circles denote the
operations are those one expects.

## Main definitions

* `listMove`, `listReplace`, `listRotateLeft`, `listCutPosition`, `listSpliceInit` and their
  companions — the operations on the pointers; `none` stands for a step through a null pointer.
* `ListOp` — a call of one of them, with `ListOp.run` on the pointers and `ListOp.apply` on the
  lists.
* `ListOp.Pre` — new nodes are free, and old ones linked.

## Main results

* `listOp_refines` — every call does to the pointers what it says of the lists.
* `listOps_refine` — so does every sequence of calls.
-/

namespace Links

variable {ν : Type*} [DecidableEq ν] (l : Links ν)

/-- `__list_del_entry`. -/
def listDelEntry (entry : ν) : Option (Links ν) := do
  let prev ← l.prev entry
  let next ← l.next entry
  some (l.unlink prev next)

/-- `list_move`. -/
def listMove (list head : ν) : Option (Links ν) := do
  let l ← l.listDelEntry list
  l.listAdd list head

/-- `list_move_tail`. -/
def listMoveTail (list head : ν) : Option (Links ν) := do
  let l ← l.listDelEntry list
  l.listAddTail list head

/-- `list_replace`. -/
def listReplace (old new : ν) : Option (Links ν) := do
  let next ← l.next old
  let l := (l.setNext new (some next)).setPrev next (some new)
  -- `old->prev` is read after the write to `new->next->prev`
  let prev ← l.prev old
  some ((l.setPrev new (some prev)).setNext prev (some new))

/-- `list_replace_init`. -/
def listReplaceInit (old new : ν) : Option (Links ν) := do
  let l ← l.listReplace old new
  some (l.initListHead old)

/-- `list_rotate_left`. -/
def listRotateLeft (head : ν) : Option (Links ν) :=
  if l.listEmpty head then some l
  else do
    let first ← l.next head
    l.listMoveTail first head

/-- `list_is_singular`. -/
def listIsSingular (head : ν) : Bool := !l.listEmpty head && l.next head = l.prev head

/-- `__list_cut_position`. -/
def cutPosition (list head entry : ν) : Option (Links ν) := do
  let newFirst ← l.next entry
  let first ← l.next head
  some (l.cutOff list head first entry newFirst)

/-- `list_cut_position`. -/
def listCutPosition (list head entry : ν) : Option (Links ν) :=
  if l.listEmpty head then some l
  else if l.listIsSingular head && (l.next head ≠ some entry && head ≠ entry) then some l
  else if entry = head then some (l.initListHead list)
  else l.cutPosition list head entry

/-- `__list_splice`. -/
def spliceBetween (list prev next : ν) : Option (Links ν) := do
  let first ← l.next list
  let last ← l.prev list
  some (l.splice first last prev next)

/-- `list_splice_init`. -/
def listSpliceInit (list head : ν) : Option (Links ν) :=
  if l.listEmpty list then some l
  else do
    let next ← l.next head
    let l ← l.spliceBetween list head next
    some (l.initListHead list)

/-- `list_splice_tail_init`. -/
def listSpliceTailInit (list head : ν) : Option (Links ν) :=
  if l.listEmpty list then some l
  else do
    let prev ← l.prev head
    let l ← l.spliceBetween list prev head
    some (l.initListHead list)

end Links

namespace YakOS

open Links

variable {ν : Type*}

/-- A call of an operation. -/
inductive ListOp (ν : Type*) where
  | initListHead (list : ν)
  | listAdd (new head : ν)
  | listAddTail (new head : ν)
  | listDel (entry : ν)
  | listDelInit (entry : ν)
  | listMove (list head : ν)
  | listMoveTail (list head : ν)
  | listReplaceInit (old new : ν)
  | listRotateLeft (head : ν)
  | listCutPosition (list head entry : ν)
  | listSpliceInit (list head : ν)
  | listSpliceTailInit (list head : ν)

namespace ListOp

/-- The nodes that the call names. -/
def nodes : ListOp ν → List ν
  | initListHead list => [list]
  | listAdd new head | listAddTail new head => [new, head]
  | listDel entry | listDelInit entry => [entry]
  | listMove list head | listMoveTail list head => [list, head]
  | listReplaceInit old new => [new, old]
  | listRotateLeft head => [head]
  | listCutPosition list head entry => [list, head, entry]
  | listSpliceInit list head | listSpliceTailInit list head => [list, head]

/-- New nodes are free, old ones are linked, and heads are heads. -/
def Pre (L : HeadLists ν) : ListOp ν → Prop
  | initListHead list => Free L list
  | listAdd new head | listAddTail new head => Free L new ∧ new ≠ head ∧ (L head).isSome
  | listDel entry | listDelInit entry => Linked L entry
  | listMove list head | listMoveTail list head => Linked L list ∧ list ≠ head ∧ (L head).isSome
  | listReplaceInit old new => OnCircle L old ∧ Free L new ∧ new ≠ old
  | listRotateLeft head => (L head).isSome
  | listCutPosition list head entry =>
    L list = some [] ∧ (L head).isSome ∧ entry ∈ head :: contents L head
  | listSpliceInit list head | listSpliceTailInit list head =>
    (L list).isSome ∧ (L head).isSome ∧ list ≠ head

variable [DecidableEq ν]

/-- The call on the pointers. -/
def run (l : Links ν) : ListOp ν → Option (Links ν)
  | initListHead list => some (l.initListHead list)
  | listAdd new head => l.listAdd new head
  | listAddTail new head => l.listAddTail new head
  | listDel entry => l.listDel entry
  | listDelInit entry => l.listDelInit entry
  | listMove list head => l.listMove list head
  | listMoveTail list head => l.listMoveTail list head
  | listReplaceInit old new => l.listReplaceInit old new
  | listRotateLeft head => l.listRotateLeft head
  | listCutPosition list head entry => l.listCutPosition list head entry
  | listSpliceInit list head => l.listSpliceInit list head
  | listSpliceTailInit list head => l.listSpliceTailInit list head

end ListOp

/-! ### What the operations do to the lists -/

section Abstract

variable [DecidableEq ν] (L : HeadLists ν)

/-- `new` takes the place of `old`, be that a place on a list or that of a head. -/
def substitute (old new : ν) : HeadLists ν := fun h =>
  if h = old then some []
  else if h = new then L old
  else (L h).map fun xs => xs.map fun y => if y = old then new else y

/-- How many nodes come before the cut behind `entry`. -/
def cutLength (head entry : ν) : ℕ :=
  if entry = head then 0 else (contents L head).idxOf entry + 1

/-- The list of `head` cut behind `entry`, its first part for `list`. -/
def cutBehind (list head entry : ν) : HeadLists ν :=
  let xs := contents L head
  let k := cutLength L head entry
  Function.update (Function.update L list (some (xs.take k))) head (some (xs.drop k))

/-- `head` gets a new list, and that of `list` becomes empty. -/
def moveAll (list head : ν) (xs : List ν) : HeadLists ν :=
  Function.update (Function.update L list (some [])) head (some xs)

/-- The call on the lists. -/
def ListOp.apply : ListOp ν → HeadLists ν
  | initListHead list => Function.update L list (some [])
  | listAdd new head => pushFront L new head
  | listAddTail new head => pushBack L new head
  | listDel entry => remove L entry
  | listDelInit entry => Function.update (remove L entry) entry (some [])
  | listMove list head => pushFront (remove L list) list head
  | listMoveTail list head => pushBack (remove L list) list head
  | listReplaceInit old new => substitute L old new
  | listRotateLeft head => Function.update L head (some ((contents L head).rotate 1))
  | listCutPosition list head entry => cutBehind L list head entry
  | listSpliceInit list head => moveAll L list head (contents L list ++ contents L head)
  | listSpliceTailInit list head => moveAll L list head (contents L head ++ contents L list)

end Abstract

/-! ### Each operation -/

section Refinement

variable [DecidableEq ν] {l : Links ν} {L : HeadLists ν} {h k n x y : ν} {xs ys zs : List ν}

/-- The call succeeds, leaves the circles of the lists it says, and writes no pointer of a node
that is neither named by it nor on a circle with one that is. -/
def ListOp.Realized (op : ListOp ν) (l : Links ν) (L : HeadLists ν) : Prop :=
  ∃ l', op.run l = some l' ∧ Circles l' (op.apply L) ∧ ∀ y, ¬ Near L op.nodes y → Same l l' y

theorem realized_listDelEntry (H : Circles l L) (hx : Linked L x) :
    ∃ l', l.listDelEntry x = some l' ∧ Circles l' (remove L x) ∧
      ∀ y, ¬ Near L [x] y → Same l l' y := by
  obtain ⟨p, q, hprev, hnext, hc, hframe⟩ := H.unlink hx
  refine ⟨l.unlink p q, ?_, hc, hframe⟩
  rw [listDelEntry, hprev, hnext]
  rfl

theorem realized_listDel (H : Circles l L) (hx : Linked L x) :
    (ListOp.listDel x).Realized l L := by
  obtain ⟨p, q, hprev, hnext, hc, hframe⟩ := H.unlink hx
  have hsame : ∀ y, y ≠ x →
      Same (l.unlink p q) (((l.unlink p q).setNext x none).setPrev x none) y := by
    intro y hy
    simp [Same, setNext, setPrev, Function.update_of_ne hy]
  refine ⟨((l.unlink p q).setNext x none).setPrev x none, ?_, ?_, fun y hy => ?_⟩
  · rw [ListOp.run, listDel, hprev, hnext]
  · exact hc.congr fun y hy => hsame y fun e => H.not_onCircle_remove (e ▸ hy)
  · have hyx : y ≠ x := fun e => hy (near_of_mem (e ▸ List.mem_singleton_self x))
    exact (hframe y hy).trans (hsame y hyx)

theorem realized_listDelInit (H : Circles l L) (hx : Linked L x) :
    (ListOp.listDelInit x).Realized l L := by
  obtain ⟨p, q, hprev, hnext, hc, hframe⟩ := H.unlink hx
  refine ⟨(l.unlink p q).initListHead x, ?_, ?_, fun y hy => ?_⟩
  · rw [ListOp.run, listDelInit, hprev, hnext]
  · exact hc.init (free_of_not_onCircle H.not_onCircle_remove)
  · have hyx : y ≠ x := fun e => hy (near_of_mem (e ▸ List.mem_singleton_self x))
    exact (hframe y hy).trans (same_initListHead hyx)

/-- Moving is removing and adding again. -/
theorem realized_listMove (H : Circles l L) (hx : Linked L x) (hne : x ≠ h) (hh : L h = some xs) :
    (ListOp.listMove x h).Realized l L ∧ (ListOp.listMoveTail x h).Realized l L := by
  obtain ⟨l₁, hdel, hc, hframe⟩ := realized_listDelEntry H hx
  have hfree : Free (remove L x) x := free_of_not_onCircle H.not_onCircle_remove
  have hh' : remove L x h = some (xs.erase x) := by simp [remove, hne.symm, hh]
  have hfirst : ∀ y, ¬ Near L [x, h] y → Same l l₁ y :=
    fun y hy => hframe y fun hm => hy (hm.mono (by simp))
  constructor
  · obtain ⟨l₂, hadd, hc₂, hframe₂⟩ := hc.listAdd hh' hfree hne
    refine ⟨l₂, ?_, hc₂, fun y hy =>
      (hfirst y hy).trans (hframe₂ y fun hm => hy (near_of_remove hm))⟩
    rw [ListOp.run, listMove, hdel]
    exact hadd
  · obtain ⟨l₂, hadd, hc₂, hframe₂⟩ := hc.listAddTail hh' hfree hne
    refine ⟨l₂, ?_, hc₂, fun y hy =>
      (hfirst y hy).trans (hframe₂ y fun hm => hy (near_of_remove hm))⟩
    rw [ListOp.run, listMoveTail, hdel]
    exact hadd

theorem realized_listRotateLeft (H : Circles l L) (hh : L h = some xs) :
    (ListOp.listRotateLeft h).Realized l L := by
  have hr := H.ring h xs hh
  cases xs with
  | nil =>
    refine ⟨l, ?_, ?_, fun y _ => ⟨rfl, rfl⟩⟩
    · rw [ListOp.run, listRotateLeft, if_pos (hr.listEmpty_iff.mpr rfl)]
    · rw [ListOp.apply, contents_eq hh, List.rotate_nil, ← hh, Function.update_eq_self]
      exact H
  | cons x xs =>
    have hxh : x ≠ h := fun e => (List.nodup_cons.mp hr.nodup).1 (by simp [e])
    have hfull : ¬ l.listEmpty h = true := by simp [hr.listEmpty_iff]
    obtain ⟨l', hrun, hc, hframe⟩ := (realized_listMove H (Or.inl ⟨h, _, hh, by simp⟩) hxh hh).2
    refine ⟨l', ?_, ?_, fun y hy => hframe y fun hm => hy ?_⟩
    · rw [ListOp.run, listRotateLeft, if_neg hfull, hr.next_head]
      exact hrun
    · have hmoved : pushBack (remove L x) x h = Function.update L h (some (xs ++ [x])) := by
        have hremove : remove L x = Function.update (Function.update L x none) h (some xs) :=
          H.remove_eq (show L h = some ([] ++ x :: xs) from hh)
        have hx : L x = none := H.eq_none_of_mem hh List.mem_cons_self
        have hcontents : contents (remove L x) h = xs :=
          contents_eq (by rw [hremove, Function.update_self])
        rw [pushBack, hcontents, hremove]
        funext g
        simp only [Function.update_apply]
        grind
      rw [ListOp.apply, contents_eq hh, List.rotate_cons_succ, List.rotate_zero, ← hmoved]
      exact hc
    · refine H.near_trans (fun z hz => ?_) hm
      refine near_of_head hh (List.mem_singleton_self h) ?_
      simp only [ListOp.nodes, List.mem_cons] at hz ⊢
      tauto

/-! #### Replacing a node -/

/-- A node in the place of another one on the list. -/
theorem listReplace_mem (hr : Ring l h (xs ++ x :: ys)) (hn : n ∉ h :: (xs ++ x :: ys)) :
    ∃ l', l.listReplace x n = some l' ∧ Ring l' h (xs ++ n :: ys) ∧
      Frame l l' n (h :: (xs ++ x :: ys)) := by
  obtain ⟨as, bs, a, b, c⟩ := exists_cut h xs ys
  obtain ⟨hprev, hnext⟩ := hr.mem c
  have hxb : x ≠ b := fun e => hr.not_mem (e ▸ c.mem_right)
  refine ⟨l.insert n a b, ?_, hr.replace c hn, ?_⟩
  · have hprev' : ((l.setNext n (some b)).setPrev b (some n)).prev x = some a := by
      rw [← hprev]
      simp [setNext, setPrev, Function.update_of_ne hxb]
    rw [listReplace, hnext]
    simp only [Option.bind_eq_bind, Option.bind_some, hprev']
    rfl
  · intro y hyn hy
    refine c.frame_insert y hyn fun hm => hy ?_
    simp only [List.mem_cons, List.mem_append] at hm ⊢
    tauto

/-- A node in the place of the head. -/
theorem listReplace_head (hr : Ring l h xs) (hn : n ∉ h :: xs) :
    ∃ l', l.listReplace h n = some l' ∧ Ring l' n xs ∧ Frame l l' n (h :: xs) := by
  cases xs with
  | nil =>
    have hnext : l.next h = some h := hr.next_head
    have hnh : n ≠ h := fun e => hn (by simp [e])
    -- the head is its own neighbour, and so is then the new one
    refine ⟨(((l.setNext n (some h)).setPrev h (some n)).setPrev n (some n)).setNext n (some n),
      ?_, ring_nil ?_ ?_, fun y hyn hy => ?_⟩
    · rw [listReplace, hnext]
      simp [setNext, setPrev]
    · simp [setNext, setPrev]
    · simp [setNext, setPrev]
    · have hyh : y ≠ h := fun e => hy (by simp [e])
      simp [setNext, setPrev, Function.update_of_ne hyn, Function.update_of_ne hyh]
  | cons x xs =>
    have hr' : Ring l h ([] ++ x :: xs) := hr
    have hn' : n ∉ x :: (xs ++ [h]) := by
      simp only [List.mem_cons, List.mem_append] at hn ⊢
      tauto
    obtain ⟨l', hrun, hring, hframe⟩ := listReplace_mem hr'.turn hn'
    refine ⟨l', hrun, hring.turn, fun y hyn hy => hframe y hyn fun hm => hy ?_⟩
    simp only [List.mem_cons, List.mem_append] at hm ⊢
    tauto

/-- When the replaced node is free, it becomes the head of an empty list. -/
theorem realized_replaceInit {l' : Links ν} {L' : HeadLists ν} (hrun : l.listReplace x n = some l')
    (hc : Circles l' L') (hfree : Free L' x)
    (hsub : Function.update L' x (some []) = substitute L x n)
    (hframe : ∀ y, ¬ Near L [n, x] y → Same l l' y) :
    (ListOp.listReplaceInit x n).Realized l L := by
  refine ⟨l'.initListHead x, ?_, ?_, fun y hy => ?_⟩
  · rw [ListOp.run, listReplaceInit, hrun]
    rfl
  · rw [ListOp.apply, ← hsub]
    exact hc.init hfree
  · have hyx : y ≠ x := fun e => hy (near_of_mem (by simp [ListOp.nodes, e]))
    exact (hframe y hy).trans (same_initListHead hyx)

theorem map_replace_of_not_mem (hx : x ∉ zs) : (zs.map fun y => if y = x then n else y) = zs := by
  refine (List.map_congr_left fun y hy => ?_).trans (List.map_id zs)
  exact if_neg (ne_of_mem_of_not_mem hy hx)

/-- On the other circles nothing is replaced. -/
theorem substitute_other {g : ν} (H : Circles l L) (hh : L h = some xs) (hx : x ∈ h :: xs)
    (hgh : g ≠ h) (hgx : g ≠ x) (hgn : g ≠ n) : substitute L x n g = L g := by
  rw [substitute, if_neg hgx, if_neg hgn]
  cases hL : L g with
  | none => rfl
  | some zs =>
    have hxz : x ∉ zs := fun hm => hgh (H.head_eq hL hh (List.mem_cons_of_mem g hm) hx)
    rw [Option.map_some, map_replace_of_not_mem hxz]

/-- The list of the replaced head goes to the new one. -/
theorem substitute_head (H : Circles l L) (hh : L x = some xs) (hne : n ≠ x) :
    Function.update (Function.update (Function.update L x none) n (some xs)) x (some []) =
      substitute L x n := by
  funext g
  by_cases hgx : g = x
  · simp [substitute, hgx]
  by_cases hgn : g = n
  · simp [substitute, hgn, hne, hh]
  · rw [substitute_other H hh List.mem_cons_self hgx hgx hgn]
    simp [hgx, hgn]

/-- The new node stands on the list where the replaced one did. -/
theorem substitute_mem (H : Circles l L) (hh : L h = some (xs ++ x :: ys)) (hnh : n ≠ h)
    (hne : n ≠ x) :
    Function.update (Function.update (Function.update L n none) h (some (xs ++ n :: ys))) x
      (some []) = substitute L x n := by
  have hmem : x ∈ xs ++ x :: ys := by simp
  have hxh : h ≠ x := fun e => H.head_not_mem hh hh (e ▸ hmem)
  have hnot := (H.ring h _ hh).not_mem
  simp only [List.mem_cons, List.mem_append, not_or] at hnot
  funext g
  by_cases hgx : g = x
  · simp [substitute, hgx]
  by_cases hgn : g = n
  · simp [substitute, hgn, hne, hnh, H.eq_none_of_mem hh hmem]
  by_cases hgh : g = h
  · simp [substitute, hgh, hxh, hnh.symm, hh, map_replace_of_not_mem hnot.2.1,
      map_replace_of_not_mem hnot.2.2]
  · rw [substitute_other H hh (List.mem_cons_of_mem h hmem) hgh hgx hgn]
    simp [hgx, hgn, hgh]

theorem realized_replaceHead (H : Circles l L) (hh : L x = some xs) (hn : Free L n)
    (hne : n ≠ x) : (ListOp.listReplaceInit x n).Realized l L := by
  have hx : x ∈ x :: xs := List.mem_cons_self
  obtain ⟨l', hrun, hring, hframe⟩ := listReplace_head (H.ring x xs hh) (hn.not_mem hh hne)
  have hc : Circles l' (Function.update (Function.update L x none) n (some xs)) := by
    refine H.update (T := n :: x :: xs) (fun y hy => ?_) (fun g zs hg hgn hgx => ?_) hring ?_
      (fun zs hv => absurd hv (by simp))
    · rw [List.mem_cons, not_or] at hy
      exact hframe y hy.1 hy.2
    · exact H.rest hh hn hg hgx hgn
    · intro y hy
      simp only [List.mem_cons] at hy ⊢
      tauto
  have hxn : x ∉ n :: xs := by
    have := H.head_not_mem hh hh
    simp only [List.mem_cons]
    tauto
  exact realized_replaceInit hrun hc
    (free_of_not_onCircle (H.not_onCircle_update hh hx (Or.inr rfl) hxn)) (substitute_head H hh hne)
    (fun y => same_of_frame hframe hh (by simp) (x := x) (by simp) hx)

theorem realized_replaceMem (H : Circles l L) (hh : L h = some (xs ++ x :: ys)) (hn : Free L n)
    (hne : n ≠ x) : (ListOp.listReplaceInit x n).Realized l L := by
  have hx : x ∈ h :: (xs ++ x :: ys) := by simp
  have hr := H.ring h _ hh
  have hnh : n ≠ h := by
    rintro rfl
    exact absurd (hn _ _ hh List.mem_cons_self).2 (by simp)
  obtain ⟨l', hrun, hring, hframe⟩ := listReplace_mem hr (hn.not_mem hh hnh)
  have hsub : xs ++ n :: ys ⊆ n :: (xs ++ x :: ys) := by
    intro y hy
    simp only [List.mem_cons, List.mem_append] at hy ⊢
    tauto
  have hxn : x ∉ h :: (xs ++ n :: ys) := by
    have := hr.not_mem
    simp only [List.mem_cons, List.mem_append] at this ⊢
    tauto
  exact realized_replaceInit hrun (H.update_one hh hring hframe hsub (Or.inl hn))
    (free_of_not_onCircle (H.not_onCircle_update hh hx (Or.inl rfl) hxn))
    (substitute_mem H hh hnh hne) (fun y => same_of_frame hframe hh (by simp) (x := x) (by simp) hx)

theorem realized_listReplaceInit (H : Circles l L) (hx : OnCircle L x) (hn : Free L n)
    (hne : n ≠ x) : (ListOp.listReplaceInit x n).Realized l L := by
  obtain ⟨h, ws, hh, hxw⟩ := hx
  rcases List.mem_cons.mp hxw with rfl | hmem
  · exact realized_replaceHead H hh hn hne
  · obtain ⟨xs, ys, rfl⟩ := List.append_of_mem hmem
    exact realized_replaceMem H hh hn hne

/-! #### Cutting and joining -/

/-- The only node of a singular list is the first one. -/
theorem next_of_singular {e : ν} (hr : Ring l h xs) (hs : l.listIsSingular h = true)
    (he : e ∈ h :: xs) : l.next h = some e ∨ h = e := by
  rw [listIsSingular, Bool.and_eq_true, decide_eq_true_iff, hr.next_head, hr.prev_head] at hs
  rw [hr.next_head]
  cases xs with
  | nil => exact Or.inl (by simpa [eq_comm] using he)
  | cons z zs =>
    have hlast : (z :: zs).getLast? = some z := by
      have := hs.2
      simpa using this.symm
    obtain rfl : zs = [] := by
      cases zs with
      | nil => rfl
      | cons w ws =>
        have hz : z ∈ w :: ws := List.mem_of_getLast? (by simpa using hlast)
        exact absurd hz (List.nodup_cons.mp (List.nodup_cons.mp hr.nodup).2).1
    simp only [List.mem_cons, List.not_mem_nil, or_false] at he
    rcases he with rfl | rfl
    · exact Or.inr rfl
    · exact Or.inl rfl

/-- Cutting at the head moves nothing. -/
theorem cutBehind_head (hk : L k = some []) (hh : L h = some xs) : cutBehind L k h h = L := by
  simp only [cutBehind, cutLength, if_pos, contents_eq hh, List.take_zero, List.drop_zero]
  rw [← hk, Function.update_eq_self, ← hh, Function.update_eq_self]

theorem cutBehind_mem {e : ν} (hr : Ring l h (xs ++ e :: ys)) (hh : L h = some (xs ++ e :: ys)) :
    cutBehind L k h e =
      Function.update (Function.update L k (some (xs ++ [e]))) h (some ys) := by
  have hnot := hr.not_mem
  simp only [List.mem_cons, List.mem_append, not_or] at hnot
  have hlen : cutLength L h e = (xs ++ [e]).length := by
    simp [cutLength, hnot.1, contents_eq hh, List.idxOf_append_of_notMem hnot.2.1]
  have hsplit : xs ++ e :: ys = (xs ++ [e]) ++ ys := by simp
  simp only [cutBehind, hlen, contents_eq hh]
  rw [hsplit, List.take_left, List.drop_left]

theorem realized_listCutPosition {e : ν} (H : Circles l L) (hk : L k = some []) (hh : L h = some xs)
    (he : e ∈ h :: xs) : (ListOp.listCutPosition k h e).Realized l L := by
  have hr := H.ring h xs hh
  have hfree := H.free_of_nil hk
  rcases eq_or_ne xs [] with rfl | hne
  · obtain rfl : e = h := List.mem_singleton.mp he
    refine ⟨l, ?_, ?_, fun y _ => ⟨rfl, rfl⟩⟩
    · rw [ListOp.run, listCutPosition, if_pos (hr.listEmpty_iff.mpr rfl)]
    · rw [ListOp.apply, cutBehind_head hk hh]
      exact H
  have hkh : k ≠ h := by
    rintro rfl
    exact hne (Option.some.inj (hh.symm.trans hk))
  have hfull : ¬ l.listEmpty h = true := fun hempty => hne (hr.listEmpty_iff.mp hempty)
  have hpass : ¬ (l.listIsSingular h && (l.next h ≠ some e && h ≠ e)) = true := by
    intro hs
    simp only [Bool.and_eq_true, decide_eq_true_iff] at hs
    have := next_of_singular hr hs.1 he
    tauto
  have hrun : l.listCutPosition k h e =
      if e = h then some (l.initListHead k) else l.cutPosition k h e := by
    rw [listCutPosition, if_neg hfull, if_neg hpass]
  by_cases heh : e = h
  · refine ⟨l.initListHead k, by rw [ListOp.run, hrun, if_pos heh], ?_, fun y hy => ?_⟩
    · have hinit := H.init hfree
      rw [← hk, Function.update_eq_self] at hinit
      rw [ListOp.apply, heh, cutBehind_head hk hh]
      exact hinit
    · exact same_initListHead fun e' => hy (near_of_mem (by simp [ListOp.nodes, e']))
  · obtain ⟨as, bs, rfl⟩ := List.append_of_mem ((List.mem_cons.mp he).resolve_left heh)
    obtain ⟨f, fs, hfirst⟩ : ∃ f fs, as ++ [e] = f :: fs := List.exists_cons_of_ne_nil (by simp)
    obtain ⟨b, cs, hrest⟩ : ∃ b cs, bs ++ [h] = b :: cs := List.exists_cons_of_ne_nil (by simp)
    obtain ⟨hc, hframe⟩ := H.cutOff hh hfree hkh hfirst hrest
    have hnext : l.next h = some f := by
      have hsplit : as ++ e :: bs ++ [h] = (f :: fs) ++ (bs ++ [h]) := by simp [← hfirst]
      rw [hr.next_head, hsplit]
      rfl
    have hrest' : l.next e = some b := by
      rw [hr.next_mem, hrest]
      rfl
    refine ⟨l.cutOff k h f e b, ?_, ?_, fun y hy => hframe y fun hm => hy (hm.mono ?_)⟩
    · rw [ListOp.run, hrun, if_neg heh, cutPosition, hrest', hnext]
      rfl
    · rw [ListOp.apply, cutBehind_mem hr hh]
      exact hc
    · simp [ListOp.nodes]

/-- A list that is not empty is put into another one, and is then empty. -/
theorem spliceBetween_init {as bs : List ν} {a b : ν} (H : Circles l L)
    (hh : L h = some (xs ++ ys)) (c : Cut h xs ys as bs a b) (hk : L k = some zs) (hne : k ≠ h)
    (hz : zs ≠ []) :
    ∃ l', l.spliceBetween k a b = some l' ∧
      Circles (l'.initListHead k) (moveAll L k h (xs ++ (zs ++ ys))) ∧
      ∀ y, ¬ Near L [k, h] y → Same l (l'.initListHead k) y := by
  obtain ⟨f, fs, hfirst⟩ := List.exists_cons_of_ne_nil hz
  obtain ⟨es, e, hlast⟩ := (List.eq_nil_or_concat' zs).resolve_left hz
  have hnext : l.next k = some f := by
    rw [(H.ring k zs hk).next_head, hfirst]
    rfl
  have hprev : l.prev k = some e := by
    rw [(H.ring k zs hk).prev_head, hlast, ← List.cons_append, List.getLast?_concat]
  obtain ⟨hc, hframe⟩ := H.splice hh c hk hne hfirst hlast
  refine ⟨l.splice f e a b, ?_, ?_, fun y hy => ?_⟩
  · rw [spliceBetween, hnext, hprev]
    rfl
  · have hfree : Free (Function.update (Function.update L k none) h (some (xs ++ (zs ++ ys)))) k := by
      refine free_of_not_onCircle (H.not_onCircle_update hk List.mem_cons_self (Or.inr rfl) ?_)
      have hxy := H.head_not_mem hh hk
      have hzs := H.head_not_mem hk hk
      simp only [List.mem_cons, List.mem_append] at hxy ⊢
      tauto
    have hinit := hc.init hfree
    rwa [Function.update_comm hne.symm, Function.update_idem] at hinit
  · have hyk : y ≠ k := fun e => hy (near_of_mem (by simp [e]))
    exact (hframe y hy).trans (same_initListHead hyk)

theorem realized_listSpliceInit (H : Circles l L) (hk : L k = some zs) (hh : L h = some xs)
    (hne : k ≠ h) : (ListOp.listSpliceInit k h).Realized l L ∧
      (ListOp.listSpliceTailInit k h).Realized l L := by
  have hempty := (H.ring k zs hk).listEmpty_iff
  cases zs with
  | nil =>
    have hsame : moveAll L k h xs = L := by
      rw [moveAll, ← hk, Function.update_eq_self, ← hh, Function.update_eq_self]
    constructor
    · refine ⟨l, ?_, ?_, fun y _ => ⟨rfl, rfl⟩⟩
      · rw [ListOp.run, listSpliceInit, if_pos (hempty.mpr rfl)]
      · rw [ListOp.apply, contents_eq hk, contents_eq hh, List.nil_append, hsame]
        exact H
    · refine ⟨l, ?_, ?_, fun y _ => ⟨rfl, rfl⟩⟩
      · rw [ListOp.run, listSpliceTailInit, if_pos (hempty.mpr rfl)]
      · rw [ListOp.apply, contents_eq hk, contents_eq hh, List.append_nil, hsame]
        exact H
  | cons z zs =>
    have hfull : ¬ l.listEmpty k = true := by simp [hempty]
    constructor
    · obtain ⟨as, bs, a, b, c⟩ := exists_cut h [] xs
      obtain rfl : a = h := by
        have := c.left_mem
        simpa using this
      obtain ⟨l', hsplice, hc, hframe⟩ := spliceBetween_init H hh c hk hne (by simp)
      have hb : l.next a = some b := ((H.ring a _ hh).cut c).1
      refine ⟨l'.initListHead k, ?_, ?_, hframe⟩
      · rw [ListOp.run, listSpliceInit, if_neg hfull, hb]
        simp [hsplice]
      · rw [ListOp.apply, contents_eq hk, contents_eq hh]
        exact hc
    · obtain ⟨as, bs, a, b, c⟩ := exists_cut h xs []
      obtain rfl : b = h := by
        have := c.right_mem
        simpa using this
      have hh' : L b = some (xs ++ []) := by rwa [List.append_nil]
      obtain ⟨l', hsplice, hc, hframe⟩ := spliceBetween_init H hh' c hk hne (by simp)
      have ha : l.prev b = some a := ((H.ring b _ hh').cut c).2
      refine ⟨l'.initListHead k, ?_, ?_, hframe⟩
      · rw [ListOp.run, listSpliceTailInit, if_neg hfull, ha]
        simp [hsplice]
      · rw [ListOp.apply, contents_eq hk, contents_eq hh]
        rwa [List.append_nil] at hc

/-! ### All operations -/

namespace ListOp

/-- One call. -/
theorem realized (H : Circles l L) (op : ListOp ν) (hpre : op.Pre L) : op.Realized l L := by
  cases op with
  | initListHead list =>
    refine ⟨l.initListHead list, rfl, H.init hpre, fun y hy => same_initListHead ?_⟩
    exact fun e => hy (near_of_mem (e ▸ List.mem_singleton_self list))
  | listAdd new head =>
    obtain ⟨hfree, hne, hhead⟩ := hpre
    obtain ⟨xs, hh⟩ := Option.isSome_iff_exists.mp hhead
    exact H.listAdd hh hfree hne
  | listAddTail new head =>
    obtain ⟨hfree, hne, hhead⟩ := hpre
    obtain ⟨xs, hh⟩ := Option.isSome_iff_exists.mp hhead
    exact H.listAddTail hh hfree hne
  | listDel entry => exact realized_listDel H hpre
  | listDelInit entry => exact realized_listDelInit H hpre
  | listMove list head =>
    obtain ⟨hlinked, hne, hhead⟩ := hpre
    obtain ⟨xs, hh⟩ := Option.isSome_iff_exists.mp hhead
    exact (realized_listMove H hlinked hne hh).1
  | listMoveTail list head =>
    obtain ⟨hlinked, hne, hhead⟩ := hpre
    obtain ⟨xs, hh⟩ := Option.isSome_iff_exists.mp hhead
    exact (realized_listMove H hlinked hne hh).2
  | listReplaceInit old new =>
    obtain ⟨hold, hfree, hne⟩ := hpre
    exact realized_listReplaceInit H hold hfree hne
  | listRotateLeft head =>
    obtain ⟨xs, hh⟩ := Option.isSome_iff_exists.mp hpre
    exact realized_listRotateLeft H hh
  | listCutPosition list head entry =>
    obtain ⟨hlist, hhead, hentry⟩ := hpre
    obtain ⟨xs, hh⟩ := Option.isSome_iff_exists.mp hhead
    rw [contents_eq hh] at hentry
    exact realized_listCutPosition H hlist hh hentry
  | listSpliceInit list head =>
    obtain ⟨hlist, hhead, hne⟩ := hpre
    obtain ⟨zs, hk⟩ := Option.isSome_iff_exists.mp hlist
    obtain ⟨xs, hh⟩ := Option.isSome_iff_exists.mp hhead
    exact (realized_listSpliceInit H hk hh hne).1
  | listSpliceTailInit list head =>
    obtain ⟨hlist, hhead, hne⟩ := hpre
    obtain ⟨zs, hk⟩ := Option.isSome_iff_exists.mp hlist
    obtain ⟨xs, hh⟩ := Option.isSome_iff_exists.mp hhead
    exact (realized_listSpliceInit H hk hh hne).2

/-- The lists of the heads that are not near the nodes of the call are the same. -/
theorem apply_of_not_near (op : ListOp ν) (hn : ¬ Near L op.nodes h) : op.apply L h = L h := by
  have hne : ∀ z ∈ op.nodes, h ≠ z := fun z hz e => hn (near_of_mem (e ▸ hz))
  have hmap : ∀ z ∈ op.nodes, ∀ f : List ν → List ν, (∀ zs, z ∉ zs → f zs = zs) →
      (L h).map f = L h := by
    intro z hz f hf
    cases hL : L h with
    | none => rfl
    | some zs =>
      have hzs : z ∉ zs := fun hm =>
        hn (Or.inr ⟨h, zs, hL, List.mem_cons_self, z, hz, List.mem_cons_of_mem h hm⟩)
      rw [Option.map_some, hf zs hzs]
  have hremove : ∀ z ∈ op.nodes, remove L z h = L h := by
    intro z hz
    rw [remove, if_neg (hne z hz)]
    exact hmap z hz _ fun zs hzs => List.erase_of_not_mem hzs
  cases op with
  | initListHead list | listRotateLeft head =>
    exact Function.update_of_ne (hne _ (List.mem_singleton_self _)) _ _
  | listAdd new head | listAddTail new head =>
    simp only [nodes, List.mem_cons, List.not_mem_nil, or_false, forall_eq_or_imp, forall_eq] at hne
    simp [apply, pushFront, pushBack, hne.1, hne.2]
  | listDel entry => exact hremove entry (List.mem_singleton_self entry)
  | listDelInit entry =>
    have hentry := List.mem_singleton_self entry
    rw [apply, Function.update_of_ne (hne entry hentry), hremove entry hentry]
  | listMove list head | listMoveTail list head =>
    have hlist := hremove list (by simp [nodes])
    simp only [nodes, List.mem_cons, List.not_mem_nil, or_false, forall_eq_or_imp, forall_eq] at hne
    simp [apply, pushFront, pushBack, hne.1, hne.2, hlist]
  | listReplaceInit old new =>
    rw [apply, substitute, if_neg (hne old (by simp [nodes])), if_neg (hne new (by simp [nodes]))]
    exact hmap old (by simp [nodes]) _ fun zs hzs => map_replace_of_not_mem hzs
  | listCutPosition list head entry =>
    simp only [nodes, List.mem_cons, List.not_mem_nil, or_false, forall_eq_or_imp, forall_eq] at hne
    simp [apply, cutBehind, hne.1, hne.2.1]
  | listSpliceInit list head | listSpliceTailInit list head =>
    simp only [nodes, List.mem_cons, List.not_mem_nil, or_false, forall_eq_or_imp, forall_eq] at hne
    simp [apply, moveAll, hne.1, hne.2]

end ListOp

/-- Every call that is allowed does to the pointers what it says of the lists: it succeeds, the
lists are the circles of the new pointers, which are each other's inverses, and the other lists are
the same, as are the pointers of the nodes that are on no list of the call. -/
theorem listOp_refines (H : Circles l L) (op : ListOp ν) (hpre : op.Pre L) :
    ∃ l', op.run l = some l' ∧ Circles l' (op.apply L) ∧
      (∀ y, OnCircle (op.apply L) y →
        (l'.next y).bind l'.prev = some y ∧ (l'.prev y).bind l'.next = some y) ∧
      (∀ h, ¬ Near L op.nodes h → op.apply L h = L h) ∧
      ∀ y, ¬ Near L op.nodes y → l'.next y = l.next y ∧ l'.prev y = l.prev y := by
  obtain ⟨l', hrun, hc, hframe⟩ := op.realized H hpre
  exact ⟨l', hrun, hc, fun y hy => hc.mutual hy, fun h hn => op.apply_of_not_near hn, hframe⟩

/-! ### Sequences of operations -/

/-- Every call is allowed when it is made. -/
def Allowed : HeadLists ν → List (ListOp ν) → Prop
  | _, [] => True
  | L, op :: ops => op.Pre L ∧ Allowed (op.apply L) ops

/-- A sequence of calls does to the pointers what it says of the lists. -/
theorem listOps_refine (H : Circles l L) {ops : List (ListOp ν)} (ha : Allowed L ops) :
    ∃ l', Run.exec ListOp.run l ops = some l' ∧ Circles l' (ops.foldl ListOp.apply L) := by
  induction ops generalizing l L with
  | nil => exact ⟨l, rfl, H⟩
  | cons op ops ih =>
    obtain ⟨l₁, hrun, hc, -⟩ := op.realized H ha.1
    obtain ⟨l₂, hexec, hc₂⟩ := ih hc ha.2
    exact ⟨l₂, Run.exec_cons_eq_some.mpr ⟨l₁, hrun, hexec⟩, hc₂⟩

end Refinement

/-- Every node is the head of an empty list. -/
theorem circles_alone (ν : Type*) : Circles ⟨some, some⟩ fun _ : ν => some [] where
  ring h xs hh := by
    obtain rfl : [] = xs := Option.some.inj hh
    exact ring_nil rfl rfl
  apart h k xs ys hh hk hne := by
    obtain rfl : [] = xs := Option.some.inj hh
    obtain rfl : [] = ys := Option.some.inj hk
    simpa [eq_comm] using hne

theorem listOp_refines_add_first :
    ∃ l', (ListOp.listAdd 1 0).run (⟨some, some⟩ : Links ℕ) = some l' ∧ Ring l' 0 [1] ∧
      l'.next 2 = some 2 := by
  have halone := circles_alone ℕ
  obtain ⟨l', hrun, hc, -, -, hframe⟩ := listOp_refines halone (.listAdd 1 0)
    ⟨halone.free_of_nil rfl, by decide, rfl⟩
  refine ⟨l', hrun, hc.ring 0 [1] (by simp [ListOp.apply, pushFront, contents]), ?_⟩
  refine (hframe 2 ?_).1
  rintro (hm | ⟨h, xs, hh, hm, z, hz, hzm⟩)
  · exact absurd hm (by decide)
  · obtain rfl : [] = xs := Option.some.inj hh
    simp only [List.mem_singleton] at hm hzm
    subst hm hzm
    exact absurd hz (by decide)

end YakOS
