import Mathlib.Data.List.Chain
import YakOS.Lib.Links

/-!
# Families of circles

A heap of nodes is linked into any number of disjoint circles.  One operation writes the
pointers of one or two of the circles, and of a node outside; the others are not touched.

## Main definitions

* `Adj l a b` — the pointers of `a` and `b` make them neighbours.
* `splice`, `cutOff` — the writes that put a part of one circle into another, and that
  make a circle of its own of it.
* `Circles l L` — `L` gives the list of each head, and the lists are disjoint circles.
* `Free L n` — the node `n` is on no circle with another node.
* `Near L ns y` — the node `y` is one of the nodes `ns` or on a circle with one of them.

## Main results

* `ring_iff_isChain` — a circle as a chain of neighbours.
* `Ring.turn` — every node of a circle can be its head.
* `Ring.splice`, `Ring.cutOff`, `Ring.replace` — surgery on circles.
* `Circles.update` — two circles change, the others stay.
-/

namespace Links

variable {ν : Type*} {l l' l'' : Links ν} {h k a b e f n x y : ν} {xs ys zs as bs : List ν}

/-! ### Circles as chains -/

/-- `b` follows `a`, and `a` precedes `b`. -/
def Adj (l : Links ν) (a b : ν) : Prop := l.next a = some b ∧ l.prev b = some a

theorem ring_iff_isChain :
    Ring l h xs ↔ (h :: xs).Nodup ∧ (h :: xs ++ [h]).IsChain l.Adj := by
  rw [List.isChain_cons_append_singleton_iff_forall₂, List.forall₂_iff_zip]
  constructor
  · intro hr
    exact ⟨hr.nodup, by simp, fun hp => ⟨hr.next _ hp, hr.prev _ hp⟩⟩
  · rintro ⟨hnd, -, hadj⟩
    exact ⟨hnd, fun p hp => (hadj hp).1, fun p hp => (hadj hp).2⟩

/-- Only the pointers between the nodes of a chain matter to it. -/
theorem isChain_congr (hc : zs.IsChain l.Adj) (hnext : ∀ y ∈ zs.dropLast, l'.next y = l.next y)
    (hprev : ∀ y ∈ zs.tail, l'.prev y = l.prev y) : zs.IsChain l'.Adj := by
  rw [List.isChain_iff_forall₂, List.forall₂_iff_zip] at hc ⊢
  refine ⟨hc.1, fun {p q} hpq => ?_⟩
  obtain ⟨hp, hq⟩ := List.of_mem_zip hpq
  have hadj := hc.2 hpq
  exact ⟨(hnext p hp).trans hadj.1, (hprev q hq).trans hadj.2⟩

/-- Writing the pointers out of its two ends keeps a chain of distinct nodes. -/
theorem isChain_congr_inner {es fs : List ν} (hc : zs.IsChain l.Adj) (hnd : zs.Nodup)
    (hfirst : zs = f :: fs) (hlast : zs = es ++ [e])
    (hnext : ∀ y ∈ zs, y ≠ e → l'.next y = l.next y)
    (hprev : ∀ y ∈ zs, y ≠ f → l'.prev y = l.prev y) : zs.IsChain l'.Adj := by
  refine isChain_congr hc (fun y hy => ?_) (fun y hy => ?_)
  · have hyz := List.dropLast_subset zs hy
    rw [hlast, List.dropLast_concat] at hy
    refine hnext y hyz ?_
    rintro rfl
    exact List.disjoint_of_nodup_append (hlast ▸ hnd) hy (List.mem_singleton_self y)
  · have hyz := List.mem_of_mem_tail hy
    rw [hfirst, List.tail_cons] at hy
    exact hprev y hyz (ne_of_mem_of_not_mem hy (List.nodup_cons.mp (hfirst ▸ hnd)).1)

/-- Every node of a circle can be its head. -/
theorem Ring.turn (hr : Ring l h (xs ++ x :: ys)) : Ring l x (ys ++ h :: xs) := by
  obtain ⟨hnd, hc⟩ := ring_iff_isChain.mp hr
  refine ring_iff_isChain.mpr ⟨?_, ?_⟩
  · have hperm : ((h :: xs) ++ (x :: ys)).Perm ((x :: ys) ++ (h :: xs)) := List.perm_append_comm
    exact hperm.nodup_iff.mp hnd
  · have hsplit : (h :: xs) ++ x :: (ys ++ [h]) = h :: (xs ++ x :: ys) ++ [h] := by simp
    rw [← hsplit, List.isChain_split] at hc
    have hjoin : (x :: ys) ++ h :: (xs ++ [x]) = x :: (ys ++ h :: xs) ++ [x] := by simp
    rw [← hjoin, List.isChain_split]
    exact ⟨hc.2, hc.1⟩

/-- The circle of a node that is alone. -/
theorem ring_nil (hnext : l.next n = some n) (hprev : l.prev n = some n) : Ring l n [] :=
  ring_iff_isChain.mpr ⟨List.nodup_singleton n, List.isChain_pair.mpr ⟨hnext, hprev⟩⟩

namespace Cut

variable (c : Cut h xs ys as bs a b)

include c

/-- A circle as two chains that meet at a cut. -/
theorem chain_eq : h :: (xs ++ ys) ++ [h] = (as ++ [a]) ++ (b :: bs) := by
  rw [← c.left, ← c.right]
  simp

theorem ring_iff : Ring l h (xs ++ ys) ↔ (h :: (xs ++ ys)).Nodup ∧
    (as ++ [a]).IsChain l.Adj ∧ (b :: bs).IsChain l.Adj ∧ l.Adj a b := by
  rw [ring_iff_isChain, c.chain_eq, List.isChain_append]
  simp

end Cut

/-! ### Surgery -/

section Surgery

variable [DecidableEq ν]

/-- The nodes from `first` to `last` are put between `prev` and `next`. -/
def splice (l : Links ν) (first last prev next : ν) : Links ν :=
  (((l.setPrev first (some prev)).setNext prev (some first)).setNext last (some next)).setPrev next
    (some last)

/-- The nodes from `first` to `entry` come to the head `list`, and `rest` comes first behind
the head `head`. -/
def cutOff (l : Links ν) (list head first entry rest : ν) : Links ν :=
  (((((l.setNext list (some first)).setPrev first (some list)).setPrev list (some entry)).setNext
    entry (some list)).setNext head (some rest)).setPrev rest (some head)

theorem splice_next_of_ne (ha : y ≠ a) (he : y ≠ e) : (l.splice f e a b).next y = l.next y := by
  simp [splice, setNext, setPrev, Function.update_of_ne ha, Function.update_of_ne he]

theorem splice_prev_of_ne (hf : y ≠ f) (hb : y ≠ b) : (l.splice f e a b).prev y = l.prev y := by
  simp [splice, setNext, setPrev, Function.update_of_ne hf, Function.update_of_ne hb]

theorem cutOff_next_of_ne (hk : y ≠ k) (he : y ≠ e) (hh : y ≠ h) :
    (l.cutOff k h f e b).next y = l.next y := by
  simp [cutOff, setNext, setPrev, Function.update_of_ne hk, Function.update_of_ne he,
    Function.update_of_ne hh]

theorem cutOff_prev_of_ne (hk : y ≠ k) (hf : y ≠ f) (hb : y ≠ b) :
    (l.cutOff k h f e b).prev y = l.prev y := by
  simp [cutOff, setNext, setPrev, Function.update_of_ne hk, Function.update_of_ne hf,
    Function.update_of_ne hb]

/-- The nodes of one circle put into a cut of another. -/
theorem Ring.splice {es fs : List ν} (hr : Ring l h (xs ++ ys)) (c : Cut h xs ys as bs a b)
    (hk : Ring l k zs) (hfirst : zs = f :: fs) (hlast : zs = es ++ [e])
    (hdis : List.Disjoint (h :: (xs ++ ys)) (k :: zs)) :
    Ring (l.splice f e a b) h (xs ++ (zs ++ ys)) := by
  obtain ⟨hnd, hleft, hright, -⟩ := c.ring_iff.mp hr
  obtain ⟨hndk, hchain⟩ := ring_iff_isChain.mp hk
  have hmid : zs.IsChain l.Adj := by
    rw [List.cons_append] at hchain
    exact hchain.tail.left_of_append
  have hndz := (List.nodup_cons.mp hndk).2
  -- the nodes whose pointers are written are ends of the three chains
  obtain ⟨haas, hays⟩ : a ∉ as ∧ a ∉ ys := by
    simpa using (List.nodup_cons.mp (List.nodup_middle.mp (c.nodup_left hnd))).1
  obtain ⟨hbxs, hbbs⟩ : b ∉ xs ∧ b ∉ bs := by
    simpa using (List.nodup_cons.mp (List.nodup_middle.mp (c.nodup_right hnd))).1
  have hfz : f ∈ zs := by simp [hfirst]
  have hez : e ∈ zs := by simp [hlast]
  have hz : ∀ y ∈ h :: (xs ++ ys), ∀ z ∈ zs, y ≠ z := by
    rintro y hy z hm rfl
    exact hdis hy (List.mem_cons_of_mem k hm)
  have ha := c.mem_left
  have hb := c.mem_right
  have hsub : ∀ y, y ∈ as ∨ y ∈ xs ∨ y ∈ ys ∨ y ∈ bs → y ∈ h :: (xs ++ ys) := c.mem_of_mem
  refine ring_iff_isChain.mpr ⟨?_, ?_⟩
  · have hperm : (h :: (xs ++ (zs ++ ys))).Perm (h :: (xs ++ ys) ++ zs) := by
      rw [List.cons_append, List.append_assoc]
      exact (List.perm_append_comm.append_left xs).cons h
    refine hperm.nodup_iff.mpr (hnd.append hndz fun y hy hm => hz y hy y hm rfl)
  · have hsplit : h :: (xs ++ (zs ++ ys)) ++ [h] = (as ++ [a]) ++ (zs ++ b :: bs) := by
      rw [← c.left, ← c.right]
      simp
    rw [hsplit]
    refine List.IsChain.append ?_ (List.IsChain.append ?_ ?_ ?_) ?_
    · refine isChain_congr hleft (fun y hy => ?_) (fun y hy => ?_)
      · rw [List.dropLast_concat] at hy
        exact splice_next_of_ne (ne_of_mem_of_not_mem hy haas) (hz y (hsub y (Or.inl hy)) e hez)
      · rw [← c.left, List.tail_cons] at hy
        exact splice_prev_of_ne (hz y (hsub y (Or.inr (Or.inl hy))) f hfz)
          (ne_of_mem_of_not_mem hy hbxs)
    · refine isChain_congr_inner hmid hndz hfirst hlast (fun y hy hye => ?_) (fun y hy hyf => ?_)
      · exact splice_next_of_ne (hz a ha y hy).symm hye
      · exact splice_prev_of_ne hyf (hz b hb y hy).symm
    · refine isChain_congr hright (fun y hy => ?_) (fun y hy => ?_)
      · rw [← c.right, List.dropLast_concat] at hy
        exact splice_next_of_ne (ne_of_mem_of_not_mem hy hays)
          (hz y (hsub y (Or.inr (Or.inr (Or.inl hy)))) e hez)
      · rw [List.tail_cons] at hy
        exact splice_prev_of_ne (hz y (hsub y (Or.inr (Or.inr (Or.inr hy)))) f hfz)
          (ne_of_mem_of_not_mem hy hbbs)
    · -- the last node of the part, and the one behind the cut
      have hlastb : (l.splice f e a b).Adj e b := by
        simp [Adj, Links.splice, setNext, setPrev]
      simpa [hlast] using hlastb
    · -- the node before the cut, and the first node of the part
      have hae := hz a ha e hez
      have hfb := (hz b hb f hfz).symm
      have hfirsta : (l.splice f e a b).Adj a f := by
        simp [Adj, Links.splice, setNext, setPrev, Function.update_of_ne hae,
          Function.update_of_ne hfb]
      simpa [hfirst] using hfirsta

/-- A circle cut into two, the first of them with a head of its own. -/
theorem Ring.cutOff {fs : List ν} (hr : Ring l h (xs ++ e :: ys)) (hk : k ∉ h :: (xs ++ e :: ys))
    (hfirst : xs ++ [e] = f :: fs) (hrest : ys ++ [h] = b :: bs) :
    Ring (l.cutOff k h f e b) k (xs ++ [e]) ∧ Ring (l.cutOff k h f e b) h ys := by
  obtain ⟨hnd, hchain⟩ := ring_iff_isChain.mp hr
  have hsplit : h :: (xs ++ e :: ys) ++ [h] = h :: ((xs ++ [e]) ++ (ys ++ [h])) := by simp
  rw [hsplit] at hchain
  have hfront := hchain.tail.left_of_append
  have hback := hchain.tail.right_of_append
  have hnd' : ((xs ++ [e]) ++ (ys ++ [h])).Nodup := by
    have hperm : ((xs ++ [e]) ++ (ys ++ [h])).Perm (h :: (xs ++ e :: ys)) := by
      have := List.perm_append_singleton h (xs ++ e :: ys)
      simpa using this
    exact hperm.nodup_iff.mpr hnd
  obtain ⟨hndf, hndb, hdis⟩ := List.nodup_append'.mp hnd'
  have hkf : ∀ y ∈ xs ++ [e], y ≠ k := by
    rintro y hy rfl
    exact hk (by simp only [List.mem_cons, List.mem_append] at hy ⊢; tauto)
  have hkb : ∀ y ∈ ys ++ [h], y ≠ k := by
    rintro y hy rfl
    exact hk (by simp only [List.mem_cons, List.mem_append] at hy ⊢; tauto)
  have hfm : f ∈ xs ++ [e] := by simp [hfirst]
  have hbm : b ∈ ys ++ [h] := by simp [hrest]
  have hem : e ∈ xs ++ [e] := by simp
  have hhm : h ∈ ys ++ [h] := by simp
  have hbf : ∀ y ∈ xs ++ [e], ∀ z ∈ ys ++ [h], y ≠ z := by
    rintro y hy z hz rfl
    exact hdis hy hz
  constructor
  · refine ring_iff_isChain.mpr ⟨List.nodup_cons.mpr ⟨fun hm => hkf k hm rfl, hndf⟩, ?_⟩
    rw [List.cons_append, List.isChain_cons]
    refine ⟨?_, List.IsChain.append ?_ (List.isChain_singleton k) ?_⟩
    · -- the new head, and the first node
      have hhead : (l.cutOff k h f e b).Adj k f := by
        simp [Adj, Links.cutOff, setNext, setPrev, Function.update_of_ne (hkf e hem).symm,
          Function.update_of_ne (hkb h hhm).symm, Function.update_of_ne (hbf f hfm b hbm),
          Function.update_of_ne (hkf f hfm)]
      simpa [hfirst] using hhead
    · refine isChain_congr_inner hfront hndf hfirst rfl (fun y hy hye => ?_) (fun y hy hyf => ?_)
      · exact cutOff_next_of_ne (hkf y hy) hye (hbf y hy h hhm)
      · exact cutOff_prev_of_ne (hkf y hy) hyf (hbf y hy b hbm)
    · -- the last node, and the new head
      have hlast : (l.cutOff k h f e b).Adj e k := by
        simp [Adj, Links.cutOff, setNext, setPrev, Function.update_of_ne (hbf e hem h hhm),
          Function.update_of_ne (hkb b hbm).symm]
      simpa using hlast
  · refine ring_iff_isChain.mpr ⟨(List.perm_append_singleton h ys).nodup_iff.mp hndb, ?_⟩
    rw [List.cons_append, List.isChain_cons]
    constructor
    · have hhead : (l.cutOff k h f e b).Adj h b := by
        simp [Adj, Links.cutOff, setNext, setPrev]
      simpa [hrest] using hhead
    · refine isChain_congr_inner hback hndb hrest rfl (fun y hy hyh => ?_) (fun y hy hyb => ?_)
      · exact cutOff_next_of_ne (hkb y hy) (hbf e hem y hy).symm hyh
      · exact cutOff_prev_of_ne (hkb y hy) (hbf f hfm y hy).symm hyb

/-- One node takes the place of another. -/
theorem Ring.replace (hr : Ring l h (xs ++ x :: ys)) (c : Cut h xs ys as bs a b)
    (hn : n ∉ h :: (xs ++ x :: ys)) : Ring (l.insert n a b) h (xs ++ n :: ys) := by
  have hunlinked : (l.unlink a b).insert n a b = l.insert n a b := by
    have hna : n ≠ a := by
      rintro rfl
      have := c.left_mem
      simp only [List.mem_cons, List.mem_append] at hn this
      tauto
    simp [Links.insert, Links.unlink, setNext, setPrev, Function.update_comm hna]
  have hn' : n ∉ h :: (xs ++ ys) := by
    intro hm
    exact hn (by simp only [List.mem_cons, List.mem_append] at hm ⊢; tauto)
  rw [← hunlinked]
  exact (hr.unlink c).insert c hn'

end Surgery

/-! ### Families -/

/-- The list of each node that is the head of one. -/
abbrev HeadLists (ν : Type*) := ν → Option (List ν)

/-- The lists are disjoint circles. -/
structure Circles (l : Links ν) (L : HeadLists ν) : Prop where
  ring : ∀ h xs, L h = some xs → Ring l h xs
  apart : ∀ h k xs ys, L h = some xs → L k = some ys → h ≠ k → List.Disjoint (h :: xs) (k :: ys)

/-- The node is on a circle. -/
def OnCircle (L : HeadLists ν) (x : ν) : Prop := ∃ h xs, L h = some xs ∧ x ∈ h :: xs

/-- The node is on no circle with another node. -/
def Free (L : HeadLists ν) (n : ν) : Prop := ∀ h xs, L h = some xs → n ∈ h :: xs → h = n ∧ xs = []

/-- The node is one of `ns` or on a circle with one of them. -/
def Near (L : HeadLists ν) (ns : List ν) (y : ν) : Prop :=
  y ∈ ns ∨ ∃ h xs, L h = some xs ∧ y ∈ h :: xs ∧ ∃ x ∈ ns, x ∈ h :: xs

/-- The pointers of the node are the same. -/
def Same (l l' : Links ν) (y : ν) : Prop := l'.next y = l.next y ∧ l'.prev y = l.prev y

theorem Same.trans (h₁ : Same l l' y) (h₂ : Same l' l'' y) : Same l l'' y :=
  ⟨h₂.1.trans h₁.1, h₂.2.trans h₁.2⟩

section Families

variable {L L' : HeadLists ν} {ns : List ν}

/-- Following the pointers forth and back, or back and forth, comes back to the node. -/
theorem Circles.mutual (H : Circles l L) (hy : OnCircle L y) :
    (l.next y).bind l.prev = some y ∧ (l.prev y).bind l.next = some y := by
  obtain ⟨h, xs, hL, hy⟩ := hy
  have hr := H.ring h xs hL
  obtain ⟨z, hnext, hprev⟩ := hr.prev_next hy
  obtain ⟨w, -, hnext', hprev'⟩ := hr.exists_next_eq hy
  exact ⟨by rw [hnext]; exact hprev, by rw [hprev']; exact hnext'⟩

theorem Circles.head_eq (H : Circles l L) (hh : L h = some xs) (hk : L k = some ys)
    (hx : x ∈ h :: xs) (hy : x ∈ k :: ys) : h = k := by
  by_contra hne
  exact H.apart h k xs ys hh hk hne hx hy

/-- The heads are on no list. -/
theorem Circles.head_not_mem (H : Circles l L) (hh : L h = some xs) (hk : L k = some ys) :
    k ∉ xs := by
  intro hm
  obtain rfl := H.head_eq hh hk (List.mem_cons_of_mem h hm) List.mem_cons_self
  exact (List.nodup_cons.mp (H.ring _ _ hh).nodup).1 hm

theorem Circles.eq_none_of_mem (H : Circles l L) (hh : L h = some xs) (hx : x ∈ xs) : L x = none :=
  Option.eq_none_iff_forall_ne_some.mpr fun _ hx' => H.head_not_mem hh hx' hx

theorem Circles.congr (H : Circles l L) (hsame : ∀ y, OnCircle L y → Same l l' y) :
    Circles l' L where
  ring h xs hL := (H.ring h xs hL).congr (fun y hy => (hsame y ⟨h, xs, hL, hy⟩).1)
    (fun y hy => (hsame y ⟨h, xs, hL, hy⟩).2)
  apart := H.apart

theorem Circles.mono (H : Circles l L) (hsub : ∀ h xs, L' h = some xs → L h = some xs) :
    Circles l L' where
  ring h xs hL := H.ring h xs (hsub h xs hL)
  apart h k xs ys hh hk := H.apart h k xs ys (hsub h xs hh) (hsub k ys hk)

/-- Some of the circles are new and made of the nodes `T`, the others have none of them. -/
theorem Circles.change (H : Circles l L) {T : List ν} (hkeep : ∀ y ∉ T, Same l l' y)
    (hcase : ∀ g zs, L' g = some zs →
      L g = some zs ∧ List.Disjoint (g :: zs) T ∨ Ring l' g zs ∧ g :: zs ⊆ T)
    (hnew : ∀ g₁ g₂ zs₁ zs₂, L' g₁ = some zs₁ → L' g₂ = some zs₂ → g₁ ∈ T → g₂ ∈ T → g₁ ≠ g₂ →
      List.Disjoint (g₁ :: zs₁) (g₂ :: zs₂)) : Circles l' L' where
  ring g zs hg := by
    rcases hcase g zs hg with ⟨hL, hdis⟩ | ⟨hr, -⟩
    · have hsame : ∀ y ∈ g :: zs, Same l l' y := fun y hy => hkeep y fun hT => hdis hy hT
      exact (H.ring g zs hL).congr (fun y hy => (hsame y hy).1) (fun y hy => (hsame y hy).2)
    · exact hr
  apart g₁ g₂ zs₁ zs₂ hg₁ hg₂ hne := by
    rcases hcase g₁ zs₁ hg₁ with ⟨hL₁, hdis₁⟩ | ⟨-, hsub₁⟩
    · rcases hcase g₂ zs₂ hg₂ with ⟨hL₂, -⟩ | ⟨-, hsub₂⟩
      · exact H.apart g₁ g₂ zs₁ zs₂ hL₁ hL₂ hne
      · exact fun y hy₁ hy₂ => hdis₁ hy₁ (hsub₂ hy₂)
    · rcases hcase g₂ zs₂ hg₂ with ⟨-, hdis₂⟩ | ⟨-, hsub₂⟩
      · exact fun y hy₁ hy₂ => hdis₂ hy₂ (hsub₁ hy₁)
      · exact hnew g₁ g₂ zs₁ zs₂ hg₁ hg₂ (hsub₁ List.mem_cons_self) (hsub₂ List.mem_cons_self) hne

/-- The list of a head; a node that is none has the empty one. -/
def contents (L : HeadLists ν) (h : ν) : List ν := (L h).getD []

theorem contents_eq (hh : L h = some xs) : contents L h = xs := by simp [contents, hh]

theorem Free.not_mem (hn : Free L n) (hh : L h = some xs) (hne : n ≠ h) : n ∉ h :: xs :=
  fun hm => hne (hn h xs hh hm).1.symm

/-- The circles without `n` and without the circle of `h`. -/
theorem Circles.rest (H : Circles l L) (hh : L h = some xs) (hn : Free L n) {g : ν}
    (hg : L g = some zs) (hgh : g ≠ h) (hgn : g ≠ n) : List.Disjoint (g :: zs) (n :: h :: xs) := by
  intro y hy hm
  rcases List.mem_cons.mp hm with rfl | hm
  · exact hgn (hn g zs hg hy).1
  · exact hgh (H.head_eq hg hh hy hm)

theorem free_of_not_onCircle (hn : ¬ OnCircle L n) : Free L n :=
  fun h xs hh hm => absurd ⟨h, xs, hh, hm⟩ hn

theorem Near.mono {ns' : List ν} (hsub : ns ⊆ ns') (hy : Near L ns y) : Near L ns' y := by
  rcases hy with hy | ⟨h, xs, hh, hyx, z, hz, hzx⟩
  · exact Or.inl (hsub hy)
  · exact Or.inr ⟨h, xs, hh, hyx, z, hsub hz, hzx⟩

theorem near_of_mem (hy : y ∈ ns) : Near L ns y := Or.inl hy

theorem near_of_head (hh : L h = some xs) (hm : h ∈ ns) (hy : y ∈ h :: xs) : Near L ns y :=
  Or.inr ⟨h, xs, hh, hy, h, hm, List.mem_cons_self⟩

/-- What is near to nodes near to others is near to these. -/
theorem Circles.near_trans {ns' : List ν} (H : Circles l L) (hns : ∀ z ∈ ns', Near L ns z)
    (hy : Near L ns' y) : Near L ns y := by
  rcases hy with hy | ⟨h, xs, hh, hyx, z, hz, hzx⟩
  · exact hns y hy
  · rcases hns z hz with hz | ⟨k, ys, hk, hzy, w, hw, hwy⟩
    · exact Or.inr ⟨h, xs, hh, hyx, z, hz, hzx⟩
    · obtain rfl := H.head_eq hh hk hzx hzy
      obtain rfl : xs = ys := Option.some.inj (hh.symm.trans hk)
      exact Or.inr ⟨h, xs, hh, hyx, w, hw, hwy⟩

/-- The frame of an operation on one circle. -/
theorem same_of_frame (hframe : Frame l l' n (h :: xs)) (hh : L h = some xs) (hn : n ∈ ns)
    (hx : x ∈ ns) (hm : x ∈ h :: xs) (hy : ¬ Near L ns y) : Same l l' y :=
  hframe y (fun e => hy (near_of_mem (e ▸ hn))) fun hyx => hy (Or.inr ⟨h, xs, hh, hyx, x, hx, hm⟩)

/-- The head of an empty list is alone. -/
theorem Circles.free_of_nil (H : Circles l L) (hn : L n = some []) : Free L n := by
  intro h xs hh hm
  obtain rfl := H.head_eq hn hh List.mem_cons_self hm
  exact ⟨rfl, Option.some.inj (hh.symm.trans hn)⟩

variable [DecidableEq ν]

/-- The circle of `h` becomes another one, and `k` is the head of another circle or of none. -/
theorem Circles.update (H : Circles l L) {T : List ν} {v : Option (List ν)}
    (hkeep : ∀ y ∉ T, Same l l' y)
    (hrest : ∀ g zs, L g = some zs → g ≠ h → g ≠ k → List.Disjoint (g :: zs) T)
    (hh : Ring l' h xs) (hsub : h :: xs ⊆ T)
    (hk : ∀ zs, v = some zs → Ring l' k zs ∧ k :: zs ⊆ T ∧ List.Disjoint (h :: xs) (k :: zs)) :
    Circles l' (Function.update (Function.update L k v) h (some xs)) := by
  have hval : ∀ g zs, Function.update (Function.update L k v) h (some xs) g = some zs →
      g = h ∧ zs = xs ∨ g = k ∧ v = some zs ∨ g ≠ h ∧ g ≠ k ∧ L g = some zs := by
    intro g zs hg
    simp only [Function.update_apply] at hg
    grind
  refine H.change hkeep (fun g zs hg => ?_) (fun g₁ g₂ zs₁ zs₂ hg₁ hg₂ hT₁ hT₂ hne => ?_)
  · rcases hval g zs hg with ⟨rfl, rfl⟩ | ⟨rfl, hv⟩ | ⟨hgh, hgk, hL⟩
    · exact Or.inr ⟨hh, hsub⟩
    · exact Or.inr ⟨(hk zs hv).1, (hk zs hv).2.1⟩
    · exact Or.inl ⟨hL, hrest g zs hL hgh hgk⟩
  · rcases hval g₁ zs₁ hg₁ with ⟨rfl, rfl⟩ | ⟨rfl, hv₁⟩ | ⟨hgh, hgk, hL⟩
    · rcases hval g₂ zs₂ hg₂ with ⟨rfl, -⟩ | ⟨rfl, hv₂⟩ | ⟨hgh, hgk, hL⟩
      · exact absurd rfl hne
      · exact (hk zs₂ hv₂).2.2
      · exact absurd hT₂ (hrest g₂ zs₂ hL hgh hgk List.mem_cons_self)
    · rcases hval g₂ zs₂ hg₂ with ⟨rfl, rfl⟩ | ⟨rfl, -⟩ | ⟨hgh, hgk, hL⟩
      · exact List.disjoint_symm (hk zs₁ hv₁).2.2
      · exact absurd rfl hne
      · exact absurd hT₂ (hrest g₂ zs₂ hL hgh hgk List.mem_cons_self)
    · exact absurd hT₁ (hrest g₁ zs₁ hL hgh hgk List.mem_cons_self)

/-- A node of the circles that have changed, but not of the new one, is on no circle. -/
theorem Circles.not_onCircle_update {g : ν} (H : Circles l L) (hg : L g = some zs)
    (hx : x ∈ g :: zs) (hgk : g = h ∨ g = k) (hout : x ∉ h :: xs) :
    ¬ OnCircle (Function.update (Function.update L k none) h (some xs)) x := by
  rintro ⟨g', ws, hg', hm⟩
  by_cases hh : g' = h
  · obtain rfl := hh
    obtain rfl : xs = ws := by simpa using hg'
    exact hout hm
  by_cases hk : g' = k
  · rw [Function.update_of_ne hh, hk, Function.update_self] at hg'
    exact absurd hg' (by simp)
  · have hL : L g' = some ws := by simpa [Function.update_apply, hh, hk] using hg'
    obtain rfl := H.head_eq hL hg hm hx
    exact hgk.elim hh hk

/-- One circle changes by a node that is on it, or that is free. -/
theorem Circles.update_one (H : Circles l L) (hh : L h = some xs) (hr : Ring l' h ys)
    (hframe : Frame l l' n (h :: xs)) (hsub : ys ⊆ n :: xs) (hn : Free L n ∨ n ∈ xs) :
    Circles l' (Function.update (Function.update L n none) h (some ys)) := by
  refine H.update (T := n :: h :: xs) (fun y hy => ?_) (fun g zs hg hgh hgn => ?_) hr ?_
    (fun zs hv => absurd hv (by simp))
  · rw [List.mem_cons, not_or] at hy
    exact hframe y hy.1 hy.2
  · rcases hn with hn | hn
    · exact H.rest hh hn hg hgh hgn
    · have hdis := H.apart g h zs xs hg hh hgh
      rw [List.disjoint_cons_right]
      exact ⟨fun hm => hdis hm (List.mem_cons_of_mem h hn), hdis⟩
  · intro y hy
    rcases List.mem_cons.mp hy with rfl | hy
    · simp
    · have := hsub hy
      simp only [List.mem_cons] at this ⊢
      tauto

/-- A free node becomes the head of an empty list. -/
theorem Circles.init (H : Circles l L) (hn : Free L n) :
    Circles (l.initListHead n) (Function.update L n (some [])) := by
  have hself : Ring (l.initListHead n) n [] := ring_nil (by simp [initListHead, setNext, setPrev])
    (by simp [initListHead, setNext, setPrev])
  rw [← Function.update_idem (a := n) (none : Option (List ν)) (some []) L]
  refine H.update (T := [n]) (fun y hy => ?_) (fun g zs hg hgn _ => ?_) hself
    (List.Subset.refl _) (fun zs hv => absurd hv (by simp))
  · rw [List.mem_singleton] at hy
    simp [Same, initListHead, setNext, setPrev, Function.update_of_ne hy]
  · rw [List.disjoint_singleton]
    exact fun hm => hgn (hn g zs hg hm).1

theorem same_initListHead (hy : y ≠ n) : Same l (l.initListHead n) y := by
  simp [Same, initListHead, setNext, setPrev, Function.update_of_ne hy]

/-! #### Removing a node -/

/-- The node is on a list, or alone on its circle. -/
def Linked (L : HeadLists ν) (x : ν) : Prop := (∃ h xs, L h = some xs ∧ x ∈ xs) ∨ L x = some []

/-- The lists without the node. -/
def remove (L : HeadLists ν) (x : ν) : HeadLists ν := fun h =>
  if h = x then none else (L h).map fun xs => xs.erase x

theorem remove_eq_some (hh : remove L x h = some xs) :
    h ≠ x ∧ ∃ ys, L h = some ys ∧ xs = ys.erase x := by
  unfold remove at hh
  split at hh
  · exact absurd hh (by simp)
  · obtain ⟨ys, hL, rfl⟩ := Option.map_eq_some_iff.mp hh
    exact ⟨‹_›, ys, hL, rfl⟩

theorem Circles.remove_eq (H : Circles l L) (hh : L h = some (xs ++ x :: ys)) :
    remove L x = Function.update (Function.update L x none) h (some (xs ++ ys)) := by
  have hnd := (List.nodup_cons.mp (H.ring h _ hh).nodup).2
  have hx : x ∉ xs := fun hm => List.disjoint_of_nodup_append hnd hm List.mem_cons_self
  have hxh : h ≠ x := fun e => H.head_not_mem hh hh (e ▸ by simp)
  funext g
  simp only [remove, Function.update_apply]
  by_cases hgx : g = x
  · simp [hgx, hxh.symm]
  by_cases hgh : g = h
  · simp [hgh, hxh, hh, List.erase_append_right _ hx]
  rw [if_neg hgx, if_neg hgh, if_neg hgx]
  cases hg : L g with
  | none => rfl
  | some zs =>
    have hxz : x ∉ zs := fun hm =>
      hgh (H.head_eq hg hh (List.mem_cons_of_mem g hm) (by simp))
    rw [Option.map_some, List.erase_of_not_mem hxz]

theorem Circles.not_onCircle_remove (H : Circles l L) : ¬ OnCircle (remove L x) x := by
  rintro ⟨h, xs, hh, hm⟩
  obtain ⟨hne, ys, hL, rfl⟩ := remove_eq_some hh
  rcases List.mem_cons.mp hm with rfl | hm
  · exact absurd rfl hne
  · have hnd := (List.nodup_cons.mp (H.ring h ys hL).nodup).2
    exact absurd rfl (hnd.mem_erase_iff.mp hm).1

theorem near_of_remove (hy : Near (remove L x) ns y) : Near L ns y := by
  rcases hy with hy | ⟨h, xs, hh, hyx, z, hz, hzx⟩
  · exact Or.inl hy
  · obtain ⟨-, ys, hL, rfl⟩ := remove_eq_some hh
    have hsub : h :: ys.erase x ⊆ h :: ys := List.cons_subset_cons h List.erase_subset
    exact Or.inr ⟨h, ys, hL, hsub hyx, z, hz, hsub hzx⟩

/-- Closing a circle over a node takes the node from its list. -/
theorem Circles.unlink (H : Circles l L) (hx : Linked L x) :
    ∃ p q, l.prev x = some p ∧ l.next x = some q ∧ Circles (l.unlink p q) (remove L x) ∧
      ∀ y, ¬ Near L [x] y → Same l (l.unlink p q) y := by
  rcases hx with ⟨h, ws, hh, hx⟩ | hx
  · obtain ⟨xs, ys, rfl⟩ := List.append_of_mem hx
    obtain ⟨as, bs, a, b, c⟩ := exists_cut h xs ys
    have hr := H.ring h _ hh
    obtain ⟨hprev, hnext⟩ := hr.mem c
    refine ⟨a, b, hprev, hnext, ?_, fun y hy => ?_⟩
    · rw [H.remove_eq hh]
      refine H.update_one hh (hr.unlink c) c.frame_unlink ?_ (Or.inr hx)
      intro y hy
      simp only [List.mem_cons, List.mem_append] at hy ⊢
      tauto
    · exact same_of_frame (c.frame_unlink (l := l) (x := x)) hh (List.mem_singleton_self x)
        (List.mem_singleton_self x) (List.mem_cons_of_mem h hx) hy
  · -- alone, the node is its own neighbour
    have hr := H.ring x [] hx
    obtain ⟨-, hc⟩ := ring_iff_isChain.mp hr
    obtain ⟨hnext, hprev⟩ := List.isChain_pair.mp hc
    have hsame : l.unlink x x = l := by
      have hn : Function.update l.next x (some x) = l.next := by rw [← hnext, Function.update_eq_self]
      have hp : Function.update l.prev x (some x) = l.prev := by rw [← hprev, Function.update_eq_self]
      simp [Links.unlink, setNext, setPrev, hn, hp]
    rw [← hsame] at H
    refine ⟨x, x, hprev, hnext, H.mono fun h xs hh => ?_, fun y _ => by rw [hsame]; exact ⟨rfl, rfl⟩⟩
    obtain ⟨hne, ys, hL, rfl⟩ := remove_eq_some hh
    have hxy : x ∉ ys := fun hm =>
      hne (H.head_eq hL hx (List.mem_cons_of_mem h hm) List.mem_cons_self)
    rwa [List.erase_of_not_mem hxy]

/-! #### Adding a node -/

/-- The lists with `n` in front of that of `h`. -/
def pushFront (L : HeadLists ν) (n h : ν) : HeadLists ν :=
  Function.update (Function.update L n none) h (some (n :: contents L h))

/-- The lists with `n` behind that of `h`. -/
def pushBack (L : HeadLists ν) (n h : ν) : HeadLists ν :=
  Function.update (Function.update L n none) h (some (contents L h ++ [n]))

theorem Circles.listAdd (H : Circles l L) (hh : L h = some xs) (hn : Free L n) (hne : n ≠ h) :
    ∃ l', l.listAdd n h = some l' ∧ Circles l' (pushFront L n h) ∧
      ∀ y, ¬ Near L [n, h] y → Same l l' y := by
  obtain ⟨l', hadd, hr, hframe⟩ := (H.ring h xs hh).listAdd_head (hn.not_mem hh hne)
  refine ⟨l', hadd, ?_, fun y =>
    same_of_frame hframe hh (by simp) (x := h) (by simp) List.mem_cons_self⟩
  rw [pushFront, contents_eq hh]
  exact H.update_one hh hr hframe (List.Subset.refl _) (Or.inl hn)

theorem Circles.listAddTail (H : Circles l L) (hh : L h = some xs) (hn : Free L n) (hne : n ≠ h) :
    ∃ l', l.listAddTail n h = some l' ∧ Circles l' (pushBack L n h) ∧
      ∀ y, ¬ Near L [n, h] y → Same l l' y := by
  obtain ⟨l', hadd, hr, hframe⟩ := (H.ring h xs hh).listAddTail (hn.not_mem hh hne)
  refine ⟨l', hadd, ?_, fun y =>
    same_of_frame hframe hh (by simp) (x := h) (by simp) List.mem_cons_self⟩
  rw [pushBack, contents_eq hh]
  exact H.update_one hh hr hframe (by simp) (Or.inl hn)

/-! #### Joining and cutting circles -/

theorem Circles.splice {es fs : List ν} (H : Circles l L) (hh : L h = some (xs ++ ys))
    (c : Cut h xs ys as bs a b) (hk : L k = some zs) (hne : k ≠ h) (hfirst : zs = f :: fs)
    (hlast : zs = es ++ [e]) :
    Circles (l.splice f e a b)
        (Function.update (Function.update L k none) h (some (xs ++ (zs ++ ys)))) ∧
      ∀ y, ¬ Near L [k, h] y → Same l (l.splice f e a b) y := by
  have hdis := H.apart h k _ _ hh hk hne.symm
  have hfz : f ∈ zs := by simp [hfirst]
  have hez : e ∈ zs := by simp [hlast]
  have hkeep : ∀ y ∉ (h :: (xs ++ ys)) ++ (k :: zs), Same l (l.splice f e a b) y := by
    intro y hy
    rw [List.mem_append, not_or] at hy
    have hya : y ≠ a := fun e => hy.1 (e ▸ c.mem_left)
    have hyb : y ≠ b := fun e => hy.1 (e ▸ c.mem_right)
    have hyf : y ≠ f := fun e => hy.2 (e ▸ List.mem_cons_of_mem k hfz)
    have hye : y ≠ e := fun e' => hy.2 (e' ▸ List.mem_cons_of_mem k hez)
    exact ⟨splice_next_of_ne hya hye, splice_prev_of_ne hyf hyb⟩
  refine ⟨?_, fun y hy => hkeep y fun hm => hy ?_⟩
  · refine H.update (T := (h :: (xs ++ ys)) ++ (k :: zs)) hkeep (fun g ws hg hgh hgk => ?_)
      ((H.ring h _ hh).splice c (H.ring k zs hk) hfirst hlast hdis) ?_
      (fun zs hv => absurd hv (by simp))
    · rw [List.disjoint_append_right]
      exact ⟨H.apart g h ws _ hg hh hgh, H.apart g k ws zs hg hk hgk⟩
    · intro y hy
      simp only [List.mem_cons, List.mem_append] at hy ⊢
      tauto
  · rcases List.mem_append.mp hm with hm | hm
    · exact near_of_head hh (by simp) hm
    · exact near_of_head hk (by simp) hm

theorem Circles.cutOff {fs : List ν} (H : Circles l L) (hh : L h = some (xs ++ e :: ys))
    (hk : Free L k) (hne : k ≠ h) (hfirst : xs ++ [e] = f :: fs) (hrest : ys ++ [h] = b :: bs) :
    Circles (l.cutOff k h f e b)
        (Function.update (Function.update L k (some (xs ++ [e]))) h (some ys)) ∧
      ∀ y, ¬ Near L [k, h] y → Same l (l.cutOff k h f e b) y := by
  have hkn := hk.not_mem hh hne
  obtain ⟨hrk, hrh⟩ := (H.ring h _ hh).cutOff hkn hfirst hrest
  have hfm : f ∈ xs ++ [e] := by simp [hfirst]
  have hbm : b ∈ ys ++ [h] := by simp [hrest]
  have hkeep : ∀ y ∉ k :: h :: (xs ++ e :: ys), Same l (l.cutOff k h f e b) y := by
    intro y hy
    simp only [List.mem_cons, List.mem_append, List.not_mem_nil, or_false] at hy hfm hbm
    have hyf : y ≠ f := by
      rintro rfl
      tauto
    have hyb : y ≠ b := by
      rintro rfl
      tauto
    exact ⟨cutOff_next_of_ne (by tauto) (by tauto) (by tauto),
      cutOff_prev_of_ne (by tauto) hyf hyb⟩
  refine ⟨?_, fun y hy => hkeep y fun hm => hy ?_⟩
  · refine H.update hkeep (fun g ws hg hgh hgk => H.rest hh hk hg hgh hgk) hrh ?_ ?_
    · intro y hy
      simp only [List.mem_cons, List.mem_append] at hy ⊢
      tauto
    · rintro zs hv
      obtain rfl : xs ++ [e] = zs := Option.some.inj hv
      refine ⟨hrk, fun y hy => ?_, ?_⟩
      · simp only [List.mem_cons, List.mem_append, List.not_mem_nil, or_false] at hy ⊢
        tauto
      · -- what is left behind the head does not come before the cut
        have hnd := (H.ring h _ hh).nodup
        rintro y hy hyk
        rcases List.mem_cons.mp hyk with rfl | hyk
        · exact hkn (by simp only [List.mem_cons, List.mem_append] at hy ⊢; tauto)
        · have hperm : (h :: (xs ++ e :: ys)).Perm ((xs ++ [e]) ++ h :: ys) := by
            have hm : ((xs ++ [e]) ++ h :: ys).Perm (h :: ((xs ++ [e]) ++ ys)) := List.perm_middle
            simpa using hm.symm
          exact List.disjoint_of_nodup_append (hperm.nodup_iff.mp hnd) hyk hy
  · rcases List.mem_cons.mp hm with rfl | hm
    · exact near_of_mem (by simp)
    · exact near_of_head hh (by simp) hm

end Families

end Links
