import Mathlib.Data.List.Basic
import YakOS.Lib.Run

/-!
# Programs that allocate

A program asks an allocator for memory and gives some of it back.  The memory is of
any type: it may be a heap, or the list of the answers to come.  A program keeps a
mark of a request that was refused, which it never reads.

A program is compared with a computation that needs no memory: it comes to the
same result, or has been refused a request and fails.  For a program whose requests
are known beforehand the two cases are told apart by serving them.

## Main definitions

* `Allocator`, `Allocator.Prog` — allocators, and programs over them.
* `Allocator.Outcome` — the result of a program beside that of a computation.
* `Request`, `Allocator.serveAll` — requests, and the memory behind them.
* `Allocator.served` — how often a request is granted in a row.
* `Allocator.Asks` — a program that makes these requests.

## Main results

* `Outcome.bind` — one program after another.
* `Asks.bind`, `Asks.succ` — the same for programs with fuel whose requests are known.
-/

/-- An allocator: what a request returns, with the memory behind it, and the memory
behind a release. -/
structure Allocator (μ : Type) where
  alloc : μ → ℕ → Option ℕ × μ
  free : μ → ℕ → μ

/-- A request for a block that is kept, or for one that is given back before the next
request. -/
inductive Request
  | keep (size : ℕ)
  | pass (size : ℕ)
  deriving DecidableEq, Repr

namespace Allocator

variable {μ α β : Type}

/-- The memory, and whether it has refused a request. -/
structure Store (μ : Type) where
  mem : μ
  refused : Bool

/-- A memory that has refused nothing. -/
def Store.fresh (m : μ) : Store μ := ⟨m, false⟩

/-- A memory that has refused a request. -/
def Store.spent (m : μ) : Store μ := ⟨m, true⟩

/-- A program; one that does not end has no result. -/
abbrev Prog (μ α : Type) := StateT (Store μ) Option α

theorem pure_apply (a : α) (s : Store μ) : (pure a : Prog μ α) s = some (a, s) := rfl

theorem bind_apply (x : Prog μ α) (k : α → Prog μ β) (s : Store μ) :
    (x >>= k) s = (x s).bind fun p => k p.1 p.2 := rfl

variable (H : Allocator μ)

/-- A request. -/
def request (size : ℕ) : Prog μ (Option ℕ) := fun s =>
  match H.alloc s.mem size with
  | (some p, m) => some (some p, ⟨m, s.refused⟩)
  | (none, m) => some (none, ⟨m, true⟩)

/-- A release. -/
def release (p : ℕ) : Prog μ Unit := fun s => some ((), ⟨H.free s.mem p, s.refused⟩)

theorem request_bind (size : ℕ) (k : Option ℕ → Prog μ α) (m : μ) :
    (H.request size >>= k) (.fresh m) =
      match H.alloc m size with
      | (some p, m) => k (some p) (.fresh m)
      | (none, m) => k none (.spent m) := by
  rw [bind_apply, request, Store.fresh]
  rcases H.alloc m size with ⟨_ | p, m'⟩ <;> rfl

theorem release_bind (p : ℕ) (k : Unit → Prog μ α) (m : μ) :
    (H.release p >>= k) (.fresh m) = k () (.fresh (H.free m p)) := rfl

/-! ### Programs beside computations without memory -/

/-- The program comes to what the computation comes to, or has been refused a request and
fails. -/
inductive Outcome (fails : α → Prop) : Option (α × Store μ) → Option α → Prop
  | stuck : Outcome fails none none
  | served (r : α) (m : μ) : Outcome fails (some (r, .fresh m)) (some r)
  | refused (r : α) (m : μ) (given : Option α) (h : fails r) : Outcome fails (some (r, .spent m)) given

namespace Outcome

variable {H} {fails : α → Prop} {fails' : β → Prop} {given : Option α} {m : μ} {size p : ℕ}

theorem mono {fails₁ : α → Prop} {x : Option (α × Store μ)} (h : Outcome fails x given)
    (hle : ∀ r, fails r → fails₁ r) : Outcome fails₁ x given := by
  cases h with
  | stuck => exact .stuck
  | served r m => exact .served r m
  | refused r m given h => exact .refused r m given (hle r h)

/-- **One program after another.** -/
theorem bind {x : Prog μ α} {s : Store μ} {k : α → Prog μ β} {g : α → Option β}
    (h : Outcome fails (x s) given)
    (hserved : ∀ r m, given = some r → Outcome fails' (k r (.fresh m)) (g r))
    (hrefused : ∀ r m, fails r → ∃ r' m', fails' r' ∧ k r (.spent m) = some (r', .spent m')) :
    Outcome fails' ((x >>= k) s) (given >>= g) := by
  rw [bind_apply]
  generalize x s = y at h
  cases h with
  | stuck => exact .stuck
  | served r m => exact hserved r m rfl
  | refused r m given h =>
    obtain ⟨r', m', hr', heq⟩ := hrefused r m h
    rw [Option.bind_some, heq]
    exact .refused r' m' _ hr'

/-- A program beside a computation that always ends, and what follows it. -/
theorem after {x : Prog μ α} {s : Store μ} {k : α → Prog μ β} {a : α} {given' : Option β}
    (h : Outcome fails (x s) (some a)) (hserved : ∀ m, Outcome fails' (k a (.fresh m)) given')
    (hrefused : ∀ r m, fails r → ∃ r' m', fails' r' ∧ k r (.spent m) = some (r', .spent m')) :
    Outcome fails' ((x >>= k) s) given' := by
  have hbind := h.bind (g := fun _ => given') (fun r m hr => Option.some.inj hr ▸ hserved m) hrefused
  exact hbind

/-- A request, and what follows it. -/
theorem request {k : Option ℕ → Prog μ α}
    (hserved : ∀ p m, Outcome fails (k (some p) (.fresh m)) given)
    (hrefused : ∀ m, ∃ r m', fails r ∧ k none (.spent m) = some (r, .spent m')) :
    Outcome fails ((H.request size >>= k) (.fresh m)) given := by
  rw [request_bind]
  rcases H.alloc m size with ⟨_ | p, m'⟩
  · obtain ⟨r, m'', hr, heq⟩ := hrefused m'
    simp only [heq]
    exact .refused r m'' given hr
  · exact hserved p m'

/-- The program, when it is refused nothing. -/
theorem exists_of_granted {x : Option (α × Store μ)} {r : α} (h : Outcome fails x (some r))
    (hx : ∀ q ∈ x, q.2.refused = false) : ∃ m, x = some (r, .fresh m) := by
  cases h with
  | served r m => exact ⟨m, rfl⟩
  | refused r m given h => cases hx _ rfl

/-- What every result has that fails, and every one of the computation. -/
theorem of_some {x : Option (α × Store μ)} (h : Outcome fails x given) {r : α} {s : Store μ}
    (hx : x = some (r, s)) : given = some r ∨ fails r := by
  cases h with
  | stuck => cases hx
  | served r' m =>
    cases hx
    exact Or.inl rfl
  | refused r' m given h =>
    cases hx
    exact Or.inr h

end Outcome

/-! ### Requests -/

/-- The memory behind a request that is granted. -/
def serve (m : μ) : Request → Option μ
  | .keep size =>
    match H.alloc m size with
    | (some _, m) => some m
    | (none, _) => none
  | .pass size =>
    match H.alloc m size with
    | (some p, m) => some (H.free m p)
    | (none, _) => none

/-- The memory behind requests that are all granted. -/
def serveAll (m : μ) (qs : List Request) : Option μ := qs.foldlM H.serve m

/-- How many of `k` requests like `q`, one after another, are granted. -/
def served (q : Request) : μ → ℕ → ℕ
  | _, 0 => 0
  | m, k + 1 =>
    match H.serve m q with
    | some m => served q m k + 1
    | none => 0

/-- All the requests are granted. -/
def Grants (m : μ) (qs : List Request) : Prop := (H.serveAll m qs).isSome = true

instance (m : μ) (qs : List Request) : Decidable (H.Grants m qs) := inferInstanceAs (Decidable (_ = true))

@[simp] theorem serveAll_nil (m : μ) : H.serveAll m [] = some m := rfl

theorem serveAll_keep (m : μ) (size : ℕ) (qs : List Request) :
    H.serveAll m (.keep size :: qs) =
      match H.alloc m size with
      | (some _, m) => H.serveAll m qs
      | (none, _) => none := by
  show (H.serve m (.keep size)).bind _ = _
  rw [serve]
  rcases H.alloc m size with ⟨_ | p, m'⟩ <;> rfl

theorem serveAll_pass (m : μ) (size : ℕ) (qs : List Request) :
    H.serveAll m (.pass size :: qs) =
      match H.alloc m size with
      | (some p, m) => H.serveAll (H.free m p) qs
      | (none, _) => none := by
  show (H.serve m (.pass size)).bind _ = _
  rw [serve]
  rcases H.alloc m size with ⟨_ | p, m'⟩ <;> rfl

theorem serveAll_cons (m : μ) (q : Request) (qs : List Request) :
    H.serveAll m (q :: qs) = (H.serve m q).bind (H.serveAll · qs) := rfl

theorem serveAll_singleton (m : μ) (q : Request) : H.serveAll m [q] = H.serve m q := by
  rw [serveAll_cons]
  exact Option.bind_fun_some _

theorem serveAll_append (m : μ) (qs qs' : List Request) :
    H.serveAll m (qs ++ qs') = (H.serveAll m qs).bind (H.serveAll · qs') := List.foldlM_append ..

section Grants

variable {H} {m m' : μ} {size p : ℕ} {qs : List Request}

@[simp] theorem grants_nil : H.Grants m [] := rfl

theorem grants_keep (h : H.alloc m size = (some p, m')) :
    H.Grants m (.keep size :: qs) ↔ H.Grants m' qs := by
  unfold Grants
  rw [serveAll_keep, h]

theorem not_grants_keep (h : H.alloc m size = (none, m')) : ¬ H.Grants m (.keep size :: qs) := by
  unfold Grants
  rw [serveAll_keep, h]
  exact Bool.false_ne_true

theorem grants_pass (h : H.alloc m size = (some p, m')) :
    H.Grants m (.pass size :: qs) ↔ H.Grants (H.free m' p) qs := by
  unfold Grants
  rw [serveAll_pass, h]

theorem not_grants_pass (h : H.alloc m size = (none, m')) : ¬ H.Grants m (.pass size :: qs) := by
  unfold Grants
  rw [serveAll_pass, h]
  exact Bool.false_ne_true

end Grants

/-- A program with fuel makes these requests and comes to `r`; when one of them is refused, it
fails. -/
structure Asks (prog : ℕ → Prog μ α) (qs : List Request) (r : α) (fails : α → Prop) : Prop where
  granted : ∀ m m', H.serveAll m qs = some m' →
    Run.Yields (fun n => prog n (.fresh m)) (r, .fresh m')
  refused : ∀ m, H.serveAll m qs = none →
    ∃ r' m', fails r' ∧ Run.Yields (fun n => prog n (.fresh m)) (r', .spent m')

namespace Asks

variable {H} {prog : ℕ → Prog μ α} {prog' : ℕ → Prog μ β} {qs qs' : List Request} {r : α} {r' : β}
  {fails : α → Prop} {fails' : β → Prop} {size : ℕ}

/-- A program that makes no request. -/
theorem nil (h : ∀ n m, prog n (.fresh m) = some (r, .fresh m)) : H.Asks prog [] r fails where
  granted m m' hm := by
    cases hm
    exact Run.Yields.const fun n => h n m
  refused m hm := by cases hm

/-- A request for a block that is kept, with what follows it. -/
theorem keep {k : ℕ → Option ℕ → Prog μ α} (h : ∀ p, H.Asks (fun n => k n (some p)) qs r fails)
    (hfail : ∀ m, ∃ r' m', fails r' ∧ ∀ n, k n none (.spent m) = some (r', .spent m')) :
    H.Asks (fun n => H.request size >>= k n) (.keep size :: qs) r fails where
  granted m m' hm := by
    simp only [serveAll_keep, request_bind] at hm ⊢
    generalize H.alloc m size = x at hm ⊢
    obtain ⟨_ | p, m₁⟩ := x
    · cases hm
    · exact (h p).granted m₁ m' hm
  refused m hm := by
    simp only [serveAll_keep, request_bind] at hm ⊢
    generalize H.alloc m size = x at hm ⊢
    obtain ⟨_ | p, m₁⟩ := x
    · obtain ⟨r', m', hr', heq⟩ := hfail m₁
      exact ⟨r', m', hr', Run.Yields.const heq⟩
    · exact (h p).refused m₁ hm

/-- A request for a block that is given back, with what follows it. -/
theorem pass {k : ℕ → Option ℕ → Prog μ α} {k' : ℕ → Prog μ α}
    (hk : ∀ n p, k n (some p) = H.release p >>= fun _ => k' n) (h : H.Asks k' qs r fails)
    (hfail : ∀ m, ∃ r' m', fails r' ∧ ∀ n, k n none (.spent m) = some (r', .spent m')) :
    H.Asks (fun n => H.request size >>= k n) (.pass size :: qs) r fails where
  granted m m' hm := by
    simp only [serveAll_pass, request_bind] at hm ⊢
    generalize H.alloc m size = x at hm ⊢
    obtain ⟨_ | p, m₁⟩ := x
    · cases hm
    · simp only [hk, release_bind]
      exact h.granted (H.free m₁ p) m' hm
  refused m hm := by
    simp only [serveAll_pass, request_bind] at hm ⊢
    generalize H.alloc m size = x at hm ⊢
    obtain ⟨_ | p, m₁⟩ := x
    · obtain ⟨r', m', hr', heq⟩ := hfail m₁
      exact ⟨r', m', hr', Run.Yields.const heq⟩
    · simp only [hk, release_bind]
      exact h.refused (H.free m₁ p) hm

/-- **One program after another**, at the cost of a unit of fuel. -/
theorem succ (h : H.Asks prog qs r fails) {k : ℕ → α → Prog μ β} (hzero : ∀ s, prog' 0 s = none)
    (hsucc : ∀ n, prog' (n + 1) = prog n >>= k n) (hk : H.Asks (fun n => k n r) qs' r' fails')
    (hfail : ∀ x m, fails x → ∃ x' m', fails' x' ∧ ∀ n, k n x (.spent m) = some (x', .spent m')) :
    H.Asks prog' (qs ++ qs') r' fails' where
  granted m m' hm := by
    rw [serveAll_append] at hm
    obtain ⟨m₁, hm₁, hm'⟩ := Option.bind_eq_some_iff.mp hm
    refine (h.granted m m₁ hm₁).succ (k := fun n p => k n p.1 p.2) (hzero _) (fun n => ?_)
      (hk.granted m₁ m' hm')
    rw [hsucc, bind_apply]
  refused m hm := by
    rw [serveAll_append] at hm
    cases hm₁ : H.serveAll m qs with
    | none =>
      obtain ⟨x, m₁, hx, hyields⟩ := h.refused m hm₁
      obtain ⟨x', m', hx', heq⟩ := hfail x m₁ hx
      refine ⟨x', m', hx', hyields.succ (k := fun n p => k n p.1 p.2) (hzero _) (fun n => ?_)
        (Run.Yields.const heq)⟩
      rw [hsucc, bind_apply]
    | some m₁ =>
      rw [hm₁, Option.bind_some] at hm
      obtain ⟨x', m', hx', hyields⟩ := hk.refused m₁ hm
      refine ⟨x', m', hx', (h.granted m m₁ hm₁).succ (k := fun n p => k n p.1 p.2) (hzero _)
        (fun n => ?_) hyields⟩
      rw [hsucc, bind_apply]

/-- A program that ends right behind another one. -/
theorem bind (h : H.Asks prog qs r fails) {k : ℕ → α → Prog μ β}
    (hk : ∀ n m, k n r (.fresh m) = some (r', .fresh m))
    (hfail : ∀ x m, fails x → ∃ x' m', fails' x' ∧ ∀ n, k n x (.spent m) = some (x', .spent m')) :
    H.Asks (fun n => prog n >>= k n) qs r' fails' where
  granted m m' hm := (h.granted m m' hm).bind (k := fun n p => k n p.1 p.2) fun n => hk n m'
  refused m hm := by
    obtain ⟨x, m₁, hx, hyields⟩ := h.refused m hm
    obtain ⟨x', m', hx', heq⟩ := hfail x m₁ hx
    exact ⟨x', m', hx', hyields.bind (k := fun n p => k n p.1 p.2) heq⟩

/-- A program that needs a unit of fuel. -/
theorem of_succ (hzero : ∀ s, prog 0 s = none) (h : H.Asks (fun n => prog (n + 1)) qs r fails) :
    H.Asks prog qs r fails := by
  have hnil : H.Asks (fun _ => (pure () : Prog μ Unit)) [] () (fun _ => False) := nil fun _ _ => rfl
  exact hnil.succ (k := fun n _ => prog (n + 1)) hzero (fun _ => rfl) h fun _ _ hfalse => hfalse.elim

end Asks

end Allocator
