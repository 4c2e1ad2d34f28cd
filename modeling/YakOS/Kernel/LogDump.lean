import YakOS.Kernel.Log

/-!
# Printing the kernel log

`kmsg_dump` starts at `log_first_idx` and steps with `log_next` before it prints, and stops when
it is at `log_next_idx`.  The records it steps to are those the writer has laid down, through the
end of buffer marker too; the record it starts from is never printed.

The texts are those `_dvprintf` hands to `log_store`: at most 256 bytes with the terminating zero
among them, so that `puts` stops inside the record.

## Main definitions

* `putsString`, `dumpLoop`, `kmsgDump` — the code; the result is what `puts` is called with.
* `retainedTexts` — the texts of the records from `log_first_seq` to `log_next_seq - 1`.

## Main results

* `LogInv.kmsgDump` — **the dump ends and prints every retained record but the oldest**.
* `kmsg_dump_iff` — it prints all of them exactly when nothing has been logged.
-/

namespace YakOS

open Bytes

/-- The string `puts` prints from address `a` on, if it ends within `fuel` bytes. -/
def putsString (buf : ℕ → UInt8) : ℕ → ℕ → Option (List UInt8)
  | 0, _ => none
  | fuel + 1, a =>
    if buf a = 0 then some [] else (putsString buf fuel (a + 1)).map fun str => buf a :: str

/-- The loop of `kmsg_dump`, within `fuel` rounds: the strings printed. -/
def dumpLoop (buf : ℕ → UInt8) (nextIdx : ℕ) : ℕ → ℕ → Option (List (List UInt8))
  | 0, _ => none
  | fuel + 1, idx =>
    let currentIdx := logNext buf idx
    if currentIdx = nextIdx then some []
    else do
      let currentText ← putsString buf fuel (logFromIdx buf currentIdx + logHdr)
      let rest ← dumpLoop buf nextIdx fuel currentIdx
      return currentText :: rest

/-- `kmsg_dump`. -/
def kmsgDump (s : LogState) (fuel : ℕ) : Option (List (List UInt8)) :=
  if s.firstIdx = s.nextIdx then some [] else dumpLoop s.buf s.nextIdx fuel s.firstIdx

/-- The texts of the retained records, oldest first, up to their terminating zero. -/
def retainedTexts (s : LogState) : List (List UInt8) :=
  (logWalk s.buf (s.nextSeq - s.firstSeq) s.firstIdx).1.map fun r => cString r.text

/-- `kmsg_dump` ends and prints the texts of all retained records, each once and in order. -/
def DumpsAll (s : LogState) : Prop :=
  ∃ rounds, ∀ fuel, rounds ≤ fuel → kmsgDump s fuel = some (retainedTexts s)

/-- What `_dvprintf` passes to `log_store`. -/
def Printed (m : ℕ × List UInt8) : Prop := m.2.length ≤ 256 ∧ 0 ∈ m.2

instance (m : ℕ × List UInt8) : Decidable (Printed m) := inferInstanceAs (Decidable (_ ∧ _))

/-! ### One record -/

theorem read_succ (buf : ℕ → UInt8) (a n : ℕ) : read buf a (n + 1) = buf a :: read buf (a + 1) n := by
  rw [Nat.add_comm n 1, read_append]
  rfl

/-- `puts` stops at the first zero. -/
theorem putsString_eq {buf : ℕ → UInt8} {n : ℕ} :
    ∀ {a fuel : ℕ}, 0 ∈ read buf a n → n ≤ fuel →
      putsString buf fuel a = some (cString (read buf a n)) := by
  induction n with
  | zero =>
    intro a fuel hzero _
    exact absurd hzero List.not_mem_nil
  | succ n ih =>
    intro a fuel hzero hfuel
    obtain ⟨f, rfl⟩ := Nat.exists_eq_add_of_le' (Nat.one_le_of_lt hfuel)
    rw [read_succ] at hzero ⊢
    rw [putsString]
    by_cases h : buf a = 0
    · rw [if_pos h, h]
      rfl
    · have hrest : 0 ∈ read buf (a + 1) n := (List.mem_cons.mp hzero).resolve_left (Ne.symm h)
      rw [if_neg h, ih hrest (Nat.le_of_succ_le_succ hfuel)]
      simp [cString, h]

/-- The text of a record. -/
theorem RecordAt.putsString {buf : ℕ → UInt8} {i fuel : ℕ} {m : ℕ × List UInt8}
    (h : RecordAt buf i m) (hm : Printed m) (hfuel : 256 ≤ fuel) :
    putsString buf fuel (i + logHdr) = some (cString m.2) := by
  have hzero : 0 ∈ read buf (i + logHdr) m.2.length := by
    rw [h.text]
    exact hm.2
  rw [putsString_eq hzero (hm.1.trans hfuel), h.text]

/-! ### The records behind the first -/

/-- A round that comes to a record that is not the end. -/
theorem dumpLoop_step {buf : ℕ → UInt8} {nextIdx i j fuel : ℕ} {m : ℕ × List UInt8}
    {rest : List (List UInt8)} (hnext : logNext buf i = j) (hne : j ≠ nextIdx)
    (hrec : RecordAt buf (logFromIdx buf j) m) (hm : Printed m) (hfuel : 256 ≤ fuel)
    (hrest : dumpLoop buf nextIdx fuel j = some rest) :
    dumpLoop buf nextIdx (fuel + 1) i = some (cString m.2 :: rest) := by
  rw [dumpLoop]
  simp only [hnext]
  rw [if_neg hne, hrec.putsString hm hfuel, hrest]
  rfl

/-- From the first record of a run up to `log_next_idx` the loop prints the others. -/
theorem Seg.dumpLoop {buf : ℕ → UInt8} {nextIdx : ℕ} {ms : List (ℕ × List UInt8)} :
    ∀ {i fuel : ℕ} {m : ℕ × List UInt8}, Seg buf i (m :: ms) nextIdx → (∀ m ∈ ms, Printed m) →
      256 + ms.length < fuel →
      dumpLoop buf nextIdx fuel i = some (ms.map fun m => cString m.2) := by
  induction ms with
  | nil =>
    intro i fuel m hseg _ hfuel
    obtain ⟨f, rfl⟩ := Nat.exists_eq_add_of_le' (Nat.one_le_of_lt hfuel)
    have hend : logNext buf i = nextIdx := hseg.1.logNext_eq.trans hseg.2
    rw [YakOS.dumpLoop]
    simp only [hend, if_true, List.map_nil]
  | cons m' ms ih =>
    intro i fuel m hseg hms hfuel
    obtain ⟨f, rfl⟩ := Nat.exists_eq_add_of_le' (Nat.one_le_of_lt hfuel)
    rw [List.length_cons] at hfuel
    have hlt := hseg.2.lt_of_ne_nil (List.cons_ne_nil m' ms)
    have hrec : RecordAt buf (logFromIdx buf (i + recordSize m.2.length)) m' := by
      rw [hseg.2.1.logFromIdx_eq]
      exact hseg.2.1
    apply dumpLoop_step hseg.1.logNext_eq (by omega) hrec (hms m' List.mem_cons_self) (by omega)
    exact ih hseg.2 (fun x hx => hms x (List.mem_cons_of_mem m' hx)) (by omega)

/-- At the end of buffer marker the loop goes on as from the start of the buffer. -/
theorem dumpLoop_of_mark {buf : ℕ → UInt8} {nextIdx w : ℕ} {m : ℕ × List UInt8}
    (hmark : msgLen buf w = 0) (hrec : RecordAt buf 0 m) (fuel : ℕ) :
    dumpLoop buf nextIdx fuel w = dumpLoop buf nextIdx fuel 0 := by
  have hnext : logNext buf w = logNext buf 0 := by
    rw [hrec.logNext_eq, logNext, if_pos hmark, hrec.len, Nat.zero_add]
  cases fuel with
  | zero => rfl
  | succ fuel => simp only [dumpLoop, hnext]

/-- From a record before the end of buffer marker the loop prints the records up to the marker and
those from the start of the buffer on. -/
theorem Seg.dumpLoop_wrapped {buf : ℕ → UInt8} {nextIdx w : ℕ} {m₂ : ℕ × List UInt8}
    {ms₁ ms₂ : List (ℕ × List UInt8)} (hmark : msgLen buf w = 0)
    (hseg₂ : Seg buf 0 (m₂ :: ms₂) nextIdx) (hms₂ : ∀ m ∈ m₂ :: ms₂, Printed m) :
    ∀ {i fuel : ℕ} {m : ℕ × List UInt8}, Seg buf i (m :: ms₁) w → nextIdx < i →
      (∀ m ∈ ms₁, Printed m) → 258 + (ms₁.length + ms₂.length) < fuel →
      YakOS.dumpLoop buf nextIdx fuel i =
        some ((ms₁ ++ m₂ :: ms₂).map fun m => cString m.2) := by
  induction ms₁ with
  | nil =>
    intro i fuel m hseg hgap _ hfuel
    obtain ⟨f, rfl⟩ := Nat.exists_eq_add_of_le' (Nat.one_le_of_lt hfuel)
    rw [List.length_nil] at hfuel
    have hw : logNext buf i = w := hseg.1.logNext_eq.trans hseg.2
    have hle := hseg.le
    have hrec : RecordAt buf (logFromIdx buf w) m₂ := by
      rw [logFromIdx, if_pos hmark]
      exact hseg₂.1
    apply dumpLoop_step hw (by omega) hrec (hms₂ m₂ List.mem_cons_self) (by omega)
    rw [dumpLoop_of_mark hmark hseg₂.1]
    exact hseg₂.dumpLoop (fun x hx => hms₂ x (List.mem_cons_of_mem m₂ hx)) (by omega)
  | cons m' ms₁ ih =>
    intro i fuel m hseg hgap hms₁ hfuel
    obtain ⟨f, rfl⟩ := Nat.exists_eq_add_of_le' (Nat.one_le_of_lt hfuel)
    rw [List.length_cons] at hfuel
    have hrec : RecordAt buf (logFromIdx buf (i + recordSize m.2.length)) m' := by
      rw [hseg.2.1.logFromIdx_eq]
      exact hseg.2.1
    apply dumpLoop_step hseg.1.logNext_eq (by omega) hrec (hms₁ m' List.mem_cons_self) (by omega)
    exact ih hseg.2 (by omega) (fun x hx => hms₁ x (List.mem_cons_of_mem m' hx)) (by omega)

/-! ### The dump -/

/-- **`kmsg_dump` ends and prints every retained record but the oldest.** -/
theorem LogInv.kmsgDump {s : LogState} {ms : List (ℕ × List UInt8)} (h : LogInv s ms)
    (hms : ∀ m ∈ ms, Printed m) {fuel : ℕ} (hfuel : 259 + ms.length ≤ fuel) :
    kmsgDump s fuel = some (ms.tail.map fun m => cString m.2) := by
  unfold YakOS.kmsgDump
  rcases h.layout with ⟨hseg, -⟩ | ⟨w, ms₁, ms₂, rfl, hne, hseg₁, hmark, -, hseg₂, hgap⟩
  · cases ms with
    | nil => exact if_pos hseg
    | cons m ms =>
      have hlt := hseg.lt_of_ne_nil (List.cons_ne_nil m ms)
      rw [List.length_cons] at hfuel
      rw [if_neg (by omega)]
      exact hseg.dumpLoop (fun x hx => hms x (List.mem_cons_of_mem m hx)) (by omega)
  · cases ms₂ with
    | nil => exact absurd rfl hne
    | cons m₂ ms₂ =>
      rw [if_neg (by omega)]
      rw [List.length_append, List.length_cons] at hfuel
      have hms₂ : ∀ m ∈ m₂ :: ms₂, Printed m := fun x hx => hms x (List.mem_append_right ms₁ hx)
      cases ms₁ with
      | nil =>
        -- the oldest record stands at the start of the buffer
        obtain rfl : s.firstIdx = w := hseg₁
        rw [dumpLoop_of_mark hmark hseg₂.1]
        rw [List.length_nil] at hfuel
        exact hseg₂.dumpLoop (fun x hx => hms₂ x (List.mem_cons_of_mem m₂ hx)) (by omega)
      | cons m ms₁ =>
        rw [List.length_cons] at hfuel
        refine Seg.dumpLoop_wrapped hmark hseg₂ hms₂ hseg₁ hgap (fun x hx => ?_) (by omega)
        exact hms x (List.mem_append_left _ (List.mem_cons_of_mem m hx))

/-- The texts the reader of the log finds are those of the messages. -/
theorem LogInv.retainedTexts_eq {s : LogState} {ms : List (ℕ × List UInt8)} (h : LogInv s ms) :
    retainedTexts s = ms.map fun m => cString m.2 := by
  have hrecs := h.logWalk.2
  unfold retainedTexts
  generalize (YakOS.logWalk s.buf (s.nextSeq - s.firstSeq) s.firstIdx).1 = rs at hrecs
  clear h
  induction hrecs with
  | nil => rfl
  | cons hr _ ih => rw [List.map_cons, List.map_cons, ih, hr.1]

theorem logStoreAll_append {s : LogState} {ms ms' : List (ℕ × List UInt8)} :
    logStoreAll s (ms ++ ms') = (logStoreAll s ms).bind fun s' => logStoreAll s' ms' := by
  induction ms generalizing s with
  | nil => rfl
  | cons m ms ih =>
    simp only [List.cons_append, logStoreAll]
    cases logStore s m.1 m.2 with
    | none => rfl
    | some s₁ => exact ih

/-- The last message is retained. -/
theorem firstSeq_lt_nextSeq {msgs : List (ℕ × List UInt8)} (hne : msgs ≠ [])
    (hlen : ∀ m ∈ msgs, m.2.length ≤ 256) {s : LogState}
    (hs : logStoreAll logInit msgs = some s) : s.firstSeq < s.nextSeq := by
  rw [← List.dropLast_append_getLast hne] at hs hlen
  generalize msgs.dropLast = init at hs hlen
  generalize msgs.getLast hne = m at hs hlen
  obtain ⟨s₁, k, hs₁, hinv₁⟩ := logInv_logStoreAll init logInit [] 0
    (fun x hx => hlen x (List.mem_append_left _ hx)) logInv_init
  obtain ⟨j, s₂, hs₂, hinv₂⟩ := logInv_logStore hinv₁ m
    (hlen m (List.mem_append_right _ (List.mem_singleton_self m)))
  have hsame : s₂ = s := by
    rw [logStoreAll_append, hs₁, Option.bind_some, logStoreAll, hs₂] at hs
    exact Option.some.inj hs
  have hseq := hinv₂.seq
  rw [List.length_append, List.length_singleton, hsame] at hseq
  omega

/-- **The dump of the log.**  After any sequence of messages `kmsg_dump` ends, and prints the texts
of the retained records but for the oldest one: it prints all of them exactly when there is none,
that is, when nothing has been logged. -/
theorem kmsg_dump_iff (msgs : List (ℕ × List UInt8)) (hmsgs : ∀ m ∈ msgs, Printed m) :
    ∃ s, logStoreAll logInit msgs = some s ∧
      (∃ rounds, ∀ fuel, rounds ≤ fuel → kmsgDump s fuel = some (retainedTexts s).tail) ∧
      (DumpsAll s ↔ msgs = []) := by
  obtain ⟨s, k, hs, hinv⟩ := logInv_logStoreAll msgs logInit [] 0 (fun m hm => (hmsgs m hm).1)
    logInv_init
  rw [List.nil_append] at hinv
  have hdump : ∀ fuel, 259 + (msgs.drop k).length ≤ fuel →
      kmsgDump s fuel = some (retainedTexts s).tail := by
    intro fuel hfuel
    rw [hinv.kmsgDump (fun m hm => hmsgs m (List.mem_of_mem_drop hm)) hfuel, hinv.retainedTexts_eq,
      List.map_tail]
  refine ⟨s, hs, ⟨_, hdump⟩, fun ⟨rounds, hall⟩ => ?_,
    fun hnil => ⟨259 + (msgs.drop k).length, fun fuel hfuel => ?_⟩⟩
  · by_contra hne
    have hlt := firstSeq_lt_nextSeq hne (fun m hm => (hmsgs m hm).1) hs
    have hseq := hinv.seq
    have hboth : retainedTexts s = (retainedTexts s).tail :=
      Option.some.inj ((hall _ (Nat.le_max_left _ _)).symm.trans (hdump _ (Nat.le_max_right _ _)))
    have hcount := congrArg List.length hboth
    rw [List.length_tail, hinv.retainedTexts_eq, List.length_map] at hcount
    omega
  · subst hnil
    rw [hdump fuel hfuel, hinv.retainedTexts_eq, List.drop_nil]
    rfl

/-- Two messages: only the second is printed. -/
theorem kmsg_dump_iff_two :
    ∃ s, logStoreAll logInit [(0, [72, 105, 0]), (0, [111, 107, 0])] = some s ∧ ¬ DumpsAll s := by
  obtain ⟨s, hs, -, hiff⟩ := kmsg_dump_iff [(0, [72, 105, 0]), (0, [111, 107, 0])] (by decide)
  exact ⟨s, hs, fun h => absurd (hiff.mp h) (by decide)⟩

/-- A single message is not printed at all. -/
theorem kmsg_dump_misses_first :
    ¬ ∀ msgs, (∀ m ∈ msgs, Printed m) → ∀ s, logStoreAll logInit msgs = some s → DumpsAll s := by
  intro h
  have hstore : (logStoreAll logInit [(0, [72, 105, 0])]).any (fun s =>
      decide (s.firstIdx ≠ s.nextIdx ∧ logNext s.buf s.firstIdx = s.nextIdx ∧
        retainedTexts s = [[72, 105]])) = true := by
    decide +kernel
  obtain ⟨s, hs, hbad⟩ := (Option.any_eq_true _ _).mp hstore
  obtain ⟨hne, hnext, htexts⟩ := of_decide_eq_true hbad
  obtain ⟨rounds, hall⟩ := h _ (by decide) s hs
  have hdump := hall (rounds + 1) (Nat.le_succ rounds)
  rw [kmsgDump, if_neg hne, dumpLoop, htexts] at hdump
  simp [hnext] at hdump

end YakOS
