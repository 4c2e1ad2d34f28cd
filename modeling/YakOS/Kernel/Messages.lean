import YakOS.Kernel.Format
import YakOS.Kernel.LogDump

/-!
# From `printk` to `kmsg_dump`

How much of what was printed the log still holds.  Messages are dropped only when neither end of the ring
has room for the new one, so what is left then takes all of the buffer but two gaps, each too small for a
record and an empty header.

## Main definitions

* `recordsSize` — the bytes that the records of messages take.
* `Packed` — in a wrapped log, the end of the buffer is used but for one gap.
* `PrintkCall`, `printkAll` — a sequence of calls of `printk`.

## Main results

* `Holds.storeAll` — what a sequence of messages leaves in the log.
* `log_keeps_latest` — **the log keeps the latest messages**, as long as their records leave room for two of
  the largest ones.
* `printk_reaches_kmsg` — **`kmsg_dump` prints the latest messages**, and the console all of them.
-/

namespace YakOS

open Bytes

/-! ### Room -/

/-- The bytes that the records of messages take. -/
def recordsSize (ms : List (ℕ × List UInt8)) : ℕ := (ms.map fun m => recordSize m.2.length).sum

section Room

variable {s : LogState} {m : ℕ × List UInt8} {ms : List (ℕ × List UInt8)} {largest size : ℕ}

@[simp] theorem recordsSize_nil : recordsSize [] = 0 := rfl

@[simp] theorem recordsSize_cons : recordsSize (m :: ms) = recordSize m.2.length + recordsSize ms :=
  List.sum_cons

@[simp] theorem recordsSize_append (ms ms' : List (ℕ × List UInt8)) :
    recordsSize (ms ++ ms') = recordsSize ms + recordsSize ms' := by
  unfold recordsSize
  rw [List.map_append, List.sum_append]

theorem Seg.add_recordsSize {buf : ℕ → UInt8} {i j : ℕ} (h : Seg buf i ms j) : i + recordsSize ms = j := by
  induction ms generalizing i with
  | nil => exact h
  | cons m ms ih => rw [recordsSize_cons, ← Nat.add_assoc, ih h.2]

/-- Where the log is wrapped, the gap at the end of the buffer is too small for a record and an empty
header. -/
def Packed (largest : ℕ) (s : LogState) (ms : List (ℕ × List UInt8)) : Prop :=
  s.nextIdx < s.firstIdx → logBufLen + s.nextIdx ≤ s.firstIdx + recordsSize ms + (largest + logHdr)

/-- Dropping the oldest record. -/
theorem Packed.drop (hp : Packed largest s (m :: ms)) (h : LogInv s (m :: ms)) :
    Packed largest { s with firstIdx := logNext s.buf s.firstIdx, firstSeq := s.firstSeq + 1 } ms := by
  intro hwrapped
  dsimp only at hwrapped ⊢
  rcases h.layout with ⟨hseg, -⟩ | ⟨w, ms₁, ms₂, hms, hne, hseg₁, hmark, -, hseg₂, hgap⟩
  · have hle := hseg.2.le
    rw [hseg.1.logNext_eq] at hwrapped
    omega
  · cases ms₁ with
    | nil =>
      -- what is left is one run from the start of the buffer
      obtain rfl : s.firstIdx = w := hseg₁
      obtain rfl : ms₂ = m :: ms := by simpa using hms.symm
      have hle := hseg₂.2.le
      rw [logNext, if_pos hmark, hseg₂.1.len] at hwrapped
      omega
    | cons m' ms₁ =>
      obtain ⟨rfl, rfl⟩ : m = m' ∧ ms = ms₁ ++ ms₂ := by simpa using hms
      have hroom := hp hgap
      rw [recordsSize_cons] at hroom
      rw [hseg₁.1.logNext_eq]
      omega

/-- A log without room for a record holds all of the buffer but two gaps. -/
theorem Packed.full (hp : Packed largest s ms) (h : LogInv s ms) (hne : ms ≠ []) (hsize : size ≤ largest)
    (hfree : ¬ logFree s > size + logHdr) : logBufLen ≤ recordsSize ms + 2 * (largest + logHdr) := by
  rcases h.layout with ⟨hseg, hnext⟩ | ⟨w, ms₁, ms₂, hms, hne', hseg₁, hmark, hw, hseg₂, hgap⟩
  · have htotal := hseg.add_recordsSize
    have hlt := hseg.lt_of_ne_nil hne
    have hb : logBufLen = 1024 := rfl
    rw [logFree, if_pos (by omega), Nat.add_sub_assoc (by omega), Nat.add_mod_left,
      Nat.mod_eq_of_lt (by omega)] at hfree
    omega
  · have hroom := hp hgap
    rw [logFree, if_neg (by omega)] at hfree
    omega

/-- The loop of `log_store` drops a message only from a log without room. -/
theorem evict_keeps (hsize : size ≤ largest) : ∀ (n : ℕ) (s : LogState) (ms : List (ℕ × List UInt8)),
    LogInv s ms → Packed largest s ms → n = ms.length →
    ∃ k ≤ ms.length, LogInv (evict size s n) (ms.drop k) ∧ Packed largest (evict size s n) (ms.drop k) ∧
      (ms.drop k = [] ∨ logFree (evict size s n) > size + logHdr) ∧
      ∀ j < k, logBufLen ≤ recordsSize (ms.drop j) + 2 * (largest + logHdr) := by
  intro n
  induction n with
  | zero =>
    intro s ms h hp hn
    obtain rfl : ms = [] := List.eq_nil_of_length_eq_zero hn.symm
    exact ⟨0, le_rfl, h, hp, Or.inl rfl, fun j hj => absurd hj (Nat.not_lt_zero j)⟩
  | succ n ih =>
    intro s ms h hp hn
    by_cases hfree : logFree s > size + logHdr
    · rw [evict, if_pos hfree]
      exact ⟨0, Nat.zero_le _, h, hp, Or.inr hfree, fun j hj => absurd hj (Nat.not_lt_zero j)⟩
    · cases ms with
      | nil => simp at hn
      | cons m ms =>
        obtain ⟨k, hk, h1, h2, h3, h4⟩ := ih _ ms (logInv_drop h) (hp.drop h) (by simpa using hn)
        rw [evict, if_neg hfree]
        refine ⟨k + 1, Nat.succ_le_succ hk, h1, h2, h3, fun j hj => ?_⟩
        cases j with
        | zero => exact hp.full h (List.cons_ne_nil m ms) hsize hfree
        | succ j => exact h4 j (Nat.lt_of_succ_lt_succ hj)

end Room

/-! ### Storing -/

section Storing

variable {s : LogState} {m : ℕ × List UInt8} {ms : List (ℕ × List UInt8)} {largest : ℕ}

theorem logStore_keeps (h : LogInv s ms) (hp : Packed largest s ms) (m : ℕ × List UInt8)
    (hm : m.2.length ≤ 256) (hlargest : recordSize m.2.length ≤ largest) :
    ∃ k ≤ ms.length, ∃ s', logStore s m.1 m.2 = some s' ∧ LogInv s' (ms.drop k ++ [m]) ∧
      Packed largest s' (ms.drop k ++ [m]) ∧
      ∀ j < k, logBufLen ≤ recordsSize (ms.drop j) + 2 * (largest + logHdr) := by
  have hn : s.nextSeq - s.firstSeq = ms.length := by
    rw [h.seq, Nat.add_sub_cancel_left]
  obtain ⟨k, hk, hinv, hpacked, hfree, hdropped⟩ := evict_keeps hlargest _ s ms h hp hn
  have hb : logBufLen = 1024 := rfl
  have hh : logHdr = 8 := rfl
  obtain ⟨hlo, hhi⟩ := recordSize_bounds hm
  refine ⟨k, hk, ?_⟩
  simp only [logStore]
  generalize evict (recordSize m.2.length) s (s.nextSeq - s.firstSeq) = e at hinv hpacked hfree ⊢
  by_cases hfit : e.nextIdx + recordSize m.2.length + logHdr ≥ logBufLen
  · obtain ⟨buf, s', hbuf, hs', hinv'⟩ := logInv_wrap hinv m hm hfree hfit
    obtain ⟨s'', hs'', -, -, hnext, -, hfirst, -⟩ :=
      fillMessage_spec { e with buf := buf, nextIdx := 0 } m hm (by dsimp only; omega)
    obtain rfl : s' = s'' := Option.some.inj (hs'.symm.trans hs'')
    refine ⟨s', ?_, hinv', fun hwrapped => ?_, hdropped⟩
    · rw [if_pos hfit, hbuf]
      exact hs'
    · rw [hnext, hfirst] at hwrapped ⊢
      rw [recordsSize_append, recordsSize_cons, recordsSize_nil]
      dsimp only at hwrapped ⊢
      rcases hinv.layout with ⟨hseg, -⟩ | ⟨w, ms₁, ms₂, hms, hne, hseg₁, hmark, hw, hseg₂, hgap⟩
      · -- the gap is what the record did not fit into
        have htotal := hseg.add_recordsSize
        omega
      · have hroom := hpacked hgap
        omega
  · obtain ⟨s', hs', hinv'⟩ := logInv_append hinv m hm hfree (by omega)
    obtain ⟨s'', hs'', -, -, hnext, -, hfirst, -⟩ := fillMessage_spec e m hm (by omega)
    obtain rfl : s' = s'' := Option.some.inj (hs'.symm.trans hs'')
    refine ⟨s', ?_, hinv', fun hwrapped => ?_, hdropped⟩
    · rw [if_neg hfit]
      exact hs'
    · rw [hnext, hfirst] at hwrapped ⊢
      have hroom := hpacked (by omega)
      rw [recordsSize_append, recordsSize_cons, recordsSize_nil]
      omega

/-- The log holds the last of the messages, and those it does not hold lie behind messages that fill it. -/
structure Holds (largest : ℕ) (s : LogState) (msgs : List (ℕ × List UInt8)) (k : ℕ) : Prop where
  le : k ≤ msgs.length
  inv : LogInv s (msgs.drop k)
  packed : Packed largest s (msgs.drop k)
  dropped : ∀ j < k, logBufLen ≤ recordsSize (msgs.drop j) + 2 * (largest + logHdr)

theorem Holds.store {msgs : List (ℕ × List UInt8)} {j : ℕ} (h : Holds largest s msgs j) (m : ℕ × List UInt8)
    (hm : m.2.length ≤ 256) (hlargest : recordSize m.2.length ≤ largest) :
    ∃ s' k, logStore s m.1 m.2 = some s' ∧ Holds largest s' (msgs ++ [m]) k := by
  obtain ⟨k, hk, s', hs', hinv, hpacked, hdropped⟩ := logStore_keeps h.inv h.packed m hm hlargest
  rw [List.length_drop] at hk
  have hle := h.le
  have htail : (msgs.drop j).drop k ++ [m] = (msgs ++ [m]).drop (j + k) := by
    rw [List.drop_drop, List.drop_append_of_le_length (by omega)]
  rw [htail] at hinv hpacked
  refine ⟨s', j + k, hs', by rw [List.length_append]; omega, hinv, hpacked, fun i hi => ?_⟩
  rw [List.drop_append_of_le_length (by omega), recordsSize_append]
  by_cases hij : i < j
  · have := h.dropped i hij
    omega
  · have := hdropped (i - j) (by omega)
    rw [List.drop_drop, Nat.add_sub_cancel' (Nat.not_lt.mp hij)] at this
    omega

theorem holds_logInit (largest : ℕ) : Holds largest logInit [] 0 :=
  ⟨le_rfl, logInv_init, fun h => absurd h (Nat.lt_irrefl 0), fun _ h => absurd h (Nat.not_lt_zero _)⟩

/-- A sequence of messages. -/
theorem Holds.storeAll {old : List (ℕ × List UInt8)} {j : ℕ} (h : Holds largest s old j)
    (msgs : List (ℕ × List UInt8)) (hlen : ∀ m ∈ msgs, m.2.length ≤ 256)
    (hlargest : ∀ m ∈ msgs, recordSize m.2.length ≤ largest) :
    ∃ s' k, logStoreAll s msgs = some s' ∧ Holds largest s' (old ++ msgs) k := by
  induction msgs generalizing s old j with
  | nil => exact ⟨s, j, rfl, by rwa [List.append_nil]⟩
  | cons m msgs ih =>
    obtain ⟨s₁, i, hs₁, h₁⟩ := h.store m (hlen m List.mem_cons_self) (hlargest m List.mem_cons_self)
    obtain ⟨s', k, hs', h'⟩ := ih h₁ (fun x hx => hlen x (List.mem_cons_of_mem m hx))
      (fun x hx => hlargest x (List.mem_cons_of_mem m hx))
    refine ⟨s', k, ?_, by rwa [List.append_assoc] at h'⟩
    rw [logStoreAll, hs₁]
    exact hs'

/-- A message behind which there is room is held. -/
theorem Holds.le_of_room {msgs : List (ℕ × List UInt8)} {k j : ℕ} (h : Holds largest s msgs k)
    (hroom : recordsSize (msgs.drop j) + 2 * (largest + logHdr) < logBufLen) : k ≤ j := by
  by_contra hlt
  have := h.dropped j (by omega)
  omega

end Storing

theorem recordSize_mono {n t : ℕ} (hn : n ≤ t) (ht : t ≤ 256) : recordSize n ≤ recordSize t := by
  rw [recordSize_eq n (hn.trans ht), recordSize_eq t ht]
  omega

/-- **The log keeps the latest messages**: after any sequence of messages of at most `t` bytes, what is read
back from it are the last of them, and among these is every message from which on the records leave room
for two of the largest ones and two empty headers. -/
theorem log_keeps_latest {t : ℕ} (ht : t ≤ 256) (msgs : List (ℕ × List UInt8))
    (hlen : ∀ m ∈ msgs, m.2.length ≤ t) : ∃ s k, logStoreAll logInit msgs = some s ∧
      List.Forall₂ IsRecordOf (logWalk s.buf (s.nextSeq - s.firstSeq) s.firstIdx).1 (msgs.drop k) ∧
      ∀ j, recordsSize (msgs.drop j) + 2 * (recordSize t + logHdr) < logBufLen → k ≤ j := by
  obtain ⟨s, k, hs, h⟩ := (holds_logInit (recordSize t)).storeAll msgs (fun m hm => (hlen m hm).trans ht)
    (fun m hm => recordSize_mono (hlen m hm) ht)
  rw [List.nil_append] at h
  exact ⟨s, k, hs, h.inv.logWalk.2, fun j => h.le_of_room⟩

/-- Forty messages of twelve bytes: the log holds at least the last sixteen. -/
theorem log_keeps_latest_forty :
    ∃ s k, logStoreAll logInit (List.replicate 40 (0, List.replicate 12 65)) = some s ∧
    List.Forall₂ IsRecordOf (logWalk s.buf (s.nextSeq - s.firstSeq) s.firstIdx).1
      ((List.replicate 40 (0, List.replicate 12 65)).drop k) ∧
    ∀ j, recordsSize ((List.replicate 40 (0, List.replicate 12 65)).drop j) + 2 * (recordSize 12 + logHdr) <
      logBufLen → k ≤ j :=
  log_keeps_latest (by decide) _ (by simp)

/-! ### Printing -/

/-- A call of `printk`, with the memory in which its buffer lies. -/
structure PrintkCall (σ : Type) where
  mem : ℕ → UInt8
  buf : ℕ
  pieces : List Piece
  ap : σ

section Printing

variable {σ : Type} (va : VaList σ)

/-- A sequence of calls of `printk`: the log they leave and what they print to the console. -/
def printkAll : LogState → List (PrintkCall σ) → Option (LogState × List UInt8)
  | log, [] => some (log, [])
  | log, c :: calls => do
    let (log, out, _) ← dvprintf va c.mem c.buf log (formatSource c.pieces) c.ap
    let (log, outs) ← printkAll log calls
    return (log, out ++ outs)

/-- What the call says, as far as it fits the buffer of `_dvprintf`. -/
def PrintkCall.said (c : PrintkCall σ) : List UInt8 := (denote va c.pieces c.ap).take 255

/-- The messages that reach the log. -/
def messages (calls : List (PrintkCall σ)) : List (ℕ × List UInt8) :=
  ((calls.map (PrintkCall.said va)).filter (· ≠ [])).map fun text => (0, text ++ [0])

theorem printed_of_mem_messages {calls : List (PrintkCall σ)} {m : ℕ × List UInt8} (h : m ∈ messages va calls) :
    Printed m := by
  unfold messages at h
  obtain ⟨text, htext, rfl⟩ := List.mem_map.mp h
  obtain ⟨c, -, rfl⟩ := List.mem_map.mp (List.mem_of_mem_filter htext)
  refine ⟨?_, by simp⟩
  simp [PrintkCall.said]

variable {va}

/-- A call of `printk` prints what it says, and stores it when it says something. -/
theorem dvprintf_said {c : PrintkCall σ} (hok : FormatOk va c.pieces c.ap) (log : LogState) :
    ∃ ret, dvprintf va c.mem c.buf log (formatSource c.pieces) c.ap =
      (logStoreAll log (messages va [c])).map fun log => (log, cString (c.said va), ret) := by
  have heq := dvprintf_of_text va c.mem c.buf log c.ap fun s => formatLoop_eq va _ c.ap s hok
  by_cases hnil : denote va c.pieces c.ap = []
  · have hsaid : c.said va = [] := by rw [PrintkCall.said, hnil, List.take_nil]
    refine ⟨0, ?_⟩
    rw [heq, if_pos hnil, messages, List.map_singleton, hsaid]
    rfl
  · have hsaid : c.said va ≠ [] := by
      rw [PrintkCall.said, Ne, List.take_eq_nil_iff]
      exact not_or.mpr ⟨by decide, hnil⟩
    refine ⟨(min 255 (denote va c.pieces c.ap).length : ℕ), ?_⟩
    rw [heq, if_neg hnil, messages, List.map_singleton, List.filter_cons_of_pos (by simpa using hsaid)]
    simp only [List.filter_nil, List.map_cons, List.map_nil, logStoreAll]
    rw [PrintkCall.said]
    cases logStore log 0 ((denote va c.pieces c.ap).take 255 ++ [0]) <;> rfl

theorem messages_cons (c : PrintkCall σ) (calls : List (PrintkCall σ)) :
    messages va (c :: calls) = messages va [c] ++ messages va calls := by
  rw [show c :: calls = [c] ++ calls from rfl]
  unfold messages
  simp only [List.map_append, List.filter_append]

/-- The calls store their messages and print what they say. -/
theorem printkAll_eq {calls : List (PrintkCall σ)} (hok : ∀ c ∈ calls, FormatOk va c.pieces c.ap)
    (log : LogState) : printkAll va log calls = (logStoreAll log (messages va calls)).map fun log =>
      (log, calls.flatMap fun c => cString (c.said va)) := by
  induction calls generalizing log with
  | nil => rfl
  | cons c calls ih =>
    obtain ⟨ret, heq⟩ := dvprintf_said (hok c List.mem_cons_self) log
    rw [printkAll, heq, messages_cons c calls, logStoreAll_append]
    cases logStoreAll log (messages va [c]) with
    | none => rfl
    | some log' =>
      simp only [Option.map_some, Option.bind_eq_bind, Option.bind_some]
      rw [ih fun d hd => hok d (List.mem_cons_of_mem c hd)]
      cases logStoreAll log' (messages va calls) <;> rfl

/-- **From `printk` to `kmsg_dump`**: for every sequence of formats and arguments, the console shows what
each of them says, and `kmsg_dump` ends and prints the last of them; it prints each one behind which the
records leave room for two of the largest, but for the oldest that is held. -/
theorem printk_reaches_kmsg {t : ℕ} (ht : t ≤ 256) (calls : List (PrintkCall σ))
    (hok : ∀ c ∈ calls, FormatOk va c.pieces c.ap) (hlen : ∀ m ∈ messages va calls, m.2.length ≤ t) :
    ∃ log k, printkAll va logInit calls = some (log, calls.flatMap fun c => cString (c.said va)) ∧
      (∃ rounds, ∀ fuel ≥ rounds, kmsgDump log fuel =
        some (((messages va calls).drop (k + 1)).map fun m => cString m.2)) ∧
      ∀ j, recordsSize ((messages va calls).drop j) + 2 * (recordSize t + logHdr) < logBufLen → k ≤ j := by
  obtain ⟨log, k, hlog, h⟩ := (holds_logInit (recordSize t)).storeAll (messages va calls)
    (fun m hm => (hlen m hm).trans ht) (fun m hm => recordSize_mono (hlen m hm) ht)
  rw [List.nil_append] at h
  refine ⟨log, k, ?_, ⟨259 + ((messages va calls).drop k).length, fun fuel hfuel => ?_⟩,
    fun j => h.le_of_room⟩
  · rw [printkAll_eq hok, hlog, Option.map_some]
  · rw [h.inv.kmsgDump (fun m hm => printed_of_mem_messages va (List.mem_of_mem_drop hm)) hfuel,
      List.tail_drop]

end Printing

/-- The same message, a hundred times. -/
theorem printk_reaches_kmsg_hundred :
    let calls := List.replicate 100 (⟨fun _ => 0, 256, mixedFormat, mixedArgs⟩ :
      PrintkCall (List Arg))
    ∃ log k, printkAll argList logInit calls =
        some (log, calls.flatMap fun c => cString (c.said argList)) ∧
      (∃ rounds, ∀ fuel ≥ rounds, kmsgDump log fuel =
        some (((messages argList calls).drop (k + 1)).map fun m => cString m.2)) ∧
      ∀ j, recordsSize ((messages argList calls).drop j) + 2 * (recordSize 30 + logHdr) < logBufLen →
        k ≤ j := by
  refine printk_reaches_kmsg (by decide) _ ?_ ?_
  · intro c hc
    obtain ⟨-, rfl⟩ := List.mem_replicate.mp hc
    simp only [mixedFormat, FormatOk, Directive.Ok]
    decide
  · decide +kernel

end YakOS
