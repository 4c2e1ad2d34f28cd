import YakOS.Lib.Bytes

/-!
# The kernel log

The ring of variable-length records `kernel/printk.c` keeps its messages in.  A
record is an eight-byte header (`len`, `text_len`, `level`) followed by the text
and padding up to the alignment of the header; a header whose `len` is zero marks
the place where the writer went back to the start of the buffer.

The buffer is a memory of which only the addresses below `logBufLen` are the
program's: a write that leaves it makes `logStore` return `none`.  The sequence
numbers are 64-bit counters of the calls of `log_store`; they are unbounded here.

## Main definitions

* `logFromIdx`, `logNext`, `logStore` — the code.
* `logWalk` — the records met by following `logFromIdx` and `logNext`.
* `RecordAt`, `Seg`, `Layout` — a record, a run of adjacent records, and the two
  shapes the ring can have.
* `LogInv` — the ring holds the last messages stored.

## Main results

* `logInv_evict`, `logInv_logStore` — dropping old records and storing a new one
  keep the invariant, and no write leaves the buffer.
* `logStore_run` — what the log holds after any sequence of messages.
-/

namespace YakOS

open Bytes

/-- `LOG_BUF_LEN`. -/
def logBufLen : ℕ := 1024

/-- `sizeof(struct printk_log)`. -/
def logHdr : ℕ := 8

/-- `LOG_ALIGN`, the alignment of `struct printk_log`. -/
def logAlign : ℕ := 4

/-- The log buffer and its four indices. -/
structure LogState where
  buf : ℕ → UInt8
  firstSeq : ℕ
  firstIdx : ℕ
  nextSeq : ℕ
  nextIdx : ℕ

/-- The log at boot: the buffer and its indices are zero. -/
def logInit : LogState where
  buf := fun _ => 0
  firstSeq := 0
  firstIdx := 0
  nextSeq := 0
  nextIdx := 0

/-- The field `len` of the header at `idx`. -/
def msgLen (buf : ℕ → UInt8) (idx : ℕ) : ℕ := u32 buf idx

/-- The field `text_len` of the header at `idx`. -/
def msgTextLen (buf : ℕ → UInt8) (idx : ℕ) : ℕ := u16 buf (idx + 4)

/-- The field `level` of the header at `idx`. -/
def msgLevel (buf : ℕ → UInt8) (idx : ℕ) : ℕ := u16 buf (idx + 6)

/-- `log_text`: the text of the record at `idx`. -/
def logText (buf : ℕ → UInt8) (idx : ℕ) : List UInt8 :=
  read buf (idx + logHdr) (msgTextLen buf idx)

/-- `log_from_idx`: the index of the record found at `idx`; a length of zero is
the end of buffer marker. -/
def logFromIdx (buf : ℕ → UInt8) (idx : ℕ) : ℕ := if msgLen buf idx = 0 then 0 else idx

/-- `log_next`. -/
def logNext (buf : ℕ → UInt8) (idx : ℕ) : ℕ :=
  if msgLen buf idx = 0 then msgLen buf 0 else (idx + msgLen buf idx) % 2 ^ 32

/-- The padded size of a record with a text of `textLen` bytes. -/
def recordSize (textLen : ℕ) : ℕ :=
  let size := logHdr + textLen
  size + (2 ^ 32 - size) % logAlign

/-- The contiguous free space the loop of `log_store` computes. -/
def logFree (s : LogState) : ℕ :=
  if s.nextIdx > s.firstIdx then
    max ((2 ^ 32 + logBufLen - s.nextIdx) % 2 ^ 32) s.firstIdx
  else s.firstIdx - s.nextIdx

/-- The loop of `log_store`: drop old messages until there is enough contiguous
space.  The last argument is the number `log_next_seq - log_first_seq` of records,
which is what bounds the loop. -/
def evict (size : ℕ) (s : LogState) : ℕ → LogState
  | 0 => s
  | n + 1 =>
    if logFree s > size + logHdr then s
    else evict size
      { s with firstIdx := logNext s.buf s.firstIdx, firstSeq := s.firstSeq + 1 } n

/-- Overwrite part of the log buffer; `none` if the write leaves it. -/
def writeBuf (buf : ℕ → UInt8) (a : ℕ) (bs : List UInt8) : Option (ℕ → UInt8) :=
  if a + bs.length ≤ logBufLen then some (write buf a bs) else none

/-- The end of `log_store`: fill in the message at `log_next_idx` and insert it. -/
def fillMessage (s : LogState) (level : ℕ) (text : List UInt8) : Option LogState := do
  let idx := s.nextIdx
  let buf ← writeBuf s.buf (idx + logHdr) text
  let buf ← writeBuf buf (idx + 4) (le16 text.length)
  let buf ← writeBuf buf (idx + 6) (le16 level)
  let buf ← writeBuf buf idx (le32 (recordSize text.length))
  return { s with
    buf := buf
    nextIdx := idx + recordSize text.length
    nextSeq := s.nextSeq + 1 }

/-- `log_store`. -/
def logStore (s : LogState) (level : ℕ) (text : List UInt8) : Option LogState := do
  let size := recordSize text.length
  let s := evict size s (s.nextSeq - s.firstSeq)
  if s.nextIdx + size + logHdr ≥ logBufLen then
    -- this message and an additional empty header do not fit at the end
    let buf ← writeBuf s.buf s.nextIdx (List.replicate logHdr 0)
    fillMessage { s with buf := buf, nextIdx := 0 } level text
  else
    fillMessage s level text

/-- A record as read back from the buffer. -/
structure LogRecord where
  idx : ℕ
  len : ℕ
  level : ℕ
  text : List UInt8
  deriving DecidableEq, Repr

/-- The record with its header at `idx`. -/
def recordAt (buf : ℕ → UInt8) (idx : ℕ) : LogRecord where
  idx := idx
  len := msgLen buf idx
  level := msgLevel buf idx
  text := logText buf idx

/-- Follow `log_from_idx` and `log_next` for a number of records: the records
met, and the index the walk ends at. -/
def logWalk (buf : ℕ → UInt8) : ℕ → ℕ → List LogRecord × ℕ
  | 0, idx => ([], idx)
  | n + 1, idx =>
    let (rs, j) := logWalk buf n (logNext buf idx)
    (recordAt buf (logFromIdx buf idx) :: rs, j)

/-- Store a sequence of messages, given as levels and texts. -/
def logStoreAll : LogState → List (ℕ × List UInt8) → Option LogState
  | s, [] => some s
  | s, m :: ms => (logStore s m.1 m.2).bind fun s' => logStoreAll s' ms

/-! ### Sizes -/

theorem recordSize_eq (n : ℕ) (hn : n ≤ 256) : recordSize n = (n + 11) / 4 * 4 := by
  simp only [recordSize, logHdr, logAlign]
  omega

theorem recordSize_bounds {n : ℕ} (hn : n ≤ 256) :
    8 + n ≤ recordSize n ∧ recordSize n ≤ 264 := by
  rw [recordSize_eq n hn]
  omega

/-! ### Records and runs of records -/

/-- The record of the message `m` stands at `i`, inside the buffer. -/
structure RecordAt (buf : ℕ → UInt8) (i : ℕ) (m : ℕ × List UInt8) : Prop where
  short : m.2.length ≤ 256
  len : msgLen buf i = recordSize m.2.length
  textLen : msgTextLen buf i = m.2.length
  level : msgLevel buf i = m.1 % 2 ^ 16
  text : read buf (i + logHdr) m.2.length = m.2
  fits : i + recordSize m.2.length ≤ logBufLen

/-- The messages `ms` stand one after the other from `i` to `j`. -/
def Seg (buf : ℕ → UInt8) : ℕ → List (ℕ × List UInt8) → ℕ → Prop
  | i, [], j => i = j
  | i, m :: ms, j => RecordAt buf i m ∧ Seg buf (i + recordSize m.2.length) ms j

theorem RecordAt.congr {buf buf' : ℕ → UInt8} {i : ℕ} {m : ℕ × List UInt8}
    (h : RecordAt buf i m)
    (heq : ∀ k, i ≤ k → k < i + recordSize m.2.length → buf k = buf' k) : RecordAt buf' i m := by
  have hb := (recordSize_bounds h.short).1
  refine { h with len := ?_, textLen := ?_, level := ?_, text := ?_ }
  · rw [← h.len]
    exact u32_congr fun k h1 h2 => (heq k h1 (by omega)).symm
  · rw [← h.textLen]
    exact u16_congr fun k h1 h2 => (heq k (by omega) (by omega)).symm
  · rw [← h.level]
    exact u16_congr fun k h1 h2 => (heq k (by omega) (by omega)).symm
  · refine Eq.trans (read_congr fun k h1 h2 => (heq k ?_ ?_).symm) h.text
    · omega
    · unfold logHdr at h1 h2
      omega

theorem Seg.le {buf : ℕ → UInt8} {ms : List (ℕ × List UInt8)} {i j : ℕ} (h : Seg buf i ms j) :
    i ≤ j := by
  induction ms generalizing i with
  | nil => exact le_of_eq h
  | cons m ms ih =>
    have := ih h.2
    omega

/-- A non-empty run of records takes up room. -/
theorem Seg.lt_of_ne_nil {buf : ℕ → UInt8} {ms : List (ℕ × List UInt8)} {i j : ℕ}
    (h : Seg buf i ms j) (hne : ms ≠ []) : i + 8 ≤ j := by
  cases ms with
  | nil => exact absurd rfl hne
  | cons m ms =>
    have h1 := h.2.le
    have h2 := (recordSize_bounds h.1.short).1
    omega

theorem Seg.congr {buf buf' : ℕ → UInt8} {ms : List (ℕ × List UInt8)} {i j : ℕ}
    (h : Seg buf i ms j) (heq : ∀ k, i ≤ k → k < j → buf k = buf' k) : Seg buf' i ms j := by
  induction ms generalizing i with
  | nil => exact h
  | cons m ms ih =>
    have hle := h.2.le
    refine ⟨h.1.congr fun k h1 h2 => heq k h1 (by omega), ih h.2 fun k h1 h2 => heq k ?_ h2⟩
    omega

theorem Seg.snoc {buf : ℕ → UInt8} {ms : List (ℕ × List UInt8)} {i j : ℕ} {m : ℕ × List UInt8}
    (h : Seg buf i ms j) (hm : RecordAt buf j m) :
    Seg buf i (ms ++ [m]) (j + recordSize m.2.length) := by
  induction ms generalizing i with
  | nil =>
    obtain rfl : i = j := h
    exact ⟨hm, rfl⟩
  | cons m' ms ih => exact ⟨h.1, ih h.2⟩

theorem RecordAt.logFromIdx_eq {buf : ℕ → UInt8} {i : ℕ} {m : ℕ × List UInt8}
    (h : RecordAt buf i m) : logFromIdx buf i = i := by
  have := (recordSize_bounds h.short).1
  rw [logFromIdx, if_neg (by rw [h.len]; omega)]

theorem RecordAt.logNext_eq {buf : ℕ → UInt8} {i : ℕ} {m : ℕ × List UInt8}
    (h : RecordAt buf i m) : logNext buf i = i + recordSize m.2.length := by
  have h1 := (recordSize_bounds h.short).1
  have h2 := h.fits
  unfold logBufLen at h2
  rw [logNext, if_neg (by rw [h.len]; omega), h.len, Nat.mod_eq_of_lt (by omega)]

/-- The record stored for a message. -/
def IsRecordOf (r : LogRecord) (m : ℕ × List UInt8) : Prop :=
  r.text = m.2 ∧ r.level = m.1 % 2 ^ 16 ∧ r.len = recordSize m.2.length ∧
    r.idx + r.len ≤ logBufLen

theorem RecordAt.isRecordOf {buf : ℕ → UInt8} {i : ℕ} {m : ℕ × List UInt8}
    (h : RecordAt buf i m) : IsRecordOf (recordAt buf i) m := by
  refine ⟨?_, h.level, h.len, ?_⟩
  · simp only [recordAt, logText, h.textLen, h.text]
  · simp only [recordAt, h.len, h.fits]

/-! ### The shapes of the ring -/

/-- Where the messages `ms` stand.  Either they are one run of records, or a run
up to an end of buffer marker followed by a non-empty run from the start of the
buffer that ends before the first one begins. -/
inductive Layout (s : LogState) (ms : List (ℕ × List UInt8)) : Prop
  | straight (hseg : Seg s.buf s.firstIdx ms s.nextIdx) (hnext : s.nextIdx + logHdr < logBufLen)
  | wrapped (w : ℕ) (ms₁ ms₂ : List (ℕ × List UInt8)) (hms : ms = ms₁ ++ ms₂) (hne : ms₂ ≠ [])
      (hseg₁ : Seg s.buf s.firstIdx ms₁ w) (hmark : msgLen s.buf w = 0)
      (hw : w + logHdr < logBufLen)
      (hseg₂ : Seg s.buf 0 ms₂ s.nextIdx) (hgap : s.nextIdx < s.firstIdx)

/-- The log holds the messages `ms`. -/
structure LogInv (s : LogState) (ms : List (ℕ × List UInt8)) : Prop where
  seq : s.nextSeq = s.firstSeq + ms.length
  layout : Layout s ms

theorem logInv_init : LogInv logInit [] := ⟨rfl, .straight rfl (by decide)⟩

/-- Dropping the oldest record advances `log_first_idx` by `log_next`. -/
theorem logInv_drop {s : LogState} {m : ℕ × List UInt8} {ms : List (ℕ × List UInt8)}
    (h : LogInv s (m :: ms)) :
    LogInv { s with firstIdx := logNext s.buf s.firstIdx, firstSeq := s.firstSeq + 1 } ms := by
  refine ⟨?_, ?_⟩
  · have := h.seq
    simp only [List.length_cons] at this
    dsimp only
    omega
  · rcases h.layout with ⟨hseg, hnext⟩ | ⟨w, ms₁, ms₂, hms, hne, hseg₁, hmark, hw, hseg₂, hgap⟩
    · refine .straight ?_ hnext
      dsimp only
      rw [hseg.1.logNext_eq]
      exact hseg.2
    · cases ms₁ with
      | cons m' ms₁ =>
        obtain ⟨rfl, rfl⟩ : m = m' ∧ ms = ms₁ ++ ms₂ := by simpa using hms
        refine .wrapped w ms₁ ms₂ rfl hne ?_ hmark hw hseg₂ ?_
        · dsimp only
          rw [hseg₁.1.logNext_eq]
          exact hseg₁.2
        · dsimp only
          rw [hseg₁.1.logNext_eq]
          omega
      | nil =>
        -- the first record is reached through the marker, at the start of the buffer
        obtain rfl : s.firstIdx = w := hseg₁
        obtain rfl : ms₂ = m :: ms := by simpa using hms.symm
        refine .straight ?_ ?_
        · dsimp only
          rw [logNext, if_pos hmark, hseg₂.1.len]
          simpa using hseg₂.2
        · dsimp only
          omega

/-- **The loop of `log_store`** drops the oldest messages, and stops when none is
left or there is enough contiguous space. -/
theorem logInv_evict (size : ℕ) : ∀ (n : ℕ) (s : LogState) (ms : List (ℕ × List UInt8)),
    LogInv s ms → n = ms.length →
    ∃ k, LogInv (evict size s n) (ms.drop k) ∧ (evict size s n).buf = s.buf ∧
      (evict size s n).nextIdx = s.nextIdx ∧
      (ms.drop k = [] ∨ logFree (evict size s n) > size + logHdr) := by
  intro n
  induction n with
  | zero =>
    intro s ms h hn
    obtain rfl : ms = [] := List.eq_nil_of_length_eq_zero hn.symm
    exact ⟨0, h, rfl, rfl, Or.inl rfl⟩
  | succ n ih =>
    intro s ms h hn
    by_cases hfree : logFree s > size + logHdr
    · simp only [evict, if_pos hfree]
      exact ⟨0, h, by simp, by simp, Or.inr hfree⟩
    · cases ms with
      | nil => simp at hn
      | cons m ms =>
        obtain ⟨k, h1, h2, h3, h4⟩ := ih _ ms (logInv_drop h) (by simpa using hn)
        simp only [evict, if_neg hfree]
        exact ⟨k + 1, h1, h2, h3, h4⟩

theorem writeBuf_eq {buf : ℕ → UInt8} {a : ℕ} {bs : List UInt8} (h : a + bs.length ≤ logBufLen) :
    writeBuf buf a bs = some (write buf a bs) := if_pos h

/-- Filling in a message that fits: what the new record and the old bytes are. -/
theorem fillMessage_spec (s : LogState) (m : ℕ × List UInt8) (hm : m.2.length ≤ 256)
    (hfit : s.nextIdx + recordSize m.2.length ≤ logBufLen) :
    ∃ s', fillMessage s m.1 m.2 = some s' ∧ RecordAt s'.buf s.nextIdx m ∧
      (∀ k, k < s.nextIdx ∨ s.nextIdx + recordSize m.2.length ≤ k → s'.buf k = s.buf k) ∧
      s'.nextIdx = s.nextIdx + recordSize m.2.length ∧ s'.nextSeq = s.nextSeq + 1 ∧
      s'.firstIdx = s.firstIdx ∧ s'.firstSeq = s.firstSeq := by
  obtain ⟨hlo, hhi⟩ := recordSize_bounds hm
  have hb : logBufLen = 1024 := rfl
  have hh : logHdr = 8 := rfl
  set i := s.nextIdx with hi
  set b1 := write s.buf (i + logHdr) m.2 with hb1
  set b2 := write b1 (i + 4) (le16 m.2.length) with hb2
  set b3 := write b2 (i + 6) (le16 m.1) with hb3
  set b4 := write b3 i (le32 (recordSize m.2.length)) with hb4
  -- each of the four writes stays inside the buffer
  have hrun : fillMessage s m.1 m.2 = some { s with
      buf := b4
      nextIdx := i + recordSize m.2.length
      nextSeq := s.nextSeq + 1 } := by
    have h2 : i + 4 + (le16 m.2.length).length ≤ logBufLen := by simp; omega
    have h3 : i + 6 + (le16 m.1).length ≤ logBufLen := by simp; omega
    have h4 : i + (le32 (recordSize m.2.length)).length ≤ logBufLen := by simp; omega
    simp only [fillMessage, Option.bind_eq_bind]
    rw [← hi, writeBuf_eq (by omega), Option.bind_some, writeBuf_eq h2, Option.bind_some,
      writeBuf_eq h3, Option.bind_some, writeBuf_eq h4]
    rfl
  refine ⟨_, hrun, ⟨hm, ?_, ?_, ?_, ?_, hfit⟩, ?_, rfl, rfl, rfl, rfl⟩
  · -- `len` is written last
    simp only [msgLen, hb4, u32_write_le32]
    omega
  · simp only [msgTextLen, hb4, hb3, hb2]
    rw [u16_write_of_disjoint _ (Or.inr (by simp)), u16_write_of_disjoint _ (Or.inl (by omega)),
      u16_write_le16]
    omega
  · simp only [msgLevel, hb4, hb3]
    rw [u16_write_of_disjoint _ (Or.inr (by simp)), u16_write_le16]
  · simp only [hb4, hb3, hb2, hb1]
    rw [read_write_of_disjoint _ (Or.inr (by simp; omega)),
      read_write_of_disjoint _ (Or.inr (by simp; omega)),
      read_write_of_disjoint _ (Or.inr (by simp; omega)), read_write_self]
  · intro k hk
    simp only [hb4, hb3, hb2, hb1]
    rw [write_of_disjoint _ (by simp; omega), write_of_disjoint _ (by simp; omega),
      write_of_disjoint _ (by simp; omega), write_of_disjoint _ (by omega)]

/-- Storing where the new record and an empty header fit before the end of the
buffer, or before the oldest record. -/
theorem logInv_append {s : LogState} {ms : List (ℕ × List UInt8)} (h : LogInv s ms)
    (m : ℕ × List UInt8) (hm : m.2.length ≤ 256)
    (hfree : ms = [] ∨ logFree s > recordSize m.2.length + logHdr)
    (hfit : s.nextIdx + recordSize m.2.length + logHdr < logBufLen) :
    ∃ s', fillMessage s m.1 m.2 = some s' ∧ LogInv s' (ms ++ [m]) := by
  obtain ⟨s', hs', hrec, hsame, hnext, hseq, hfirst, hfseq⟩ :=
    fillMessage_spec s m hm (by omega)
  refine ⟨s', hs', ?_, ?_⟩
  · rw [hseq, hfseq, h.seq, List.length_append, List.length_singleton, Nat.add_assoc]
  · rcases h.layout with ⟨hseg, hlt⟩ | ⟨w, ms₁, ms₂, hms, hne, hseg₁, hmark, hw, hseg₂, hgap⟩
    · refine .straight ?_ (by rw [hnext]; omega)
      rw [hfirst, hnext]
      exact (hseg.congr fun k _ h2 => (hsame k (Or.inl h2)).symm).snoc hrec
    · -- the free space is the gap before the oldest record
      have hms' : ms ≠ [] := by
        rw [hms]
        simp [hne]
      have hgap' : s.nextIdx + recordSize m.2.length + logHdr < s.firstIdx := by
        rcases hfree with hnil | hfree
        · exact absurd hnil hms'
        · rw [logFree, if_neg (by omega)] at hfree
          omega
      have hw' := hseg₁.le
      refine .wrapped w ms₁ (ms₂ ++ [m]) (by rw [hms, List.append_assoc]) (by simp) ?_ ?_ hw ?_ ?_
      · rw [hfirst]
        exact hseg₁.congr fun k h1 _ => (hsame k (Or.inr (by omega))).symm
      · rw [← hmark]
        exact u32_congr fun k h1 _ => hsame k (Or.inr (by omega))
      · rw [hnext]
        exact (hseg₂.congr fun k _ h2 => (hsame k (Or.inl h2)).symm).snoc hrec
      · rw [hnext, hfirst]
        omega

/-- Storing after going back to the start of the buffer. -/
theorem logInv_wrap {s : LogState} {ms : List (ℕ × List UInt8)} (h : LogInv s ms)
    (m : ℕ × List UInt8) (hm : m.2.length ≤ 256)
    (hfree : ms = [] ∨ logFree s > recordSize m.2.length + logHdr)
    (hfit : s.nextIdx + recordSize m.2.length + logHdr ≥ logBufLen) :
    ∃ buf s', writeBuf s.buf s.nextIdx (List.replicate logHdr 0) = some buf ∧
      fillMessage { s with buf := buf, nextIdx := 0 } m.1 m.2 = some s' ∧
      LogInv s' (ms ++ [m]) := by
  obtain ⟨hlo, hhi⟩ := recordSize_bounds hm
  have hb : logBufLen = 1024 := rfl
  have hh : logHdr = 8 := rfl
  rcases h.layout with ⟨hseg, hlt⟩ | ⟨w, ms₁, ms₂, hms, hne, hseg₁, hmark, hw, hseg₂, hgap⟩
  · -- the record and its trailing header fit before the oldest record
    have hgap : recordSize m.2.length < s.firstIdx := by
      by_cases hnil : ms = []
      · subst hnil
        have : s.firstIdx = s.nextIdx := hseg
        omega
      · have := hseg.lt_of_ne_nil hnil
        rcases hfree with h' | hfree
        · exact absurd h' hnil
        · rw [logFree, if_pos (by omega), Nat.add_sub_assoc (by omega), Nat.add_mod_left,
            Nat.mod_eq_of_lt (by omega)] at hfree
          omega
    have hle := hseg.le
    obtain ⟨s', hs', hrec, hsame, hnext, hseq, hfirst, hfseq⟩ :=
      fillMessage_spec { s with buf := write s.buf s.nextIdx (List.replicate logHdr 0), nextIdx := 0 }
        m hm (by dsimp only; omega)
    refine ⟨_, s', writeBuf_eq (by simp; omega), hs', ?_, ?_⟩
    · rw [hseq, hfseq, List.length_append, List.length_singleton, ← Nat.add_assoc, ← h.seq]
    · refine .wrapped s.nextIdx ms [m] rfl (by simp) ?_ ?_ hlt ⟨hrec, ?_⟩ ?_
      · rw [hfirst]
        apply hseg.congr
        intro k h1 h2
        rw [hsame k (Or.inr (by dsimp only; omega))]
        exact (write_of_lt _ _ h2).symm
      · -- the marker survives the write at the start of the buffer
        have hz : msgLen s'.buf s.nextIdx = u32 (fun _ => 0) s.nextIdx := by
          apply u32_congr
          intro k h1 h2
          rw [hsame k (Or.inr (by dsimp only; omega))]
          obtain ⟨j, rfl⟩ := Nat.exists_eq_add_of_le h1
          dsimp only
          rw [write_add _ _ (by simp; omega), List.getElem_replicate]
        rw [hz]
        rfl
      · exact hnext.symm
      · rw [hnext, hfirst]
        dsimp only
        omega
  · -- a wrapped log never gets this far: the gap ends before the buffer does
    exfalso
    have hw' := hseg₁.le
    rcases hfree with hnil | hfree
    · rw [hms] at hnil
      simp [hne] at hnil
    · rw [logFree, if_neg (by omega)] at hfree
      omega

/-- **`log_store` stays inside the buffer and appends its message**, at the price
of some of the oldest ones. -/
theorem logInv_logStore {s : LogState} {ms : List (ℕ × List UInt8)} (h : LogInv s ms)
    (m : ℕ × List UInt8) (hm : m.2.length ≤ 256) :
    ∃ k s', logStore s m.1 m.2 = some s' ∧ LogInv s' (ms.drop k ++ [m]) := by
  have hn : s.nextSeq - s.firstSeq = ms.length := by
    rw [h.seq, Nat.add_sub_cancel_left]
  obtain ⟨k, hk, -, -, hfree⟩ := logInv_evict (recordSize m.2.length) _ s ms h hn
  simp only [logStore]
  by_cases hfit : (evict (recordSize m.2.length) s (s.nextSeq - s.firstSeq)).nextIdx
      + recordSize m.2.length + logHdr ≥ logBufLen
  · obtain ⟨buf, s', hbuf, hs', hinv⟩ := logInv_wrap hk m hm hfree hfit
    refine ⟨k, s', ?_, hinv⟩
    rw [if_pos hfit, hbuf]
    exact hs'
  · obtain ⟨s', hs', hinv⟩ := logInv_append hk m hm hfree (by omega)
    refine ⟨k, s', ?_, hinv⟩
    rw [if_neg hfit]
    exact hs'

/-! ### Reading the log back -/

theorem logWalk_append (buf : ℕ → UInt8) (n k i : ℕ) :
    logWalk buf (n + k) i =
      ((logWalk buf n i).1 ++ (logWalk buf k (logWalk buf n i).2).1,
        (logWalk buf k (logWalk buf n i).2).2) := by
  induction n generalizing i with
  | zero => simp [logWalk]
  | succ n ih =>
    rw [Nat.add_right_comm]
    simp only [logWalk, ih, List.cons_append]

/-- Walking along a run of records. -/
theorem Seg.logWalk {buf : ℕ → UInt8} {ms : List (ℕ × List UInt8)} {i j : ℕ}
    (h : Seg buf i ms j) :
    (logWalk buf ms.length i).2 = j ∧
      List.Forall₂ IsRecordOf (logWalk buf ms.length i).1 ms := by
  induction ms generalizing i with
  | nil => exact ⟨h, .nil⟩
  | cons m ms ih =>
    have hnext := h.1.logNext_eq
    simp only [List.length_cons, YakOS.logWalk, h.1.logFromIdx_eq, hnext]
    exact ⟨(ih h.2).1, .cons h.1.isRecordOf (ih h.2).2⟩

/-- A walk that starts at a marker is the walk from the start of the buffer. -/
theorem logWalk_of_mark {buf : ℕ → UInt8} {w : ℕ} {m : ℕ × List UInt8} (hmark : msgLen buf w = 0)
    (hrec : RecordAt buf 0 m) (n : ℕ) : logWalk buf (n + 1) w = logWalk buf (n + 1) 0 := by
  have h1 : logFromIdx buf w = logFromIdx buf 0 := by
    rw [hrec.logFromIdx_eq, logFromIdx, if_pos hmark]
  have h2 : logNext buf w = logNext buf 0 := by
    rw [hrec.logNext_eq, logNext, if_pos hmark, hrec.len, Nat.zero_add]
  simp only [logWalk, h1, h2]

/-- Walking over the retained records ends at `log_next_idx` and meets the
messages the invariant names. -/
theorem LogInv.logWalk {s : LogState} {ms : List (ℕ × List UInt8)} (h : LogInv s ms) :
    (logWalk s.buf (s.nextSeq - s.firstSeq) s.firstIdx).2 = s.nextIdx ∧
      List.Forall₂ IsRecordOf (logWalk s.buf (s.nextSeq - s.firstSeq) s.firstIdx).1 ms := by
  rw [h.seq, Nat.add_sub_cancel_left]
  rcases h.layout with ⟨hseg, -⟩ | ⟨w, ms₁, ms₂, rfl, hne, hseg₁, hmark, -, hseg₂, -⟩
  · exact hseg.logWalk
  · cases ms₂ with
    | nil => exact absurd rfl hne
    | cons m ms₂ =>
      obtain ⟨he₁, hr₁⟩ := hseg₁.logWalk
      obtain ⟨he₂, hr₂⟩ := hseg₂.logWalk
      rw [List.length_append, logWalk_append, he₁, List.length_cons,
        logWalk_of_mark hmark hseg₂.1]
      exact ⟨he₂, List.rel_append hr₁ hr₂⟩

/-- The invariant along a sequence of messages. -/
theorem logInv_logStoreAll : ∀ (msgs : List (ℕ × List UInt8)) (s : LogState)
    (old : List (ℕ × List UInt8)) (j : ℕ), (∀ m ∈ msgs, m.2.length ≤ 256) →
    LogInv s (old.drop j) →
    ∃ s' k, logStoreAll s msgs = some s' ∧ LogInv s' ((old ++ msgs).drop k) := by
  intro msgs
  induction msgs with
  | nil =>
    intro s old j _ h
    exact ⟨s, j, rfl, by simpa using h⟩
  | cons m msgs ih =>
    intro s old j hlen h
    obtain ⟨k, s₁, hs₁, hinv⟩ := logInv_logStore h m (hlen m (by simp))
    -- what is kept of the old messages, and the new one, are a tail of all of them
    have htail : ∃ i, (old.drop j).drop k ++ [m] = (old ++ [m]).drop i := by
      rw [List.drop_drop]
      refine ⟨min (j + k) old.length, ?_⟩
      rw [List.drop_append_of_le_length (Nat.min_le_right _ _)]
      congr 1
      rcases Nat.le_total (j + k) old.length with hle | hle
      · rw [Nat.min_eq_left hle]
      · rw [Nat.min_eq_right hle, List.drop_eq_nil_of_le hle, List.drop_length]
    obtain ⟨i, hi⟩ := htail
    rw [hi] at hinv
    obtain ⟨s', k', hs', hinv'⟩ := ih s₁ (old ++ [m]) i (fun x hx => hlen x (by simp [hx])) hinv
    refine ⟨s', k', ?_, by simpa using hinv'⟩
    rw [logStoreAll, hs₁]
    exact hs'

/-- **The log after any sequence of messages.**  No write leaves the buffer; the
walk from `log_first_idx` over the retained records meets well-formed records,
ends at `log_next_idx`, and its texts are those of the last messages stored. -/
theorem logStore_run (msgs : List (ℕ × List UInt8)) (hlen : ∀ m ∈ msgs, m.2.length ≤ 256) :
    ∃ s, logStoreAll logInit msgs = some s ∧
      s.nextSeq - s.firstSeq ≤ msgs.length ∧
      (logWalk s.buf (s.nextSeq - s.firstSeq) s.firstIdx).2 = s.nextIdx ∧
      List.Forall₂ IsRecordOf (logWalk s.buf (s.nextSeq - s.firstSeq) s.firstIdx).1
        (msgs.drop (msgs.length - (s.nextSeq - s.firstSeq))) := by
  obtain ⟨s, k, hs, hinv⟩ := logInv_logStoreAll msgs logInit [] 0 hlen logInv_init
  rw [List.nil_append] at hinv
  have hcount : s.nextSeq - s.firstSeq = (msgs.drop k).length := by
    rw [hinv.seq, Nat.add_sub_cancel_left]
  obtain ⟨hend, hrecs⟩ := hinv.logWalk
  refine ⟨s, hs, ?_, hend, ?_⟩
  · rw [hcount, List.length_drop]
    exact Nat.sub_le _ _
  · have hk : msgs.drop (msgs.length - (s.nextSeq - s.firstSeq)) = msgs.drop k := by
      rw [hcount, List.length_drop]
      rcases Nat.le_total k msgs.length with hle | hle
      · rw [Nat.sub_sub_self hle]
      · rw [Nat.sub_eq_zero_of_le hle, Nat.sub_zero, List.drop_length, List.drop_eq_nil_of_le hle]
    rw [hk]
    exact hrecs

/-- Two messages are retained, in order. -/
theorem logStore_run_two :
    ∃ s, logStoreAll logInit [(0, [72, 105, 0]), (0, [111, 107, 0])] = some s ∧
      (logWalk s.buf (s.nextSeq - s.firstSeq) s.firstIdx).2 = s.nextIdx := by
  obtain ⟨s, hs, -, hend, -⟩ := logStore_run [(0, [72, 105, 0]), (0, [111, 107, 0])] (by decide)
  exact ⟨s, hs, hend⟩

end YakOS
