import Mathlib.Data.Finmap
import Img2Web.Container.Bitmap

/-!
`StreamManager` of the driver: the stream numbers of one connection, and the
request that waits on each. A stream is free when its bit in `words_` is set.
-/

namespace Img2Web.Driver

/-- `word_t`, and `NUM_BITS_PER_WORD` bits of it. -/
abbrev Word := BitVec 64

/-- The range of `size_t`. -/
def sizeRange : Nat := 2 ^ 64

structure StreamManager (α : Type) where
  maxStreams : Nat
  numWords : Nat
  offset : Nat
  words : List Word
  pending : Finmap fun _ : Nat => α

namespace StreamManager

variable {α : Type}

def numBytesForStream (protocolVersion : Nat) : Nat :=
  if protocolVersion ≥ 3 then 2 else 1

def new (protocolVersion : Nat) : StreamManager α :=
  let maxStreams := 2 ^ (numBytesForStream protocolVersion * 8 - 1)
  { maxStreams := maxStreams
    numWords := maxStreams / 64
    offset := 0
    words := List.replicate (maxStreams / 64) (BitVec.allOnes 64)
    pending := ∅ }

/-- The first set bit of the word is taken, if it has one. -/
def getAndSetFirstAvailableStream (words : List Word) (index : Nat) :
    Option (Nat × List Word) :=
  let word := words[index]?.getD 0
  if word = 0 then none
  else
    let stream := word.ctz.toNat
    some (stream, words.modify index (· ^^^ (1#64 <<< stream)))

/-- The loop of `acquire_stream` over the values of `i` that are left. -/
def scan (m : StreamManager α) : List Nat → Option (Nat × List Word)
  | [] => none
  | i :: rest =>
      let index := (i + m.offset) % sizeRange % m.numWords
      match getAndSetFirstAvailableStream m.words index with
      | some (stream, words) => some (stream + 64 * index, words)
      | none => m.scan rest

/-- The offset moves on also when no stream is found. -/
def acquireStream (m : StreamManager α) : Option Nat × StreamManager α :=
  let found := m.scan (List.range m.numWords)
  let moved := {m with offset := (m.offset + 1) % sizeRange}
  match found with
  | some (stream, words) => (some stream, {moved with words := words})
  | none => (none, moved)

def acquire (m : StreamManager α) (item : α) : Option Nat × StreamManager α :=
  match m.acquireStream with
  | (none, m) => (none, m)
  | (some stream, m) => (some stream, {m with pending := m.pending.insert stream item})

/-- The assertion of `release_stream` fails on a stream that is free. -/
def releaseStream (m : StreamManager α) (stream : Nat) : Option (StreamManager α) :=
  if (m.words[stream / 64]?.getD 0) &&& (1#64 <<< (stream % 64)) = 0 then
    some {m with words := m.words.modify (stream / 64) (· ||| (1#64 <<< (stream % 64)))}
  else none

def release (m : StreamManager α) (stream : Nat) : Option (StreamManager α) :=
  if stream < m.maxStreams then
    releaseStream {m with pending := m.pending.erase stream} stream
  else none

/-- The item that waits on the stream, if there is one; `none` is a failed
assertion. -/
def getPendingAndRelease (m : StreamManager α) (stream : Nat) :
    Option (Option α × StreamManager α) :=
  match m.pending.lookup stream with
  | none => some (none, m)
  | some item =>
      (releaseStream {m with pending := m.pending.erase stream} stream).map fun m => (some item, m)

/-- The words and the table say the same about every stream. The number of
words divides the range of the offset, so the scan sees every word also when
the offset wraps around. -/
structure Valid (m : StreamManager α) : Prop where
  size : m.maxStreams = 64 * m.numWords
  length : m.words.length = m.numWords
  wraps : m.numWords ∣ sizeRange
  nonempty : 0 < m.numWords
  bounded : ∀ s ∈ m.pending, s < m.maxStreams
  free_iff : ∀ s < m.maxStreams, Bitmap.bit m.words s = true ↔ s ∉ m.pending

theorem new_valid (protocolVersion : Nat) : (new protocolVersion : StreamManager α).Valid := by
  have hwords : ∃ k ≤ 9, (2 ^ (numBytesForStream protocolVersion * 8 - 1)) = 64 * 2 ^ k := by
    unfold numBytesForStream
    split
    · exact ⟨9, by omega, by decide⟩
    · exact ⟨1, by omega, by decide⟩
  obtain ⟨k, hk, hpow⟩ := hwords
  have hdiv : 64 * 2 ^ k / 64 = 2 ^ k := Nat.mul_div_cancel_left _ (by omega)
  constructor
  case size => simp only [new, hpow, hdiv]
  case length => simp only [new, List.length_replicate]
  case wraps =>
    simp only [new, hpow, hdiv, sizeRange]
    exact Nat.pow_dvd_pow 2 (by omega)
  case nonempty =>
    simp only [new, hpow, hdiv]
    exact Nat.two_pow_pos k
  case bounded =>
    intro s hs
    exact absurd hs Finmap.notMem_empty
  case free_iff =>
    intro s hs
    simp only [new, hpow, hdiv] at hs ⊢
    simp only [Bitmap.bit_replicate _ _ hs, true_iff]
    exact Finmap.notMem_empty

/-- The first set bit of a word. -/
theorem ctz_spec (word : Word) (hne : word ≠ 0) :
    word.ctz.toNat < 64 ∧ word.getLsbD word.ctz.toNat = true := by
  have hlt : word.ctz < 64 := BitVec.ctz_lt_iff_ne_zero.mpr hne
  have hnat : word.ctz.toNat < (64 : BitVec 64).toNat := BitVec.lt_def.mp hlt
  exact ⟨hnat, BitVec.getLsbD_true_ctz_of_ne_zero hne⟩

theorem getAndSetFirstAvailableStream_none {words : List Word} {index : Nat}
    (h : getAndSetFirstAvailableStream words index = none) (b : Nat) (hb : b < 64) :
    Bitmap.bit words (64 * index + b) = false := by
  simp only [getAndSetFirstAvailableStream] at h
  split at h
  case isTrue hzero =>
    rw [Bitmap.bit_mul_add _ _ _ hb, hzero]
    exact BitVec.getLsbD_zero
  case isFalse => simp at h

theorem getAndSetFirstAvailableStream_some {words taken : List Word} {index b : Nat}
    (h : getAndSetFirstAvailableStream words index = some (b, taken)) :
    b < 64 ∧ index < words.length ∧ Bitmap.bit words (64 * index + b) = true ∧
      taken = words.modify index (· ^^^ (1#64 <<< b)) := by
  simp only [getAndSetFirstAvailableStream] at h
  split at h
  case isTrue => simp at h
  case isFalse hne =>
    simp only [Option.some.injEq, Prod.mk.injEq] at h
    obtain ⟨rfl, rfl⟩ := h
    obtain ⟨hlt, hset⟩ := ctz_spec _ hne
    have hindex : index < words.length := by
      apply Nat.lt_of_not_le
      intro hle
      rw [List.getElem?_eq_none hle] at hne
      exact hne rfl
    exact ⟨hlt, hindex, by rw [Bitmap.bit_mul_add _ _ _ hlt, hset], rfl⟩

/-- What the loop finds is a free stream, and its bit is all that changes. -/
theorem scan_some {m : StreamManager α} {is : List Nat} {s : Nat} {taken : List Word}
    (h : m.scan is = some (s, taken)) (hlength : m.words.length = m.numWords) :
    s < 64 * m.numWords ∧ Bitmap.bit m.words s = true ∧ taken.length = m.words.length ∧
      ∀ i < 64 * m.numWords, Bitmap.bit taken i = (Bitmap.bit m.words i && decide (i ≠ s)) := by
  induction is with
  | nil => simp [scan] at h
  | cons i rest ih =>
      simp only [scan] at h
      split at h
      case h_2 => exact ih h
      case h_1 b words hfound =>
        simp only [Option.some.injEq, Prod.mk.injEq] at h
        obtain ⟨rfl, rfl⟩ := h
        obtain ⟨hb, hindex, hset, rfl⟩ := getAndSetFirstAvailableStream_some hfound
        rw [Nat.add_comm b]
        refine ⟨by omega, hset, List.length_modify .., ?_⟩
        intro j hj
        rw [Bitmap.bit_xor _ _ _ _ hindex hb (by omega)]
        by_cases hjs : j = 64 * ((i + m.offset) % sizeRange % m.numWords) + b
        · subst hjs
          simp [hset]
        · simp [hjs]

/-- When the loop finds nothing, the words it looked at are zero. -/
theorem scan_none {m : StreamManager α} {is : List Nat} (h : m.scan is = none) (i : Nat)
    (hi : i ∈ is) (b : Nat) (hb : b < 64) :
    Bitmap.bit m.words (64 * ((i + m.offset) % sizeRange % m.numWords) + b) = false := by
  induction is with
  | nil => simp at hi
  | cons i' rest ih =>
      simp only [scan] at h
      split at h
      case h_1 => simp at h
      case h_2 hnone =>
        rcases List.mem_cons.mp hi with hhead | htail
        · subst hhead
          exact getAndSetFirstAvailableStream_none hnone b hb
        · exact ih h htail

/-- Counting up from any offset modulo the range reaches every word. -/
theorem exists_index {n : Nat} (offset k : Nat) (hk : k < n) (hwraps : n ∣ sizeRange) :
    ∃ i ∈ List.range n, (i + offset) % sizeRange % n = k := by
  refine ⟨(k + (n - offset % n)) % n, List.mem_range.mpr (Nat.mod_lt _ (by omega)), ?_⟩
  rw [Nat.mod_mod_of_dvd _ hwraps, Nat.add_mod, Nat.mod_mod, ← Nat.add_mod]
  have hoffset : offset = n * (offset / n) + offset % n := (Nat.div_add_mod offset n).symm
  have hlt : offset % n < n := Nat.mod_lt _ (by omega)
  have hsum : k + (n - offset % n) + offset = k + n * (offset / n + 1) := by
    rw [Nat.mul_add]
    omega
  rw [hsum, Nat.add_mul_mod_self_left, Nat.mod_eq_of_lt hk]

theorem acquireStream_some {m m' : StreamManager α} {s : Nat} (hm : m.Valid)
    (h : m.acquireStream = (some s, m')) :
    s < m.maxStreams ∧ s ∉ m.pending ∧ m' = {m with offset := m'.offset, words := m'.words} ∧
      m'.words.length = m.words.length ∧
      ∀ i < m.maxStreams, Bitmap.bit m'.words i = (Bitmap.bit m.words i && decide (i ≠ s)) := by
  simp only [acquireStream] at h
  split at h
  case h_2 => simp at h
  case h_1 s' words hscan =>
    simp only [Prod.mk.injEq, Option.some.injEq] at h
    obtain ⟨rfl, rfl⟩ := h
    obtain ⟨hlt, hset, hlength, hbits⟩ := scan_some hscan hm.length
    rw [← hm.size] at hlt hbits
    exact ⟨hlt, (hm.free_iff s' hlt).mp hset, rfl, hlength, hbits⟩

/-- No stream is found only when a request waits on every one. -/
theorem acquireStream_none {m m' : StreamManager α} (hm : m.Valid)
    (h : m.acquireStream = (none, m')) :
    (∀ s < m.maxStreams, s ∈ m.pending) ∧ m' = {m with offset := m'.offset} := by
  simp only [acquireStream] at h
  split at h
  case h_1 => simp at h
  case h_2 hscan =>
    simp only [Prod.mk.injEq, true_and] at h
    subst h
    refine ⟨?_, rfl⟩
    intro s hs
    obtain ⟨k, b, hk, hb, rfl⟩ := Bitmap.exists_word m.numWords s (by rw [← hm.size]; exact hs)
    obtain ⟨i, hi, hindex⟩ := exists_index m.offset k hk hm.wraps
    have hclear := scan_none hscan i hi b hb
    rw [hindex] at hclear
    apply Classical.byContradiction
    intro hfree
    rw [(hm.free_iff _ hs).mpr hfree] at hclear
    exact Bool.noConfusion hclear

theorem acquire_some {m m' : StreamManager α} {item : α} {s : Nat} (hm : m.Valid)
    (h : m.acquire item = (some s, m')) :
    s < m.maxStreams ∧ s ∉ m.pending ∧ m'.pending = m.pending.insert s item ∧
      m'.maxStreams = m.maxStreams ∧ m'.Valid := by
  simp only [acquire] at h
  split at h
  case h_1 => simp at h
  case h_2 s' moved hacquire =>
    simp only [Prod.mk.injEq, Option.some.injEq] at h
    obtain ⟨rfl, rfl⟩ := h
    obtain ⟨hlt, hfree, hmoved, hlength, hbits⟩ := acquireStream_some hm hacquire
    have hpending : moved.pending = m.pending := by rw [hmoved]
    have hmax : moved.maxStreams = m.maxStreams := by rw [hmoved]
    have hnum : moved.numWords = m.numWords := by rw [hmoved]
    refine ⟨hlt, hfree, by rw [hpending], hmax, ?_⟩
    constructor
    case size => rw [hmax, hnum, hm.size]
    case length => rw [hlength, hnum, hm.length]
    case wraps => rw [hnum]; exact hm.wraps
    case nonempty => rw [hnum]; exact hm.nonempty
    case bounded =>
      intro i hi
      rw [hmax]
      rcases Finmap.mem_insert.mp hi with rfl | hold
      · exact hlt
      · exact hm.bounded i (hpending ▸ hold)
    case free_iff =>
      intro i hi
      rw [hmax] at hi
      rw [hbits i hi, Bool.and_eq_true, hm.free_iff i hi, Finmap.mem_insert, hpending,
        decide_eq_true_eq]
      tauto

theorem acquire_none {m m' : StreamManager α} {item : α} (hm : m.Valid)
    (h : m.acquire item = (none, m')) :
    (∀ s < m.maxStreams, s ∈ m.pending) ∧ m'.pending = m.pending ∧
      m'.maxStreams = m.maxStreams ∧ m'.Valid := by
  simp only [acquire] at h
  split at h
  case h_2 => simp at h
  case h_1 moved hacquire =>
    simp only [Prod.mk.injEq, true_and] at h
    subst h
    obtain ⟨hfull, hmoved⟩ := acquireStream_none hm hacquire
    rw [hmoved]
    exact ⟨hfull, rfl, rfl, hm.size, hm.length, hm.wraps, hm.nonempty, hm.bounded, hm.free_iff⟩

theorem bit_eq_and (words : List Word) (s : Nat) :
    (words[s / 64]?.getD 0) &&& (1#64 <<< (s % 64)) = 0 ↔ Bitmap.bit words s = false := by
  have hmod : s % 64 < 64 := Nat.mod_lt _ (by omega)
  constructor
  · intro hzero
    have hbit : ((words[s / 64]?.getD 0) &&& (1#64 <<< (s % 64))).getLsbD (s % 64) = false := by
      rw [hzero]
      exact BitVec.getLsbD_zero
    rw [BitVec.getLsbD_and, Bitmap.one_shiftLeft _ _ hmod] at hbit
    simpa [Bitmap.bit] using hbit
  · intro hclear
    apply BitVec.eq_of_getLsbD_eq
    intro i hi
    rw [BitVec.getLsbD_and, Bitmap.one_shiftLeft _ _ hi]
    by_cases his : i = s % 64
    · subst his
      simp only [Bitmap.bit] at hclear
      rw [hclear, Bool.false_and]
      exact BitVec.getLsbD_zero.symm
    · rw [decide_eq_false his, Bool.and_false]
      exact BitVec.getLsbD_zero.symm

/-- Erasing a pending stream from the table and setting its bit go together. -/
theorem releaseStream_spec {m : StreamManager α} (hm : m.Valid) {s : Nat}
    (hs : s ∈ m.pending) :
    ∃ m', releaseStream {m with pending := m.pending.erase s} s = some m' ∧
      m'.pending = m.pending.erase s ∧ m'.maxStreams = m.maxStreams ∧ m'.Valid := by
  have hlt : s < m.maxStreams := hm.bounded s hs
  have hclear : Bitmap.bit m.words s = false := by
    rw [← Bool.not_eq_true, hm.free_iff s hlt]
    exact fun hfree => hfree hs
  have hindex : s / 64 < m.words.length := by
    rw [hm.length]
    apply Nat.div_lt_of_lt_mul
    rw [← hm.size]
    exact hlt
  refine ⟨{m with words := m.words.modify (s / 64) (· ||| (1#64 <<< (s % 64))),
                  pending := m.pending.erase s},
    by rw [releaseStream, if_pos ((bit_eq_and m.words s).mpr hclear)], rfl, rfl, ?_⟩
  constructor
  case size => exact hm.size
  case length => rw [List.length_modify]; exact hm.length
  case wraps => exact hm.wraps
  case nonempty => exact hm.nonempty
  case bounded =>
    intro i hi
    exact hm.bounded i (Finmap.mem_erase.mp hi).2
  case free_iff =>
    intro i hi
    have hsize : i < 64 * m.words.length := by
      rw [hm.length, ← hm.size]
      exact hi
    have hsplit : 64 * (s / 64) + s % 64 = s := Nat.div_add_mod s 64
    rw [Bitmap.bit_or _ _ _ _ hindex (Nat.mod_lt _ (by omega)) hsize, hsplit,
      Bool.or_eq_true, hm.free_iff i hi, Finmap.mem_erase, decide_eq_true_eq]
    tauto

theorem release_spec {m : StreamManager α} (hm : m.Valid) {s : Nat} (hs : s ∈ m.pending) :
    ∃ m', m.release s = some m' ∧ m'.pending = m.pending.erase s ∧
      m'.maxStreams = m.maxStreams ∧ m'.Valid := by
  rw [release, if_pos (hm.bounded s hs)]
  exact releaseStream_spec hm hs

theorem release_none {m : StreamManager α} (hm : m.Valid) {s : Nat} (hs : s ∉ m.pending) :
    m.release s = none := by
  rw [release]
  split
  case isFalse => rfl
  case isTrue hlt =>
    have hset : Bitmap.bit m.words s = true := (hm.free_iff s hlt).mpr hs
    rw [releaseStream, if_neg]
    rw [bit_eq_and, hset]
    exact Bool.noConfusion

theorem getPendingAndRelease_some {m : StreamManager α} (hm : m.Valid) {s : Nat} {item : α}
    (hs : m.pending.lookup s = some item) :
    ∃ m', m.getPendingAndRelease s = some (some item, m') ∧
      m'.pending = m.pending.erase s ∧ m'.maxStreams = m.maxStreams ∧ m'.Valid := by
  obtain ⟨m', hrelease, hm'⟩ := releaseStream_spec hm (Finmap.mem_of_lookup_eq_some hs)
  refine ⟨m', ?_, hm'⟩
  simp only [getPendingAndRelease, hs, hrelease, Option.map_some]

theorem getPendingAndRelease_none {m : StreamManager α} {s : Nat} (hs : s ∉ m.pending) :
    m.getPendingAndRelease s = some (none, m) := by
  simp only [getPendingAndRelease, Finmap.lookup_eq_none.mpr hs]

/-- The calls of a connection, `get_pending_and_release` being `take`. -/
inductive Call (α : Type) where
  | acquire (item : α)
  | release (stream : Nat)
  | take (stream : Nat)

inductive Answer (α : Type) where
  | stream (found : Option Nat)
  | released
  | item (found : Option α)

/-- A call that fails an assertion gives nothing. -/
def call (m : StreamManager α) : Call α → Option (Answer α × StreamManager α)
  | .acquire item => some (.stream (m.acquire item).1, (m.acquire item).2)
  | .release stream => (m.release stream).map fun m => (.released, m)
  | .take stream => (m.getPendingAndRelease stream).map fun (found, m) => (.item found, m)

def calls (m : StreamManager α) : List (Call α) → Option (List (Answer α) × StreamManager α)
  | [] => some ([], m)
  | c :: rest => do
      let (answer, m) ← m.call c
      let (answers, m) ← m.calls rest
      return (answer :: answers, m)

/-- What the manager is for: a table of at most `maxStreams` entries that gives
out some number that is not in use. -/
inductive Table.Step (maxStreams : Nat) :
    (Finmap fun _ : Nat => α) → Call α → Answer α → (Finmap fun _ : Nat => α) → Prop
  | acquired (table) (item : α) (s : Nat) (hs : s < maxStreams) (hfree : s ∉ table) :
      Step maxStreams table (.acquire item) (.stream (some s)) (table.insert s item)
  | exhausted (table) (item : α) (hfull : ∀ s < maxStreams, s ∈ table) :
      Step maxStreams table (.acquire item) (.stream none) table
  | released (table) (s : Nat) (hs : s ∈ table) :
      Step maxStreams table (.release s) .released (table.erase s)
  | taken (table) (s : Nat) (item : α) (hs : table.lookup s = some item) :
      Step maxStreams table (.take s) (.item (some item)) (table.erase s)
  | unknown (table) (s : Nat) (hs : s ∉ table) :
      Step maxStreams table (.take s) (.item none) table

inductive Table.Run (maxStreams : Nat) :
    (Finmap fun _ : Nat => α) → List (Call α) → List (Answer α) →
      (Finmap fun _ : Nat => α) → Prop
  | nil (table) : Run maxStreams table [] [] table
  | cons {table next last : Finmap fun _ : Nat => α} {c : Call α} {cs : List (Call α)}
      {a : Answer α} {as : List (Answer α)} (step : Table.Step maxStreams table c a next)
      (rest : Run maxStreams next cs as last) :
      Run maxStreams table (c :: cs) (a :: as) last

/-- One call is a step of the table, and the manager stays valid. -/
theorem call_step {m m' : StreamManager α} {c : Call α} {a : Answer α} (hm : m.Valid)
    (h : m.call c = some (a, m')) :
    Table.Step m.maxStreams m.pending c a m'.pending ∧ m'.maxStreams = m.maxStreams ∧
      m'.Valid := by
  cases c with
  | acquire item =>
      simp only [call, Option.some.injEq, Prod.mk.injEq] at h
      obtain ⟨rfl, rfl⟩ := h
      cases hacquire : m.acquire item with
      | mk found next =>
          cases found with
          | none =>
              obtain ⟨hfull, hpending, hmax, hvalid⟩ := acquire_none hm hacquire
              rw [hpending]
              exact ⟨.exhausted _ item hfull, hmax, hvalid⟩
          | some s =>
              obtain ⟨hlt, hfree, hpending, hmax, hvalid⟩ := acquire_some hm hacquire
              rw [hpending]
              exact ⟨.acquired _ item s hlt hfree, hmax, hvalid⟩
  | release s =>
      simp only [call, Option.map_eq_some_iff, Prod.mk.injEq] at h
      obtain ⟨next, hrelease, rfl, rfl⟩ := h
      have hs : s ∈ m.pending := by
        apply Classical.byContradiction
        intro hs
        rw [release_none hm hs] at hrelease
        simp at hrelease
      obtain ⟨next', hrelease', hpending, hmax, hvalid⟩ := release_spec hm hs
      rw [hrelease, Option.some.injEq] at hrelease'
      subst hrelease'
      rw [hpending]
      exact ⟨.released _ s hs, hmax, hvalid⟩
  | take s =>
      simp only [call, Option.map_eq_some_iff, Prod.mk.injEq] at h
      obtain ⟨⟨found, next⟩, htake, rfl, rfl⟩ := h
      cases hlookup : m.pending.lookup s with
      | none =>
          have hs : s ∉ m.pending := Finmap.lookup_eq_none.mp hlookup
          rw [getPendingAndRelease_none hs, Option.some.injEq, Prod.mk.injEq] at htake
          obtain ⟨rfl, rfl⟩ := htake
          exact ⟨.unknown _ s hs, rfl, hm⟩
      | some item =>
          obtain ⟨next', htake', hpending, hmax, hvalid⟩ := getPendingAndRelease_some hm hlookup
          rw [htake, Option.some.injEq, Prod.mk.injEq] at htake'
          obtain ⟨rfl, rfl⟩ := htake'
          rw [hpending]
          exact ⟨.taken _ s item hlookup, hmax, hvalid⟩

theorem calls_run {m m' : StreamManager α} {cs : List (Call α)} {as : List (Answer α)}
    (hm : m.Valid) (h : m.calls cs = some (as, m')) :
    Table.Run m.maxStreams m.pending cs as m'.pending ∧ m'.Valid := by
  induction cs generalizing m as with
  | nil =>
      simp only [calls, Option.some.injEq, Prod.mk.injEq] at h
      obtain ⟨rfl, rfl⟩ := h
      exact ⟨.nil _, hm⟩
  | cons c cs ih =>
      simp only [calls, Option.bind_eq_bind, Option.bind_eq_some_iff] at h
      obtain ⟨⟨answer, next⟩, hcall, ⟨answers, last⟩, hcalls, hreturn⟩ := h
      simp only [Option.pure_def, Option.some.injEq, Prod.mk.injEq] at hreturn
      obtain ⟨rfl, rfl⟩ := hreturn
      obtain ⟨hstep, hmax, hvalid⟩ := call_step hm hcall
      obtain ⟨hrun, hlast⟩ := ih hvalid hcalls
      rw [hmax] at hrun
      exact ⟨.cons hstep hrun, hlast⟩

theorem new_maxStreams (protocolVersion : Nat) :
    (new protocolVersion : StreamManager α).maxStreams =
      if protocolVersion ≥ 3 then 32768 else 128 := by
  simp only [new, numBytesForStream]
  split
  · decide
  · decide

/-- The only call that fails an assertion is the release of a stream nothing
waits on. -/
theorem call_none {m : StreamManager α} (hm : m.Valid) (c : Call α) :
    m.call c = none ↔ ∃ s, c = .release s ∧ s ∉ m.pending := by
  cases c with
  | acquire item => simp [call]
  | release s =>
      simp only [call, Option.map_eq_none_iff, Call.release.injEq, exists_eq_left']
      constructor
      · intro hnone hs
        obtain ⟨m', hsome, -⟩ := release_spec hm hs
        rw [hnone] at hsome
        simp at hsome
      · exact release_none hm
  | take s =>
      simp only [call, Option.map_eq_none_iff, reduceCtorEq, false_and, exists_false, iff_false]
      cases hlookup : m.pending.lookup s with
      | none => simp [getPendingAndRelease_none (Finmap.lookup_eq_none.mp hlookup)]
      | some item =>
          obtain ⟨m', htake, -⟩ := getPendingAndRelease_some hm hlookup
          simp [htake]

/-- Whatever calls a connection makes, its manager answers as a table of 32768
or 128 entries does, so a stream is given out only while nothing waits on it. -/
theorem answers_refine_table (protocolVersion : Nat) (cs : List (Call α))
    (as : List (Answer α)) (m : StreamManager α)
    (h : (new protocolVersion).calls cs = some (as, m)) :
    Table.Run (if protocolVersion ≥ 3 then 32768 else 128) ∅ cs as m.pending ∧
      ∀ c, m.call c = none ↔ ∃ s, c = .release s ∧ s ∉ m.pending := by
  obtain ⟨hrun, hvalid⟩ := calls_run (new_valid protocolVersion) h
  rw [new_maxStreams] at hrun
  exact ⟨hrun, call_none hvalid⟩

set_option maxRecDepth 8000 in
theorem answers_refine_table_reuse :
    ∃ m : StreamManager Nat,
      Table.Run 128 ∅ [.acquire 7, .acquire 8, .take 0, .take 0, .release 64]
        [.stream (some 0), .stream (some 64), .item (some 7), .item none, .released]
        m.pending :=
  ⟨_, (answers_refine_table 2 _ _ _ rfl).1⟩

end StreamManager

end Img2Web.Driver
