import Mathlib.Data.Finset.Card
import Mathlib.Data.List.GetD
import Mathlib.Data.List.Range
import Mathlib.Logic.Function.Basic
import Img2Web.Driver.Utils
import Img2Web.Text.Bytes

/-!
`CaseInsensitiveHashTable`, which finds the columns of a result by name. Names
that differ in case only are chained behind the first of them, which is found
in `index_` by linear probing. The locale is "C".
-/

namespace Img2Web.Driver

open Text

def upper (b : UInt8) : UInt8 := if 97 ≤ b && b ≤ 122 then b - 32 else b

def iequals (s t : Bytes) : Bool := s.map upper == t.map upper

def fnv1aHashLower (s : Bytes) : UInt64 :=
  s.foldl (fun h b => (h ^^^ (lower b).toUInt64) * 0x100000001b3) 0xcbf29ce484222325

theorem upper_lower (b : UInt8) : lower (upper b) = lower b := by
  have hcases : b.toNat < 97 ∨ 122 < b.toNat ∨ (97 ≤ b.toNat ∧ b.toNat ≤ 122) := by omega
  simp only [upper, lower, isUpper, Bool.and_eq_true, decide_eq_true_eq, UInt8.le_iff_toNat_le]
  rw [← UInt8.toNat_inj]
  have h32 : (32 : UInt8).toNat = 32 := rfl
  have h65 : (65 : UInt8).toNat = 65 := rfl
  have h90 : (90 : UInt8).toNat = 90 := rfl
  have h97 : (97 : UInt8).toNat = 97 := rfl
  have h122 : (122 : UInt8).toNat = 122 := rfl
  have hb := b.toNat_lt
  split_ifs <;>
    simp only [UInt8.toNat_add, UInt8.toNat_sub, h32, h65, h90, h97, h122] at * <;>
    omega

theorem iequals_iff {s t : Bytes} : iequals s t = true ↔ s.map upper = t.map upper := by
  rw [iequals, beq_iff_eq]

theorem iequals_self (s : Bytes) : iequals s s = true := by
  rw [iequals_iff]

theorem iequals_comm (s t : Bytes) : iequals s t = iequals t s := by
  rw [iequals, iequals, Bool.beq_comm]

/-- Names that differ in case only are compared alike. -/
theorem iequals_congr {s t : Bytes} (h : iequals s t = true) (x : Bytes) :
    iequals s x = iequals t x := by
  rw [iequals_iff] at h
  rw [iequals, iequals, h]

theorem fnv1aHashLower_upper (s : Bytes) : fnv1aHashLower (s.map upper) = fnv1aHashLower s := by
  rw [fnv1aHashLower, fnv1aHashLower, List.foldl_map]
  simp only [upper_lower]

theorem fnv1aHashLower_congr {s t : Bytes} (h : iequals s t = true) :
    fnv1aHashLower s = fnv1aHashLower t := by
  rw [iequals_iff] at h
  rw [← fnv1aHashLower_upper s, h, fnv1aHashLower_upper]

/-- Entries are known by their place in `entries_`, also where the source keeps
a pointer to them. -/
structure CaseInsensitiveHashTable where
  indexMask : Nat
  index : List (Option Nat)
  capacity : Nat
  names : List Bytes
  next : Nat → Option Nat

namespace CaseInsensitiveHashTable

def nameAt (t : CaseInsensitiveHashTable) (e : Nat) : Bytes := t.names.getD e []

def bucket (t : CaseInsensitiveHashTable) (h : Nat) : Option Nat := (t.index[h]?).join

/-- `CASS_LOAD_FACTOR` is 3 / 4. -/
def reset (t : CaseInsensitiveHashTable) (capacity : Nat) : CaseInsensitiveHashTable :=
  let capacity := max capacity t.capacity
  let indexCapacity := nextPow2 (4 * capacity / 3 + 1)
  {t with
    index := List.replicate indexCapacity none
    capacity := capacity
    indexMask := indexCapacity - 1}

/-- There is room for 16 entries from the start. -/
def new (capacity : Nat) : CaseInsensitiveHashTable :=
  reset ⟨0, [], 16, [], fun _ => none⟩ capacity

/-- The first bucket from `h` on that is empty or has the name. The loop of the
source ends where it started, after as many buckets as there are. -/
def probe (t : CaseInsensitiveHashTable) (name : Bytes) : Nat → Nat → Option Nat
  | 0, _ => none
  | n + 1, h =>
      match t.bucket h with
      | none => some h
      | some e =>
          if iequals name (t.nameAt e) then some h
          else t.probe name n ((h + 1) &&& t.indexMask)

def start (t : CaseInsensitiveHashTable) (name : Bytes) : Nat :=
  (fnv1aHashLower name).toNat &&& t.indexMask

/-- An entry and those that its `next` leads to. -/
def chain (t : CaseInsensitiveHashTable) : Nat → Option Nat → List Nat
  | 0, _ => []
  | _, none => []
  | n + 1, some e => e :: t.chain n (t.next e)

/-- A name in quotes is looked up as it is written. A quote by itself fails the
assertion of `substr`. -/
def getIndices (t : CaseInsensitiveHashTable) (name : Bytes) : Option (List Nat) :=
  let isCaseSensitive := name.head? = some 34 && name.getLast? = some 34
  if isCaseSensitive && name.length = 1 then none
  else
    let name := if isCaseSensitive then (name.drop 1).take (name.length - 2) else name
    match t.probe name t.index.length (t.start name) with
    | none => some []
    | some h =>
        match t.bucket h with
        | none => some []
        | some e =>
            let entries := t.chain t.names.length (some e)
            some (if isCaseSensitive then entries.filter fun e => name == t.nameAt e else entries)

def last (t : CaseInsensitiveHashTable) : Nat → Nat → Nat
  | 0, e => e
  | n + 1, e =>
      match t.next e with
      | none => e
      | some e => t.last n e

def addIndex (t : CaseInsensitiveHashTable) (e : Nat) : CaseInsensitiveHashTable :=
  match t.probe (t.nameAt e) t.index.length (t.start (t.nameAt e)) with
  | none => t
  | some h =>
      match t.bucket h with
      | none => {t with index := t.index.set h (some e)}
      | some first =>
          {t with next := Function.update t.next (t.last t.names.length first) (some e)}

/-- The entries move, but `next` still leads to where they were: nothing is
said of a table with chains. -/
def resize (t : CaseInsensitiveHashTable) (capacity : Nat) : Option CaseInsensitiveHashTable :=
  if (List.range t.names.length).all fun e => (t.next e).isNone then
    some ((List.range t.names.length).foldl addIndex (t.reset capacity))
  else none

def add (t : CaseInsensitiveHashTable) (name : Bytes) : Option CaseInsensitiveHashTable :=
  let grown := if t.names.length ≥ t.capacity then t.resize (2 * t.capacity) else some t
  grown.map fun t => {t with names := t.names ++ [name]}.addIndex t.names.length

def addAll (t : CaseInsensitiveHashTable) : List Bytes → Option CaseInsensitiveHashTable
  | [] => some t
  | name :: names => do
      let t ← t.add name
      t.addAll names

def Sized (t : CaseInsensitiveHashTable) : Prop :=
  ∃ k, t.index.length = 2 ^ k ∧ t.indexMask = 2 ^ k - 1

theorem Sized.pos {t : CaseInsensitiveHashTable} (ht : t.Sized) : 0 < t.index.length := by
  obtain ⟨k, hsize, -⟩ := ht
  rw [hsize]
  exact Nat.two_pow_pos k

theorem Sized.and_mask {t : CaseInsensitiveHashTable} (ht : t.Sized) (h : Nat) :
    h &&& t.indexMask = h % t.index.length := by
  obtain ⟨k, hsize, hmask⟩ := ht
  rw [hsize, hmask, Nat.and_two_pow_sub_one_eq_mod]

def stops (t : CaseInsensitiveHashTable) (name : Bytes) (h : Nat) : Bool :=
  match t.bucket h with
  | none => true
  | some e => iequals name (t.nameAt e)

/-- Probing goes round the buckets from where it starts. -/
theorem probe_eq {t : CaseInsensitiveHashTable} (ht : t.Sized) (name : Bytes) (n : Nat) {h : Nat}
    (hh : h < t.index.length) :
    t.probe name n h =
      ((List.range n).find? fun i => t.stops name ((h + i) % t.index.length)).map fun i =>
        (h + i) % t.index.length := by
  induction n generalizing h with
  | zero => rfl
  | succ n ih =>
      have hstart : (h + 0) % t.index.length = h := Nat.mod_eq_of_lt hh
      have hnext := ih (h := (h + 1) % t.index.length) (Nat.mod_lt _ ht.pos)
      rw [← ht.and_mask] at hnext
      rw [List.range_succ_eq_map, List.find?_cons]
      simp only [probe, hstart]
      have hshift (i : Nat) : (((h + 1) &&& t.indexMask) + i) % t.index.length =
          (h + (i + 1)) % t.index.length := by
        rw [ht.and_mask, Nat.mod_add_mod, Nat.add_assoc, Nat.add_comm 1 i]
      cases hstops : t.stops name h with
      | true =>
          simp only [Option.map_some, hstart]
          simp only [stops] at hstops
          cases hbucket : t.bucket h with
          | none => rfl
          | some e =>
              simp only [hbucket] at hstops
              simp only [hstops, ↓reduceIte]
      | false =>
          simp only [stops] at hstops
          cases hbucket : t.bucket h with
          | none => simp only [hbucket, Bool.true_eq_false] at hstops
          | some e =>
              simp only [hbucket] at hstops
              simp only [hstops, Bool.false_eq_true, ↓reduceIte, hnext, hshift,
                List.find?_map, Option.map_map]
              rfl

def firstOf (t : CaseInsensitiveHashTable) (n : Nat) (x : Bytes) : Option Nat :=
  (List.range n).find? fun i => iequals x (t.nameAt i)

def nextOf (t : CaseInsensitiveHashTable) (n e : Nat) : Option Nat :=
  (List.range' (e + 1) (n - (e + 1))).find? fun i => iequals (t.nameAt e) (t.nameAt i)

/-- The first `n` entries have been added to the index. -/
structure Indexed (t : CaseInsensitiveHashTable) (n : Nat) : Prop where
  sized : t.Sized
  room : t.capacity < t.index.length
  occupied : t.index.countP Option.isSome ≤ n
  heads : ∀ h e, t.bucket h = some e → t.firstOf n (t.nameAt e) = some e
  reached : ∀ x e, t.firstOf n x = some e → ∃ j < t.index.length,
    t.bucket ((t.start x + j) % t.index.length) = some e ∧
      ∀ i < j, (t.bucket ((t.start x + i) % t.index.length)).isSome = true
  linked : ∀ e, t.next e = t.nextOf n e

theorem start_lt {t : CaseInsensitiveHashTable} (ht : t.Sized) (x : Bytes) :
    t.start x < t.index.length := by
  rw [start, ht.and_mask]
  exact Nat.mod_lt _ ht.pos

theorem start_congr {x y : Bytes} (h : iequals x y = true) (t : CaseInsensitiveHashTable) :
    t.start x = t.start y := by
  rw [start, start, fnv1aHashLower_congr h]

theorem firstOf_congr {x y : Bytes} (h : iequals x y = true) (t : CaseInsensitiveHashTable)
    (n : Nat) : t.firstOf n x = t.firstOf n y := by
  simp only [firstOf, iequals_congr h]

theorem firstOf_eq_some {t : CaseInsensitiveHashTable} {n e : Nat} {x : Bytes} :
    t.firstOf n x = some e ↔ iequals x (t.nameAt e) = true ∧ e < n ∧
      ∀ i < e, iequals x (t.nameAt i) = false := by
  simp [firstOf]

theorem firstOf_eq_none {t : CaseInsensitiveHashTable} {n : Nat} {x : Bytes} :
    t.firstOf n x = none ↔ ∀ i < n, iequals x (t.nameAt i) = false := by
  simp [firstOf]

theorem firstOf_succ (t : CaseInsensitiveHashTable) (n : Nat) (x : Bytes) :
    t.firstOf (n + 1) x =
      (t.firstOf n x).or (if iequals x (t.nameAt n) then some n else none) := by
  rw [firstOf, firstOf, List.range_succ, List.find?_append, List.find?_singleton]

theorem nextOf_eq_some {t : CaseInsensitiveHashTable} {n e l : Nat} :
    t.nextOf n e = some l ↔ iequals (t.nameAt e) (t.nameAt l) = true ∧ (e < l ∧ l < n) ∧
      ∀ i, e < i → i < l → iequals (t.nameAt e) (t.nameAt i) = false := by
  simp only [nextOf, List.find?_range'_eq_some, List.mem_range'_1, Bool.not_eq_eq_eq_not,
    Bool.not_true]
  constructor
  · rintro ⟨heq, ⟨hlow, hhigh⟩, hbetween⟩
    exact ⟨heq, ⟨by omega, by omega⟩, fun i hi => hbetween i hi⟩
  · rintro ⟨heq, ⟨hlow, hhigh⟩, hbetween⟩
    exact ⟨heq, ⟨by omega, by omega⟩, fun i hi => hbetween i hi⟩

theorem nextOf_eq_none {t : CaseInsensitiveHashTable} {n e : Nat} :
    t.nextOf n e = none ↔
      ∀ i, e < i → i < n → iequals (t.nameAt e) (t.nameAt i) = false := by
  simp only [nextOf, List.find?_range'_eq_none, Bool.not_eq_eq_eq_not, Bool.not_true]
  constructor
  · intro h i hlow hhigh
    exact h i (by omega) (by omega)
  · intro h i hlow hhigh
    exact h i (by omega) (by omega)

/-- The empty bucket at which a name is missed. -/
theorem Indexed.probe_empty {t : CaseInsensitiveHashTable} {n : Nat} (ht : t.Indexed n)
    (hn : n < t.index.length) {x : Bytes} (hx : t.firstOf n x = none) :
    ∃ j < t.index.length,
      t.probe x t.index.length (t.start x) = some ((t.start x + j) % t.index.length) ∧
        t.bucket ((t.start x + j) % t.index.length) = none ∧
          ∀ i < j, (t.bucket ((t.start x + i) % t.index.length)).isSome = true := by
  have hstart := start_lt ht.sized x
  have hempty : ∃ h < t.index.length, t.bucket h = none := by
    by_contra hfull
    push Not at hfull
    have hall : t.index.countP Option.isSome = t.index.length := by
      rw [List.countP_eq_length]
      intro b hb
      obtain ⟨h, hh, rfl⟩ := List.getElem_of_mem hb
      have := hfull h hh
      rw [bucket, List.getElem?_eq_getElem hh, Option.join_some] at this
      exact Option.isSome_iff_ne_none.mpr this
    have := ht.occupied
    omega
  rw [probe_eq ht.sized x _ hstart]
  cases hfind : (List.range t.index.length).find? fun i =>
      t.stops x ((t.start x + i) % t.index.length) with
  | none =>
      obtain ⟨h, hh, hnone⟩ := hempty
      rw [List.find?_range_eq_none] at hfind
      have hround : (t.start x + (h + t.index.length - t.start x) % t.index.length) %
          t.index.length = h := by
        rw [Nat.add_mod_mod, show t.start x + (h + t.index.length - t.start x) =
          h + t.index.length by omega, Nat.add_mod_right, Nat.mod_eq_of_lt hh]
      have := hfind _ (Nat.mod_lt (h + t.index.length - t.start x) ht.sized.pos)
      rw [hround, stops, hnone] at this
      cases this
  | some j =>
      obtain ⟨hstops, hj, hbefore⟩ := List.find?_range_eq_some.mp hfind
      rw [List.mem_range] at hj
      refine ⟨j, hj, rfl, ?_, ?_⟩
      · cases hbucket : t.bucket ((t.start x + j) % t.index.length) with
        | none => rfl
        | some e =>
            simp only [stops, hbucket] at hstops
            have := ht.heads _ e hbucket
            rw [← firstOf_congr hstops, hx] at this
            cases this
      · intro i hi
        have := hbefore i hi
        cases hbucket : t.bucket ((t.start x + i) % t.index.length) with
        | none => simp [stops, hbucket] at this
        | some e => rfl

theorem Indexed.probe_first {t : CaseInsensitiveHashTable} {n e : Nat} (ht : t.Indexed n)
    {x : Bytes} (hx : t.firstOf n x = some e) :
    ∃ h, t.probe x t.index.length (t.start x) = some h ∧ t.bucket h = some e := by
  obtain ⟨j, hj, hat, hbefore⟩ := ht.reached x e hx
  have hmatch := (firstOf_eq_some.mp hx).1
  rw [probe_eq ht.sized x _ (start_lt ht.sized x)]
  cases hfind : (List.range t.index.length).find? fun i =>
      t.stops x ((t.start x + i) % t.index.length) with
  | none =>
      rw [List.find?_range_eq_none] at hfind
      have := hfind j hj
      simp [stops, hat, hmatch] at this
  | some i =>
      obtain ⟨hstops, -, hfirst⟩ := List.find?_range_eq_some.mp hfind
      refine ⟨_, rfl, ?_⟩
      have hij : i ≤ j := by
        by_contra hlater
        have := hfirst j (by omega)
        simp [stops, hat, hmatch] at this
      rcases Nat.eq_or_lt_of_le hij with rfl | hlt
      · exact hat
      · obtain ⟨f, hf⟩ := Option.isSome_iff_exists.mp (hbefore i hlt)
        simp only [stops, hf] at hstops
        have := ht.heads _ f hf
        rw [← firstOf_congr hstops, hx] at this
        rw [hf, this]

theorem nextOf_succ (t : CaseInsensitiveHashTable) (n e : Nat) :
    t.nextOf (n + 1) e = (t.nextOf n e).or
      (if e < n ∧ iequals (t.nameAt e) (t.nameAt n) = true then some n else none) := by
  by_cases he : e < n
  · rw [nextOf, nextOf, show n + 1 - (e + 1) = n - (e + 1) + 1 by omega, List.range'_1_concat,
      List.find?_append, show e + 1 + (n - (e + 1)) = n by omega, List.find?_singleton]
    simp only [he, true_and]
  · rw [nextOf, nextOf, show n + 1 - (e + 1) = 0 by omega, show n - (e + 1) = 0 by omega]
    simp [he]

/-- The end of a chain has the same name, and nothing behind it. -/
theorem Indexed.last_spec {t : CaseInsensitiveHashTable} {n : Nat} (ht : t.Indexed n)
    (fuel : Nat) {e : Nat} (he : e < n) (hfuel : n ≤ fuel + e + 1) :
    t.last fuel e < n ∧ iequals (t.nameAt e) (t.nameAt (t.last fuel e)) = true ∧
      t.nextOf n (t.last fuel e) = none := by
  induction fuel generalizing e with
  | zero =>
      refine ⟨he, iequals_self _, nextOf_eq_none.mpr ?_⟩
      intro i hlow hhigh
      rw [last] at hlow
      omega
  | succ fuel ih =>
      rw [last, ht.linked]
      cases hnext : t.nextOf n e with
      | none => exact ⟨he, iequals_self _, hnext⟩
      | some l =>
          obtain ⟨heq, ⟨hlow, hhigh⟩, -⟩ := nextOf_eq_some.mp hnext
          obtain ⟨hlt, hlast, hend⟩ := ih hhigh (by omega)
          exact ⟨hlt, (iequals_congr heq _).trans hlast, hend⟩

theorem bucket_set {t : CaseInsensitiveHashTable} {b : Nat} (hb : b < t.index.length)
    (e h : Nat) :
    {t with index := t.index.set b (some e)}.bucket h =
      if h = b then some e else t.bucket h := by
  simp only [bucket, List.getElem?_set, hb, ↓reduceIte, eq_comm (a := b)]
  split
  · rfl
  · rfl

/-- A name that is new to the index takes the empty bucket it was missed at. -/
theorem Indexed.set {t : CaseInsensitiveHashTable} {n j b : Nat} (ht : t.Indexed n)
    (hnew : t.firstOf n (t.nameAt n) = none) (hj : j < t.index.length)
    (hb : (t.start (t.nameAt n) + j) % t.index.length = b) (hempty : t.bucket b = none)
    (hbefore : ∀ i < j,
      (t.bucket ((t.start (t.nameAt n) + i) % t.index.length)).isSome = true) :
    {t with index := t.index.set b (some n)}.Indexed (n + 1) := by
  have hlt : b < t.index.length := by
    rw [← hb]
    exact Nat.mod_lt _ ht.sized.pos
  have hfirst (x : Bytes) (e : Nat) (h : t.firstOf n x = some e) :
      t.firstOf (n + 1) x = some e := by
    rw [firstOf_succ, h, Option.some_or]
  have hsome (h : Nat) (hh : (t.bucket h).isSome = true) :
      ({t with index := t.index.set b (some n)}.bucket h).isSome = true := by
    rw [bucket_set hlt]
    split
    · rfl
    · exact hh
  constructor
  case sized => simpa only [Sized, List.length_set] using ht.sized
  case room => simpa only [List.length_set] using ht.room
  case occupied =>
    rw [List.countP_set hlt, Option.isSome_some, if_pos rfl]
    have := ht.occupied
    omega
  case heads =>
    intro h e he
    rw [bucket_set hlt] at he
    split at he
    · obtain rfl := Option.some.inj he
      change t.firstOf (n + 1) (t.nameAt n) = some n
      rw [firstOf_succ, hnew, iequals_self, if_pos rfl, Option.none_or]
    · exact hfirst _ _ (ht.heads h e he)
  case reached =>
    intro x e he
    change t.firstOf (n + 1) x = some e at he
    have hstart : {t with index := t.index.set b (some n)}.start x = t.start x := rfl
    simp only [List.length_set, hstart]
    rw [firstOf_succ] at he
    cases hold : t.firstOf n x with
    | some f =>
        rw [hold, Option.some_or] at he
        obtain ⟨i, hi, hat, hpath⟩ := ht.reached x f hold
        have hother : (t.start x + i) % t.index.length ≠ b := by
          intro hsame
          rw [hsame, hempty] at hat
          cases hat
        refine ⟨i, hi, ?_, fun k hk => hsome _ (hpath k hk)⟩
        rw [bucket_set hlt, if_neg hother, hat, he]
    | none =>
        rw [hold, Option.none_or] at he
        split at he
        · rename_i hmatch
          rw [start_congr hmatch]
          refine ⟨j, hj, ?_, fun k hk => hsome _ (hbefore k hk)⟩
          rw [bucket_set hlt, if_pos hb, he]
        · cases he
  case linked =>
    intro e
    change t.next e = t.nextOf (n + 1) e
    rw [ht.linked, nextOf_succ, if_neg, Option.or_none]
    rintro ⟨he, hmatch⟩
    have := firstOf_eq_none.mp hnew e he
    rw [iequals_comm, hmatch] at this
    cases this

/-- An entry whose name is there already goes to the end of the chain. -/
theorem Indexed.link {t : CaseInsensitiveHashTable} {n e : Nat} (ht : t.Indexed n)
    (hold : t.firstOf n (t.nameAt n) = some e) {l : Nat} (hl : l < n)
    (hmatch : iequals (t.nameAt e) (t.nameAt l) = true) (hend : t.nextOf n l = none) :
    {t with next := Function.update t.next l (some n)}.Indexed (n + 1) := by
  have hname : iequals (t.nameAt l) (t.nameAt n) = true := by
    rw [← iequals_congr hmatch, iequals_comm]
    exact (firstOf_eq_some.mp hold).1
  have hfirst (x : Bytes) : t.firstOf (n + 1) x = t.firstOf n x := by
    rw [firstOf_succ]
    split
    · rename_i hx
      rw [firstOf_congr hx, hold, Option.some_or]
    · rw [Option.or_none]
  constructor
  case sized => exact ht.sized
  case room => exact ht.room
  case occupied => exact ht.occupied.trans (Nat.le_succ n)
  case heads =>
    intro h f hf
    exact (hfirst _).trans (ht.heads h f hf)
  case reached =>
    intro x f hf
    exact ht.reached x f ((hfirst x).symm.trans hf)
  case linked =>
    intro f
    change Function.update t.next l (some n) f = t.nextOf (n + 1) f
    rw [nextOf_succ]
    by_cases hf : f = l
    · rw [hf, Function.update_self, hend, Option.none_or, if_pos ⟨hl, hname⟩]
    · rw [Function.update_of_ne hf, ht.linked]
      cases hnext : t.nextOf n f with
      | some g => rfl
      | none =>
          rw [Option.none_or, if_neg]
          rintro ⟨hlt, hfn⟩
          -- then one of the two would lead on to the other
          have hfl : iequals (t.nameAt f) (t.nameAt l) = true := by
            rw [iequals_comm, iequals_congr hname, iequals_comm]
            exact hfn
          rcases Nat.lt_or_gt_of_ne hf with hbefore | hafter
          · rw [nextOf_eq_none.mp hnext l hbefore hl] at hfl
            cases hfl
          · rw [iequals_comm, nextOf_eq_none.mp hend f hafter hlt] at hfl
            cases hfl

theorem Indexed.addIndex {t : CaseInsensitiveHashTable} {n : Nat} (ht : t.Indexed n)
    (hn : n < t.names.length) (hroom : n < t.index.length) :
    (t.addIndex n).Indexed (n + 1) := by
  cases hold : t.firstOf n (t.nameAt n) with
  | none =>
      obtain ⟨j, hj, hprobe, hempty, hbefore⟩ := ht.probe_empty hroom hold
      simp only [CaseInsensitiveHashTable.addIndex, hprobe, hempty]
      exact ht.set hold hj rfl hempty hbefore
  | some e =>
      obtain ⟨h, hprobe, hbucket⟩ := ht.probe_first hold
      have he := (firstOf_eq_some.mp hold).2.1
      obtain ⟨hl, hmatch, hend⟩ := ht.last_spec t.names.length he (by omega)
      simp only [CaseInsensitiveHashTable.addIndex, hprobe, hbucket]
      exact ht.link hold hl hmatch hend

@[simp] theorem addIndex_names (t : CaseInsensitiveHashTable) (e : Nat) :
    (t.addIndex e).names = t.names := by
  rw [CaseInsensitiveHashTable.addIndex]
  split
  · rfl
  · split
    · rfl
    · rfl

@[simp] theorem addIndex_capacity (t : CaseInsensitiveHashTable) (e : Nat) :
    (t.addIndex e).capacity = t.capacity := by
  rw [CaseInsensitiveHashTable.addIndex]
  split
  · rfl
  · split
    · rfl
    · rfl

theorem reset_indexed {t : CaseInsensitiveHashTable} (capacity : Nat)
    (hlarge : max capacity t.capacity ≤ 2 ^ 60) (hnext : ∀ e, t.next e = none) :
    (t.reset capacity).Indexed 0 := by
  obtain ⟨k, hk, hle⟩ := nextPow2_spec
    (show 4 * max capacity t.capacity / 3 + 1 ≤ 2 ^ 63 by omega)
  have hempty (h : Nat) : (t.reset capacity).bucket h = none := by
    simp only [reset, bucket, List.getElem?_replicate]
    split
    · rfl
    · rfl
  constructor
  case sized => exact ⟨k, by simp only [reset, List.length_replicate, hk], by simp only [reset, hk]⟩
  case room =>
    simp only [reset, List.length_replicate, hk]
    omega
  case occupied => simp [reset, List.countP_replicate]
  case heads =>
    intro h e he
    rw [hempty] at he
    cases he
  case reached =>
    intro x e he
    have := (firstOf_eq_some.mp he).2.1
    omega
  case linked =>
    intro e
    rw [nextOf_eq_none.mpr (by omega)]
    exact hnext e

/-- Every entry has been added to the index. -/
structure Valid (t : CaseInsensitiveHashTable) : Prop where
  indexed : t.Indexed t.names.length
  fits : t.names.length ≤ t.capacity
  positive : 0 < t.capacity
  bounded : t.capacity ≤ 2 ^ 60

theorem new_valid {capacity : Nat} (hlarge : capacity ≤ 2 ^ 60) : (new capacity).Valid := by
  have hmax : max capacity 16 ≤ 2 ^ 60 := by omega
  constructor
  case indexed => exact reset_indexed capacity hmax fun _ => rfl
  case fits => exact Nat.zero_le _
  case positive => exact lt_max_of_lt_right (Nat.zero_lt_succ 15)
  case bounded => exact hmax

theorem reindex_indexed {t : CaseInsensitiveHashTable} (ht : t.Indexed 0)
    (hfits : t.names.length ≤ t.capacity) {n : Nat} (hn : n ≤ t.names.length) :
    ((List.range n).foldl CaseInsensitiveHashTable.addIndex t).Indexed n ∧
      ((List.range n).foldl CaseInsensitiveHashTable.addIndex t).names = t.names ∧
        ((List.range n).foldl CaseInsensitiveHashTable.addIndex t).capacity = t.capacity := by
  induction n with
  | zero => exact ⟨ht, rfl, rfl⟩
  | succ n ih =>
      obtain ⟨hindexed, hnames, hcapacity⟩ := ih (by omega)
      have hroom := hindexed.room
      rw [List.range_succ, List.foldl_append, List.foldl_cons, List.foldl_nil, addIndex_names,
        addIndex_capacity]
      refine ⟨hindexed.addIndex ?_ ?_, hnames, hcapacity⟩
      · rw [hnames]
        omega
      · omega

/-- Growing needs a table without chains. -/
theorem Valid.resize {t : CaseInsensitiveHashTable} (ht : t.Valid) {capacity : Nat}
    (hlarge : capacity ≤ 2 ^ 60)
    (hdistinct : t.names.Pairwise fun s x => iequals s x = false) :
    ∃ u, t.resize capacity = some u ∧ u.Valid ∧ u.names = t.names ∧
      u.capacity = max capacity t.capacity := by
  have hnext (e : Nat) : t.next e = none := by
    rw [ht.indexed.linked, nextOf_eq_none]
    intro i hlow hhigh
    have := List.pairwise_iff_getElem.mp hdistinct e i (by omega) hhigh hlow
    simpa only [nameAt, List.getD_eq_getElem _ _ hhigh,
      List.getD_eq_getElem _ _ (show e < t.names.length by omega)] using this
  have hmax : max capacity t.capacity ≤ 2 ^ 60 := by
    have := ht.bounded
    omega
  have hfits : t.names.length ≤ max capacity t.capacity := by
    have := ht.fits
    omega
  obtain ⟨hindexed, hnames, hcapacity⟩ :=
    reindex_indexed (reset_indexed capacity hmax hnext) hfits (Nat.le_refl t.names.length)
  have hvalid : ((List.range t.names.length).foldl CaseInsensitiveHashTable.addIndex
      (t.reset capacity)).Valid := by
    constructor
    case indexed =>
      rw [hnames]
      exact hindexed
    case fits =>
      rw [hnames, hcapacity]
      exact hfits
    case positive =>
      rw [hcapacity]
      exact lt_max_of_lt_right ht.positive
    case bounded =>
      rw [hcapacity]
      exact hmax
  refine ⟨_, ?_, hvalid, hnames, hcapacity⟩
  rw [CaseInsensitiveHashTable.resize, if_pos]
  rw [List.all_eq_true]
  intro e he
  rw [hnext e, Option.isNone_none]

theorem nameAt_push (t : CaseInsensitiveHashTable) (name : Bytes) {i : Nat}
    (hi : i < t.names.length) :
    {t with names := t.names ++ [name]}.nameAt i = t.nameAt i := by
  simp only [nameAt, List.getD_append _ _ _ _ hi]

theorem firstOf_push (t : CaseInsensitiveHashTable) (name x : Bytes) :
    {t with names := t.names ++ [name]}.firstOf t.names.length x =
      t.firstOf t.names.length x := by
  rw [firstOf, firstOf, ← List.head?_filter, ← List.head?_filter]
  congr 1
  apply List.filter_congr
  intro i hi
  rw [nameAt_push t name (List.mem_range.mp hi)]

theorem nextOf_push (t : CaseInsensitiveHashTable) (name : Bytes) (e : Nat) :
    {t with names := t.names ++ [name]}.nextOf t.names.length e =
      t.nextOf t.names.length e := by
  rw [nextOf, nextOf, ← List.head?_filter, ← List.head?_filter]
  congr 1
  apply List.filter_congr
  intro i hi
  rw [List.mem_range'_1] at hi
  rw [nameAt_push t name (by omega), nameAt_push t name (by omega)]

theorem Indexed.push {t : CaseInsensitiveHashTable} (ht : t.Indexed t.names.length)
    (name : Bytes) : {t with names := t.names ++ [name]}.Indexed t.names.length := by
  constructor
  case sized => exact ht.sized
  case room => exact ht.room
  case occupied => exact ht.occupied
  case heads =>
    intro h e he
    have hfirst := ht.heads h e he
    rw [firstOf_push, nameAt_push t name (firstOf_eq_some.mp hfirst).2.1]
    exact hfirst
  case reached =>
    intro x e he
    rw [firstOf_push] at he
    exact ht.reached x e he
  case linked =>
    intro e
    rw [nextOf_push]
    exact ht.linked e

/-- A full table can grow if no name comes twice in another case. -/
theorem Valid.add {t : CaseInsensitiveHashTable} (ht : t.Valid) (name : Bytes)
    (hlarge : t.names.length < 2 ^ 59)
    (hfit : t.names.length < t.capacity ∨
      t.names.Pairwise fun s x => iequals s x = false) :
    ∃ u, t.add name = some u ∧ u.Valid ∧ u.names = t.names ++ [name] ∧
      t.capacity ≤ u.capacity := by
  have hgrown : ∃ v, (if t.names.length ≥ t.capacity then t.resize (2 * t.capacity)
      else some t) = some v ∧ v.Valid ∧ v.names = t.names ∧ v.names.length < v.capacity ∧
        t.capacity ≤ v.capacity := by
    have hpositive := ht.positive
    by_cases hfull : t.names.length ≥ t.capacity
    · have hfits := ht.fits
      obtain ⟨v, hv, hvalid, hnames, hcapacity⟩ :=
        ht.resize (show 2 * t.capacity ≤ 2 ^ 60 by omega) (hfit.resolve_left (by omega))
      rw [if_pos hfull]
      refine ⟨v, hv, hvalid, hnames, ?_, ?_⟩
      · rw [hnames, hcapacity]
        omega
      · omega
    · rw [if_neg hfull]
      exact ⟨t, rfl, ht, rfl, by omega, Nat.le_refl _⟩
  obtain ⟨v, hv, hvalid, hnames, hroom, hcapacity⟩ := hgrown
  have hindex := hvalid.indexed.room
  have hindexed := (hvalid.indexed.push name).addIndex (by simp) (hroom.trans hindex)
  refine ⟨{v with names := v.names ++ [name]}.addIndex v.names.length, ?_, ?_, ?_, ?_⟩
  · simp only [CaseInsensitiveHashTable.add, hv, Option.map_some]
  · constructor
    case indexed => simpa using hindexed
    case fits =>
      rw [addIndex_names, addIndex_capacity, List.length_append]
      exact hroom
    case positive =>
      rw [addIndex_capacity]
      exact hvalid.positive
    case bounded =>
      rw [addIndex_capacity]
      exact hvalid.bounded
  · rw [addIndex_names, hnames]
  · rw [addIndex_capacity]
    exact hcapacity

theorem Valid.addAll {t : CaseInsensitiveHashTable} (ht : t.Valid) (names : List Bytes)
    (hlarge : (t.names ++ names).length < 2 ^ 59)
    (hfit : (t.names ++ names).length ≤ t.capacity ∨
      (t.names ++ names).Pairwise fun s x => iequals s x = false) :
    ∃ u, t.addAll names = some u ∧ u.Valid ∧ u.names = t.names ++ names := by
  induction names generalizing t with
  | nil => exact ⟨t, rfl, ht, (List.append_nil _).symm⟩
  | cons name names ih =>
      have hlength : (t.names ++ name :: names).length = t.names.length + names.length + 1 := by
        rw [List.length_append, List.length_cons]
        omega
      obtain ⟨u, hu, hvalid, hnames, hcapacity⟩ := ht.add name (by omega) (by
        rcases hfit with hroom | hdistinct
        · left
          omega
        · right
          exact (List.pairwise_append.mp hdistinct).1)
      have happend : u.names ++ names = t.names ++ name :: names := by
        rw [hnames, List.append_assoc, List.singleton_append]
      obtain ⟨v, hv, hall, hlast⟩ := ih hvalid (by rwa [happend]) (by
        rw [happend]
        exact hfit.imp_left fun h => h.trans hcapacity)
      refine ⟨v, ?_, hall, hlast.trans happend⟩
      rw [CaseInsensitiveHashTable.addAll, hu]
      exact hv

theorem filter_range'_skip {p : Nat → Bool} {s l n : Nat} (hs : s ≤ l) (hl : l ≤ n)
    (hskip : ∀ i, s ≤ i → i < l → p i = false) :
    (List.range' s (n - s)).filter p = (List.range' l (n - l)).filter p := by
  have hsplit : List.range' s (n - s) = List.range' s (l - s) ++ List.range' l (n - l) := by
    have := List.range'_append_1 (s := s) (m := l - s) (n := n - l)
    rw [show s + (l - s) = l by omega, show l - s + (n - l) = n - s by omega] at this
    exact this.symm
  rw [hsplit, List.filter_append, List.filter_eq_nil_iff.mpr, List.nil_append]
  intro i hi
  rw [List.mem_range'_1] at hi
  simp [hskip i hi.1 (by omega)]

theorem Indexed.chain {t : CaseInsensitiveHashTable} {n : Nat} (ht : t.Indexed n)
    (fuel : Nat) {e : Nat} (he : e < n) (hfuel : n ≤ fuel + e) :
    t.chain fuel (some e) =
      (List.range' e (n - e)).filter fun i => iequals (t.nameAt e) (t.nameAt i) := by
  induction fuel generalizing e with
  | zero => omega
  | succ fuel ih =>
      have hcons : List.range' e (n - e) = e :: List.range' (e + 1) (n - (e + 1)) := by
        rw [show n - e = n - (e + 1) + 1 by omega, List.range'_succ]
      rw [CaseInsensitiveHashTable.chain, ht.linked, hcons,
        List.filter_cons_of_pos (by exact iequals_self _)]
      congr 1
      cases hnext : t.nextOf n e with
      | none =>
          symm
          have hskip := nextOf_eq_none.mp hnext
          rw [List.filter_eq_nil_iff.mpr]
          · cases fuel with
            | zero => rfl
            | succ fuel => rfl
          · intro i hi
            rw [List.mem_range'_1] at hi
            simp [hskip i (by omega) (by omega)]
      | some l =>
          obtain ⟨heq, ⟨hlow, hhigh⟩, hskip⟩ := nextOf_eq_some.mp hnext
          rw [ih hhigh (by omega), filter_range'_skip (by omega) (Nat.le_of_lt hhigh) hskip]
          simp only [iequals_congr heq]

/-- What a result finds under a name: the columns in their order, those that
are written in the same way only if the name is in quotes. -/
def indicesOf (names : List Bytes) (name : Bytes) : Option (List Nat) :=
  if name.head? = some 34 ∧ name.getLast? = some 34 then
    if name.length = 1 then none
    else some ((List.range names.length).filter fun i =>
      (name.drop 1).take (name.length - 2) == names.getD i [])
  else some ((List.range names.length).filter fun i => iequals name (names.getD i []))

/-- The entries found under a name are those with it, in their order. -/
theorem Valid.found {t : CaseInsensitiveHashTable} (ht : t.Valid) (x : Bytes) :
    ∃ h, t.probe x t.index.length (t.start x) = some h ∧
      ((t.bucket h).elim [] fun e => t.chain t.names.length (some e)) =
        (List.range t.names.length).filter fun i => iequals x (t.nameAt i) := by
  have hroom := ht.indexed.room
  have hfits := ht.fits
  cases hfirst : t.firstOf t.names.length x with
  | none =>
      obtain ⟨j, -, hprobe, hempty, -⟩ := ht.indexed.probe_empty (by omega) hfirst
      refine ⟨_, hprobe, ?_⟩
      rw [hempty, List.filter_eq_nil_iff.mpr]
      · rfl
      · intro i hi
        simp [firstOf_eq_none.mp hfirst i (List.mem_range.mp hi)]
  | some e =>
      obtain ⟨h, hprobe, hbucket⟩ := ht.indexed.probe_first hfirst
      obtain ⟨hmatch, he, hskip⟩ := firstOf_eq_some.mp hfirst
      refine ⟨h, hprobe, ?_⟩
      have hall := filter_range'_skip (Nat.zero_le e) (Nat.le_of_lt he) fun i _ => hskip i
      rw [Nat.sub_zero] at hall
      rw [hbucket, Option.elim_some, ht.indexed.chain _ he (by omega), List.range_eq_range',
        hall]
      simp only [iequals_congr hmatch]

theorem Valid.getIndices {t : CaseInsensitiveHashTable} (ht : t.Valid) (name : Bytes) :
    t.getIndices name = indicesOf t.names name := by
  rw [CaseInsensitiveHashTable.getIndices, indicesOf]
  by_cases hquoted : name.head? = some 34 ∧ name.getLast? = some 34
  · by_cases hone : name.length = 1
    · simp [hquoted, hone]
    · obtain ⟨h, hprobe, hfound⟩ := ht.found ((name.drop 1).take (name.length - 2))
      have hexact : ((t.bucket h).elim [] fun e => t.chain t.names.length (some e)).filter
          (fun e => (name.drop 1).take (name.length - 2) == t.nameAt e) =
            (List.range t.names.length).filter fun i =>
              (name.drop 1).take (name.length - 2) == t.names.getD i [] := by
        rw [hfound, List.filter_filter]
        apply List.filter_congr
        intro i hi
        rw [← nameAt, Bool.and_eq_left_iff_imp, beq_iff_eq]
        intro heq
        rw [heq]
        exact iequals_self _
      simp only [hquoted, hone, and_self, decide_true, decide_false, Bool.and_self, Bool.and_false,
        Bool.false_eq_true, ↓reduceIte, hprobe, ← hexact]
      cases hbucket : t.bucket h with
      | none => rfl
      | some e => rfl
  · obtain ⟨h, hprobe, hfound⟩ := ht.found name
    rw [← Bool.decide_and, decide_eq_false hquoted]
    simp only [nameAt] at hfound
    simp only [Bool.false_and, Bool.false_eq_true, ↓reduceIte, hprobe, hquoted, ← hfound]
    cases hbucket : t.bucket h with
    | none => rfl
    | some e => rfl

theorem new_addAll {capacity : Nat} {names : List Bytes} (hcapacity : capacity < 2 ^ 31)
    (hnames : names.length < 2 ^ 31)
    (hfit : names.length ≤ max capacity 16 ∨
      names.Pairwise fun s t => iequals s t = false) :
    ∃ t, (new capacity).addAll names = some t ∧
      ∀ name, t.getIndices name = indicesOf names name := by
  have hnew : (new capacity).names = [] := rfl
  obtain ⟨t, ht, hvalid, hall⟩ := (new_valid (show capacity ≤ 2 ^ 60 by omega)).addAll names
    (by rw [hnew, List.nil_append]; omega) hfit
  rw [hnew, List.nil_append] at hall
  exact ⟨t, ht, fun name => by rw [hvalid.getIndices, hall]⟩

/-- A result finds its columns by name as if it went through all of them. The
table does not grow under the names it was made for, and growing loses nothing
unless two names differ in case only. -/
theorem getIndices_addAll (capacity : Nat) (names : List Bytes) (name : Bytes)
    (hcapacity : capacity < 2 ^ 31) (hnames : names.length < 2 ^ 31)
    (hfit : names.length ≤ max capacity 16 ∨
      names.Pairwise fun s t => iequals s t = false) :
    ((new capacity).addAll names).map (·.getIndices name) = some (indicesOf names name) := by
  obtain ⟨t, ht, hindices⟩ := new_addAll hcapacity hnames hfit
  rw [ht, Option.map_some, hindices]

theorem getIndices_addAll_cases :
    ((new 3).addAll [bytes "id", bytes "ID", bytes "url"]).map (·.getIndices (bytes "Id")) =
      some (indicesOf [bytes "id", bytes "ID", bytes "url"] (bytes "Id")) :=
  getIndices_addAll 3 _ (bytes "Id") (by decide) (by decide) (Or.inl (by decide))

example : indicesOf [bytes "id", bytes "ID", bytes "url"] (bytes "Id") = some [0, 1] := by decide

example : indicesOf [bytes "id", bytes "ID", bytes "url"] (bytes "\"ID\"") = some [1] := by decide

end CaseInsensitiveHashTable

end Img2Web.Driver
