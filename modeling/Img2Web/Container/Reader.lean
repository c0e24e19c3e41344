import Mathlib.Data.List.Basic

/-!
Readers that take a value off the front of a list. `Reads d bs x` says that `d`
takes off exactly `bs`, whatever follows, and gives `x`.
-/

abbrev Reader (α β : Type) := StateT (List α) Option β

namespace Reader

variable {α β γ : Type}

def take (n : Nat) : Reader α (List α) := fun input =>
  if n ≤ input.length then some (input.take n, input.drop n) else none

/-- The same reader, `n` times. -/
def many : Nat → Reader α β → Reader α (List β)
  | 0, _ => pure []
  | n + 1, d => do
      let x ← d
      let xs ← many n d
      return x :: xs

/-- One reader for each of a list. -/
def each (d : γ → Reader α β) : List γ → Reader α (List β)
  | [] => pure []
  | c :: cs => do
      let x ← d c
      let xs ← each d cs
      return x :: xs

def Reads (d : Reader α β) (bs : List α) (x : β) : Prop :=
  ∀ rest, d.run (bs ++ rest) = some (x, rest)

theorem Reads.pure (x : β) : Reads (pure x : Reader α β) [] x := fun _ => rfl

theorem Reads.bind {d : Reader α β} {f : β → Reader α γ} {bs cs : List α} {x : β} {y : γ}
    (hd : Reads d bs x) (hf : Reads (f x) cs y) : Reads (d >>= f) (bs ++ cs) y := by
  intro rest
  rw [StateT.run_bind, List.append_assoc, hd]
  exact hf rest

/-- What the last reader gives needs nothing more. -/
theorem Reads.map {d : Reader α β} {bs : List α} {x : β} (hd : Reads d bs x) (f : β → γ) :
    Reads (f <$> d) bs (f x) := by
  intro rest
  rw [StateT.run_map, hd]
  rfl

/-- What follows needs nothing more. -/
theorem Reads.ends {d : Reader α β} {f : β → Reader α γ} {bs : List α} {x : β} {y : γ}
    (hd : Reads d bs x) (hf : Reads (f x) [] y) : Reads (d >>= f) bs y := by
  rw [← List.append_nil bs]
  exact hd.bind hf

theorem Reads.yield {d : Reader α β} {bs : List α} {x : β} (hd : Reads d bs x) (f : β → γ) :
    Reads (d >>= fun y => Pure.pure (f y)) bs (f x) := hd.ends (Reads.pure _)

theorem Reads.lift {o : Option β} {x : β} (ho : o = some x) :
    Reads (StateT.lift o : Reader α β) [] x := by
  subst ho
  exact fun _ => rfl

/-- `d`, if there is something for it. -/
def optional (present : Bool) (d : Reader α β) : Reader α (Option β) :=
  if present then some <$> d else pure none

theorem reads_optional {present : Bool} {d : Reader α β} {bs : List α} {x : β}
    (hd : present = true → Reads d bs x) :
    Reads (optional present d) (if present then bs else []) (if present then some x else none) := by
  cases present with
  | false => exact Reads.pure none
  | true => exact (hd rfl).map some

/-- `d` if it is wanted, and otherwise what is there already. -/
def given (wanted : Bool) (d : Reader α β) (default : β) : Reader α β :=
  if wanted then d else pure default

theorem reads_take {n : Nat} {bs : List α} (hn : bs.length = n) : Reads (take n) bs bs := by
  subst hn
  intro rest
  show (if bs.length ≤ (bs ++ rest).length then _ else _) = _
  rw [if_pos (by rw [List.length_append]; omega), List.take_left, List.drop_left]

theorem reads_many {d : Reader α β} {enc : β → List α} {xs : List β}
    (h : ∀ x ∈ xs, Reads d (enc x) x) : Reads (many xs.length d) (xs.flatMap enc) xs := by
  induction xs with
  | nil => exact Reads.pure []
  | cons x xs ih =>
      have hrest := ih fun y hy => h y (List.mem_cons_of_mem x hy)
      rw [List.flatMap_cons]
      apply Reads.bind (h x List.mem_cons_self)
      rw [← List.append_nil (xs.flatMap enc)]
      exact Reads.bind hrest (Reads.pure _)

end Reader
