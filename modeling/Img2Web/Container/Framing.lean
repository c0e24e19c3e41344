import Mathlib.Data.List.Basic

/-!
Frames in a stream that arrives in chunks. A decoder keeps what it has of the
frame it is in, and is called again with what is left until the chunk is used
up. `Frame f v` says that the elements `f` are one frame, with the content `v`,
or with none if they cannot be read.
-/

namespace Framing

variable {σ α μ : Type}

/-- What one call comes to: the chunk is used up, or a frame ends after `size`
elements of it. -/
inductive Outcome (σ μ : Type) where
  | failed
  | more (s : σ)
  | done (size : Nat) (x : μ)

structure Decoder (σ α μ : Type) where
  fresh : σ
  decode : σ → List α → Outcome σ μ

/-- One chunk: the contents of the frames that end in it, and the state after
it unless a frame could not be read. -/
def Decoder.consume (d : Decoder σ α μ) (s : σ) (input : List α) : List μ × Option σ :=
  if _ : input = [] then ([], some s)
  else
    match d.decode s input with
    | .failed => ([], none)
    | .more s => ([], some s)
    | .done size x =>
        if _ : 0 < size then
          let (xs, s) := d.consume d.fresh (input.drop size)
          (x :: xs, s)
        else ([], none)
termination_by input.length
decreasing_by
  have hpos := List.length_pos_iff.mpr ‹¬input = []›
  rw [List.length_drop]
  omega

/-- One chunk after the other. After a failure nothing more is read. -/
def Decoder.chunks (d : Decoder σ α μ) : Option σ → List (List α) → List μ × Option σ
  | s, [] => ([], s)
  | none, _ :: _ => ([], none)
  | some s, c :: cs =>
      let (xs, s) := d.consume s c
      let (ys, s) := d.chunks s cs
      (xs ++ ys, s)

variable {Frame : List α → Option μ → Prop}

/-- More of a frame is still to come after `p`. -/
def Unfinished (Frame : List α → Option μ → Prop) (p : List α) : Prop :=
  p = [] ∨ ∃ q v, q ≠ [] ∧ Frame (p ++ q) v

/-- The frames of a stream: their contents, and what is left after them. The
stream is not read any further after a frame that cannot be read. -/
inductive Splits (Frame : List α → Option μ → Prop) :
    List α → List μ → Option (List α) → Prop
  | tail {p : List α} (h : Unfinished Frame p) : Splits Frame p [] (some p)
  | broken {f rest : List α} (h : Frame f none) : Splits Frame (f ++ rest) [] none
  | frame {f rest : List α} {x : μ} {xs : List μ} {e : Option (List α)}
      (h : Frame f (some x)) (hrest : Splits Frame rest xs e) :
      Splits Frame (f ++ rest) (x :: xs) e

/-- The decoder reads these frames: `after p` is its state after the first
elements `p` of a frame, however they arrived. -/
structure Decoder.Reads (d : Decoder σ α μ) (Frame : List α → Option μ → Prop)
    (after : List α → σ) : Prop where
  nonempty : ∀ {f v}, Frame f v → f ≠ []
  prefixFree : ∀ {f g u v}, Frame f u → Frame g v → f <+: g → f = g
  fresh : after [] = d.fresh
  more : ∀ {p q}, Unfinished Frame (p ++ q) → q ≠ [] →
    d.decode (after p) q = .more (after (p ++ q))
  done : ∀ {p q x} (rest), q ≠ [] → Frame (p ++ q) (some x) →
    d.decode (after p) (q ++ rest) = .done q.length x
  failed : ∀ {p q} (rest), q ≠ [] → Frame (p ++ q) none →
    d.decode (after p) (q ++ rest) = .failed

theorem Unfinished.of_append {p q : List α} (h : Unfinished Frame (p ++ q)) :
    Unfinished Frame p := by
  rcases h with hnil | ⟨r, v, hr, hframe⟩
  · exact Or.inl (List.append_eq_nil_iff.mp hnil).1
  · rw [List.append_assoc] at hframe
    exact Or.inr ⟨q ++ r, v, List.append_ne_nil_of_right_ne_nil q hr, hframe⟩

theorem Splits.unfinished {stream p : List α} {xs : List μ} {e : Option (List α)}
    (h : Splits Frame stream xs e) (he : e = some p) : Unfinished Frame p := by
  induction h with
  | tail h =>
      obtain rfl := Option.some_inj.mp he
      exact h
  | broken => cases he
  | frame _ _ ih => exact ih he

/-- A stream cut in two: its first part is split as far as it goes, and the
rest goes on from what is left of it. -/
theorem Splits.cut {stream : List α} {xs : List μ} {e : Option (List α)}
    (h : Splits Frame stream xs e) {a b : List α} (hcut : stream = a ++ b) :
    (Splits Frame a xs none ∧ e = none) ∨
      ∃ p ys zs, Splits Frame a ys (some p) ∧ Splits Frame (p ++ b) zs e ∧ xs = ys ++ zs := by
  induction h generalizing a with
  | tail hp =>
      subst hcut
      exact Or.inr ⟨a, [], [], .tail hp.of_append, .tail hp, rfl⟩
  | @broken f rest hf =>
      rcases List.append_eq_append_iff.mp hcut with ⟨q, rfl, rfl⟩ | ⟨q, rfl, rfl⟩
      · exact Or.inl ⟨.broken hf, rfl⟩
      · by_cases hq : q = []
        · subst hq
          rw [List.append_nil] at hf
          have hbroken : Splits Frame (a ++ []) [] none := .broken hf
          rw [List.append_nil] at hbroken
          exact Or.inl ⟨hbroken, rfl⟩
        · refine Or.inr ⟨a, [], [], .tail (Or.inr ⟨q, _, hq, hf⟩), ?_, rfl⟩
          rw [← List.append_assoc]
          exact .broken hf
  | @frame f rest x xs e hf hrest ih =>
      rcases List.append_eq_append_iff.mp hcut with ⟨q, rfl, hq⟩ | ⟨q, rfl, rfl⟩
      · -- the frame lies in the first part
        rcases ih hq with ⟨hnone, rfl⟩ | ⟨p, ys, zs, hys, hzs, rfl⟩
        · exact Or.inl ⟨.frame hf hnone, rfl⟩
        · exact Or.inr ⟨p, x :: ys, zs, .frame hf hys, hzs, rfl⟩
      · by_cases hq : q = []
        · subst hq
          rw [List.append_nil] at hf
          have hone := Splits.frame hf (.tail (Or.inl rfl))
          rw [List.append_nil] at hone
          exact Or.inr ⟨[], [x], xs, hone, hrest, rfl⟩
        · refine Or.inr ⟨a, [], x :: xs, .tail (Or.inr ⟨q, _, hq, hf⟩), ?_, rfl⟩
          rw [← List.append_assoc]
          exact .frame hf hrest

/-- One more frame arrives. -/
theorem Splits.snoc {stream f : List α} {xs : List μ} {e : Option (List α)} {x : μ}
    (h : Splits Frame stream xs e) (he : e = some []) (hf : Frame f (some x)) :
    Splits Frame (stream ++ f) (xs ++ [x]) (some []) := by
  induction h with
  | tail =>
      obtain rfl := Option.some_inj.mp he
      have hone := Splits.frame hf (.tail (Or.inl rfl))
      rw [List.append_nil] at hone
      exact hone
  | broken => cases he
  | frame hg _ ih =>
      rw [List.append_assoc]
      exact .frame hg (ih he)

variable {d : Decoder σ α μ} {after : List α → σ}

/-- A frame goes beyond what was not yet a whole frame. -/
theorem Decoder.Reads.split_frame (hd : d.Reads Frame after) {p a f rest : List α}
    {v : Option μ} (hp : Unfinished Frame p) (hf : Frame f v) (heq : p ++ a = f ++ rest) :
    ∃ q, q ≠ [] ∧ f = p ++ q ∧ a = q ++ rest := by
  rcases List.append_eq_append_iff.mp heq with ⟨q, rfl, ha⟩ | ⟨q, rfl, rfl⟩
  · refine ⟨q, ?_, rfl, ha⟩
    rintro rfl
    rw [List.append_nil] at hf
    rcases hp with rfl | ⟨r, u, hr, hg⟩
    · exact hd.nonempty hf rfl
    · have hsame := hd.prefixFree hf hg (List.prefix_append p r)
      exact hr (List.self_eq_append_right.mp hsame)
  · rcases hp with hnil | ⟨r, u, hr, hg⟩
    · exact absurd (List.append_eq_nil_iff.mp hnil).1 (hd.nonempty hf)
    · rw [List.append_assoc] at hg
      have hsame := hd.prefixFree hf hg (List.prefix_append f (q ++ r))
      have hnil := List.self_eq_append_right.mp hsame
      exact absurd (List.append_eq_nil_iff.mp hnil).2 hr

/-- One chunk, from the state after the first elements `p` of a frame. -/
theorem Decoder.Reads.consume (hd : d.Reads Frame after) {p a stream : List α} {xs : List μ}
    {e : Option (List α)} (hp : Unfinished Frame p) (hstream : stream = p ++ a)
    (h : Splits Frame stream xs e) : d.consume (after p) a = (xs, e.map after) := by
  induction h generalizing p a with
  | tail htail =>
      subst hstream
      unfold Decoder.consume
      by_cases ha : a = []
      · subst ha
        simp
      · rw [dif_neg ha, hd.more htail ha]
        rfl
  | @broken f rest hf =>
      obtain ⟨q, hq, rfl, rfl⟩ := hd.split_frame hp hf hstream.symm
      unfold Decoder.consume
      rw [dif_neg (List.append_ne_nil_of_left_ne_nil hq rest), hd.failed rest hq hf]
      rfl
  | @frame f rest x xs e hf _ ih =>
      obtain ⟨q, hq, rfl, rfl⟩ := hd.split_frame hp hf hstream.symm
      have hrest := ih (p := []) (a := rest) (Or.inl rfl) rfl
      rw [hd.fresh] at hrest
      unfold Decoder.consume
      rw [dif_neg (List.append_ne_nil_of_left_ne_nil hq rest), hd.done rest hq hf]
      simp only [dif_pos (List.length_pos_iff.mpr hq), List.drop_left, hrest]

theorem Decoder.Reads.chunks_from (hd : d.Reads Frame after) {cs : List (List α)} {p : List α}
    {xs : List μ} {e : Option (List α)} (hp : Unfinished Frame p)
    (h : Splits Frame (p ++ cs.flatten) xs e) :
    d.chunks (some (after p)) cs = (xs, e.map after) := by
  induction cs generalizing p xs with
  | nil =>
      have hnone := hd.consume hp rfl h
      rw [List.flatten_nil] at hnone
      unfold Decoder.consume at hnone
      rw [← hnone]
      rfl
  | cons c cs ih =>
      rw [List.flatten_cons, ← List.append_assoc] at h
      rcases h.cut rfl with ⟨hnone, rfl⟩ | ⟨p', ys, zs, hys, hzs, rfl⟩
      · rw [Decoder.chunks, hd.consume hp rfl hnone]
        cases cs with
        | nil | cons => simp [Decoder.chunks]
      · have hrest := ih (hys.unfinished rfl) hzs
        rw [Decoder.chunks, hd.consume hp rfl hys]
        simp only [Option.map_some, hrest]

/-- However a stream is cut into chunks, the decoder reads the frames of the
stream, and ends in the state of what is left after them. -/
theorem Decoder.Reads.chunks (hd : d.Reads Frame after) {cs : List (List α)} {xs : List μ}
    {e : Option (List α)} (h : Splits Frame cs.flatten xs e) :
    d.chunks (some d.fresh) cs = (xs, e.map after) := by
  rw [← hd.fresh]
  exact hd.chunks_from (Or.inl rfl) h

end Framing
