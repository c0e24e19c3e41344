import Img2Web.Cql.Lexer

/-!
String literals and statement templates. `readLiteral` reads the body of one
literal and returns its value and the text after it. A value that is written
between quotes as it is comes back as itself exactly when it has no quote, no
matter what the text after it is: a quote in the value either ends the literal
early or is swallowed by doubling, and in both cases the value read differs.

A template is a fixed text with slots for literals. `Template.lex_fill_iff`
carries the fact about one slot over to any number of slots.
-/

namespace Img2Web.Cql

open Text

def readLiteral : Bytes → Option (Bytes × Bytes)
  | [] => none
  | [b] => if b = quote then some ([], []) else none
  | b :: c :: rest =>
      if b = quote then
        if c = quote then (readLiteral rest).map fun (s, after) => (quote :: s, after)
        else some ([], c :: rest)
      else (readLiteral (c :: rest)).map fun (s, after) => (b :: s, after)

theorem readLiteral_cons {b : UInt8} (hb : b ≠ quote) (text : Bytes) :
    readLiteral (b :: text) =
      (readLiteral text).map fun (s, after) => (b :: s, after) := by
  cases text with
  | nil => simp [readLiteral, hb]
  | cons c rest => simp [readLiteral, hb]

theorem readLiteral_doubled (text : Bytes) :
    readLiteral (quote :: quote :: text) =
      (readLiteral text).map fun (s, after) => (quote :: s, after) := by
  simp [readLiteral]

theorem readLiteral_close {text : Bytes} (htext : text.head? ≠ some quote) :
    readLiteral (quote :: text) = some ([], text) := by
  cases text with
  | nil => simp [readLiteral]
  | cons c rest =>
      have hc : c ≠ quote := by simpa using htext
      simp [readLiteral, hc]

/-- The lexer inside a literal reads exactly the literal, and then goes on. -/
theorem lexFrom_literal (s text : Bytes) :
    lexFrom (.literal s) text =
      (readLiteral text).bind fun (v, after) =>
        (lexFrom .start after).map (.literal (s ++ v) :: ·) := by
  induction text using readLiteral.induct generalizing s with
  | case1 => simp [readLiteral, Mode.finish]
  | case2 =>
      rw [lexFrom_cons]
      simp [step, readLiteral, Mode.finish]
  | case3 b hb =>
      rw [lexFrom_cons]
      simp [step, hb, readLiteral, Mode.finish]
  | case4 rest ih =>
      rw [lexFrom_cons, lexFrom_cons, readLiteral_doubled]
      simp only [step, if_true]
      rw [ih, Option.bind_map]
      cases readLiteral rest <;> simp [Function.comp_def]
  | case5 c rest hc =>
      have hbegin : step (.literalQuote s, []) c =
          ((begin [] c).1, .literal s :: (begin [] c).2) := by
        simp only [step, hc, if_false]
        exact begin_out _ _
      rw [lexFrom_cons, lexFrom_cons, readLiteral_close (by simpa using hc)]
      simp only [Option.bind_some, lexFrom_cons .start]
      simp only [step, if_true] at hbegin ⊢
      rw [hbegin]
      simp [Option.map_map, Function.comp_def]
  | case6 b c rest hb ih =>
      rw [lexFrom_cons, readLiteral_cons hb]
      simp only [step, hb, if_false]
      rw [ih, Option.bind_map]
      cases readLiteral (c :: rest) <;> simp [Function.comp_def]

/-- How a value is to be written between quotes: with each quote doubled. -/
def escape (s : Bytes) : Bytes := s.flatMap fun b => if b = quote then [quote, quote] else [b]

theorem escape_cons (b : UInt8) (s : Bytes) :
    escape (b :: s) = (if b = quote then [quote, quote] else [b]) ++ escape s :=
  List.flatMap_cons

theorem escape_clean {s : Bytes} (hs : quote ∉ s) : escape s = s := by
  induction s with
  | nil => rfl
  | cons b s ih =>
      obtain ⟨hb, hs⟩ : quote ≠ b ∧ quote ∉ s := by simpa using hs
      rw [escape_cons, if_neg (Ne.symm hb), ih hs]
      rfl

theorem mem_escape {s : Bytes} {b : UInt8} (hb : b ∈ s) : b ∈ escape s := by
  refine List.mem_flatMap.mpr ⟨b, hb, ?_⟩
  split
  case isTrue hquote =>
    rw [hquote]
    exact List.mem_cons_self
  case isFalse => exact List.mem_cons_self

/-- An escaped value, put between quotes, is read back. -/
theorem readLiteral_escape (s : Bytes) {after : Bytes} (hafter : after.head? ≠ some quote) :
    readLiteral (escape s ++ quote :: after) = some (s, after) := by
  induction s with
  | nil => exact readLiteral_close hafter
  | cons b s ih =>
      rw [escape_cons]
      by_cases hb : b = quote
      · rw [if_pos hb, hb, List.append_assoc]
        change readLiteral (quote :: quote :: (escape s ++ quote :: after)) = _
        rw [readLiteral_doubled, ih]
        rfl
      · rw [if_neg hb, List.append_assoc, List.singleton_append, readLiteral_cons hb, ih]
        rfl

/-- What is read as a literal is an escaped value and the closing quote. -/
theorem readLiteral_eq_some_iff {text s after : Bytes} :
    readLiteral text = some (s, after) ↔
      text = escape s ++ quote :: after ∧ after.head? ≠ some quote := by
  constructor
  · intro h
    induction text using readLiteral.induct generalizing s with
    | case1 => cases h
    | case2 =>
        rw [readLiteral, if_pos rfl] at h
        cases h
        exact ⟨rfl, by decide⟩
    | case3 b hb =>
        rw [readLiteral, if_neg hb] at h
        cases h
    | case4 rest ih =>
        rw [readLiteral_doubled, Option.map_eq_some_iff] at h
        obtain ⟨⟨v, after'⟩, hread, heq⟩ := h
        cases heq
        obtain ⟨rfl, hafter⟩ := ih hread
        exact ⟨by rw [escape_cons, if_pos rfl]; rfl, hafter⟩
    | case5 c rest hc =>
        have hhead : (c :: rest).head? ≠ some quote := by simpa using hc
        rw [readLiteral_close hhead] at h
        cases h
        exact ⟨rfl, hhead⟩
    | case6 b c rest hb ih =>
        rw [readLiteral_cons hb, Option.map_eq_some_iff] at h
        obtain ⟨⟨v, after'⟩, hread, heq⟩ := h
        cases heq
        obtain ⟨htext, hafter⟩ := ih hread
        refine ⟨?_, hafter⟩
        rw [escape_cons, if_neg hb, htext]
        rfl
  · rintro ⟨rfl, hafter⟩
    exact readLiteral_escape s hafter

/-- A value without quotes, put between quotes, is read back. -/
theorem readLiteral_clean {s : Bytes} (hs : quote ∉ s) {after : Bytes}
    (hafter : after.head? ≠ some quote) :
    readLiteral (s ++ quote :: after) = some (s, after) := by
  have hread := readLiteral_escape s hafter
  rwa [escape_clean hs] at hread

/-- Once a doubled quote has been read the value read so far is ahead of the
text: reading the rest never yields what the text says plus the quotes owed. -/
private theorem readLiteral_ahead (s : Bytes) {after : Bytes}
    (hafter : after.head? ≠ some quote) (n : Nat) (rest : Bytes) :
    readLiteral (s ++ quote :: after) ≠
      some (List.replicate (n + 1) quote ++ s, rest) := by
  intro h
  match s with
  | [] =>
      rw [List.nil_append, readLiteral_close hafter] at h
      simp [List.replicate_succ] at h
  | b :: s =>
      by_cases hb : b = quote
      · subst hb
        match s with
        | [] =>
            -- the closing quote itself was swallowed, and the value goes on
            -- with the text after it, which is no quote
            rw [List.singleton_append, readLiteral_doubled, Option.map_eq_some_iff] at h
            obtain ⟨⟨v, after'⟩, hread, heq⟩ := h
            obtain ⟨hv, -⟩ := Prod.mk.inj heq
            rw [List.replicate_succ, List.cons_append] at hv
            cases after with
            | nil => simp [readLiteral] at hread
            | cons c after =>
                have hc : c ≠ quote := by simpa using hafter
                rw [readLiteral_cons hc, Option.map_eq_some_iff] at hread
                obtain ⟨⟨v', _⟩, -, heq'⟩ := hread
                obtain ⟨rfl, -⟩ := Prod.mk.inj heq'
                cases n with
                | zero => simp [hc] at hv
                | succ n => simp [List.replicate_succ, hc] at hv
        | c :: s =>
            by_cases hc : c = quote
            · subst hc
              rw [List.cons_append, List.cons_append, readLiteral_doubled,
                Option.map_eq_some_iff] at h
              obtain ⟨⟨v, after'⟩, hread, heq⟩ := h
              obtain ⟨hv, -⟩ := Prod.mk.inj heq
              refine readLiteral_ahead s hafter (n + 1) after' ?_
              rw [hread]
              rw [List.replicate_succ, List.cons_append, List.cons.injEq] at hv
              rw [hv.2, List.append_cons, List.append_cons _ quote,
                ← List.replicate_succ', ← List.replicate_succ']
            · rw [List.cons_append, readLiteral_close (by simpa using hc)] at h
              simp [List.replicate_succ] at h
      · rw [List.cons_append, readLiteral_cons hb, Option.map_eq_some_iff] at h
        obtain ⟨⟨v, after'⟩, -, heq⟩ := h
        obtain ⟨hv, -⟩ := Prod.mk.inj heq
        simp [List.replicate_succ, hb] at hv

/-- A value put between quotes as it is comes back only if it has no quote. -/
theorem clean_of_readLiteral {s after rest : Bytes} (hafter : after.head? ≠ some quote)
    (h : readLiteral (s ++ quote :: after) = some (s, rest)) : quote ∉ s := by
  match s with
  | [] => simp
  | b :: s =>
      by_cases hb : b = quote
      · subst hb
        match s with
        | [] =>
            exfalso
            rw [List.singleton_append, readLiteral_doubled, Option.map_eq_some_iff] at h
            obtain ⟨⟨v, after'⟩, hread, heq⟩ := h
            obtain ⟨hv, -⟩ := Prod.mk.inj heq
            obtain rfl : v = [] := by simpa using hv
            cases after with
            | nil => simp [readLiteral] at hread
            | cons c after =>
                have hc : c ≠ quote := by simpa using hafter
                simp [readLiteral_cons hc] at hread
        | c :: s =>
            exfalso
            by_cases hc : c = quote
            · subst hc
              rw [List.cons_append, List.cons_append, readLiteral_doubled,
                Option.map_eq_some_iff] at h
              obtain ⟨⟨v, after'⟩, hread, heq⟩ := h
              obtain ⟨hv, -⟩ := Prod.mk.inj heq
              refine readLiteral_ahead s hafter 0 after' ?_
              rw [hread, (List.cons.inj hv).2]
              rfl
            · rw [List.cons_append, readLiteral_close (by simpa using hc)] at h
              simp at h
      · rw [List.cons_append, readLiteral_cons hb, Option.map_eq_some_iff] at h
        obtain ⟨⟨v, after'⟩, hread, heq⟩ := h
        obtain ⟨hv, rfl⟩ := Prod.mk.inj heq
        rw [(List.cons.inj hv).2] at hread
        simpa [Ne.symm hb] using clean_of_readLiteral hafter hread

/-- Fixed text between two literals: it begins after the closing quote of one
and ends with the opening quote of the next. -/
structure Gap where
  text : Bytes
  tokens : List Token
  opens : scan .start text = (.literal [], tokens)
  unquoted : text.head? ≠ some quote

/-- Fixed text after the last literal. -/
structure Tail where
  text : Bytes
  tokens : List Token
  closes : lexFrom .start text = some tokens
  unquoted : text.head? ≠ some quote

/-- The text of the slots, each followed by what separates it from the next;
the text begins inside the first literal. -/
def weave (tail : Tail) : List (Bytes × Gap) → Bytes → Bytes
  | [], last => last ++ quote :: tail.text
  | (s, gap) :: slots, last => s ++ quote :: (gap.text ++ weave tail slots last)

def weaveTokens (tail : Tail) : List (Bytes × Gap) → Bytes → List Token
  | [], last => .literal last :: tail.tokens
  | (s, gap) :: slots, last => .literal s :: (gap.tokens ++ weaveTokens tail slots last)

theorem gap_head (gap : Gap) (text : Bytes) :
    (gap.text ++ text).head? ≠ some quote := by
  cases htext : gap.text with
  | nil =>
      have h := gap.opens
      rw [htext] at h
      simp [scan] at h
  | cons b rest =>
      have h := gap.unquoted
      rw [htext] at h
      simpa using h

/-- One slot of a woven text: the value is read back, and the rest is lexed as
`tokens`, exactly when the value has no quote and the rest says so. -/
theorem lexFrom_slot_iff (s : Bytes) {after : Bytes} (hafter : after.head? ≠ some quote)
    (tokens : List Token) :
    lexFrom (.literal []) (s ++ quote :: after) = some (.literal s :: tokens) ↔
      quote ∉ s ∧ lexFrom .start after = some tokens := by
  rw [lexFrom_literal]
  constructor
  · intro h
    obtain ⟨⟨v, rest⟩, hread, hlex⟩ := Option.bind_eq_some_iff.mp h
    obtain ⟨ts, hts, heq⟩ := Option.map_eq_some_iff.mp hlex
    obtain ⟨hv, rfl⟩ := List.cons.inj heq
    obtain rfl : v = s := by simpa using hv
    have hclean := clean_of_readLiteral hafter hread
    rw [readLiteral_clean hclean hafter] at hread
    obtain ⟨-, rfl⟩ := Prod.mk.inj (Option.some.inj hread)
    exact ⟨hclean, hts⟩
  · rintro ⟨hclean, hlex⟩
    rw [readLiteral_clean hclean hafter]
    simp [hlex]

theorem lexFrom_weave_iff (tail : Tail) (slots : List (Bytes × Gap)) (last : Bytes) :
    lexFrom (.literal []) (weave tail slots last) =
        some (weaveTokens tail slots last) ↔
      (∀ slot ∈ slots, quote ∉ slot.1) ∧ quote ∉ last := by
  induction slots with
  | nil =>
      rw [weave, weaveTokens, lexFrom_slot_iff last tail.unquoted]
      simp [tail.closes]
  | cons slot slots ih =>
      obtain ⟨s, gap⟩ := slot
      rw [weave, weaveTokens, lexFrom_slot_iff s (gap_head gap _),
        lexFrom_append_iff gap.opens, ih, List.forall_mem_cons, and_assoc]

/-- A statement with literal slots: the text before the first slot, ending
with its opening quote, the slots but the last with their gaps, and the tail. -/
structure Template where
  head : Gap
  gaps : List Gap
  tail : Tail

namespace Template

/-- The statement text with the arguments written between the quotes as they
are. -/
def fill (t : Template) (args : List Bytes) (last : Bytes) : Bytes :=
  t.head.text ++ weave t.tail (args.zip t.gaps) last

/-- The template's own tokens, with each slot one literal. -/
def tokens (t : Template) (args : List Bytes) (last : Bytes) : List Token :=
  t.head.tokens ++ weaveTokens t.tail (args.zip t.gaps) last

theorem lex_fill_iff (t : Template) {args : List Bytes}
    (hargs : args.length = t.gaps.length) (last : Bytes) :
    lex (t.fill args last) = some (t.tokens args last) ↔
      (∀ s ∈ args, quote ∉ s) ∧ quote ∉ last := by
  have hslots : (∀ slot ∈ args.zip t.gaps, quote ∉ slot.1) ↔ ∀ s ∈ args, quote ∉ s := by
    rw [← List.forall_mem_map (f := Prod.fst) (P := fun s => quote ∉ s),
      List.map_fst_zip (by omega)]
  rw [lex, fill, tokens, lexFrom_append_iff t.head.opens, lexFrom_weave_iff, hslots]

end Template

end Img2Web.Cql
