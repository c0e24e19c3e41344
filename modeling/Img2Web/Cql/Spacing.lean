import Img2Web.Cql.Literal

/-!
What may stand between two tokens: white space and whole comments. A text that
is read as one symbol or literal after another is these with spacing before
them, so a list of values can be recognised in the text itself, whatever its
values make of the text around them.
-/

namespace Img2Web.Cql

open Text

/-- White space and comments that are ended: read by itself, no token. -/
def Spacing (text : Bytes) : Prop := scan .start text = (.start, [])

instance : DecidablePred Spacing := fun text =>
  inferInstanceAs (Decidable (scan .start text = (.start, [])))

theorem Spacing.nil : Spacing [] := rfl

theorem Spacing.skip {gap : Bytes} (h : Spacing gap) (text : Bytes) :
    lexFrom .start (gap ++ text) = lexFrom .start text := by
  rw [lexFrom_append, h]
  simp

theorem scan_snoc (m : Mode) (front : Bytes) (b : UInt8) :
    scan m (front ++ [b]) = step (scan m front) b := by
  rw [scan, List.foldl_append]
  rfl

theorem begin_start {out : List Token} {b : UInt8} (h : begin out b = (.start, [])) :
    isWhite b = true := by
  unfold begin at h
  split_ifs at h <;> first | assumption | simp at h

theorem begin_white {b : UInt8} (hb : isWhite b = true) : begin [] b = (.start, []) := by
  simp only [isWhite, Bool.or_eq_true, decide_eq_true_eq] at hb
  rcases hb with ((rfl | rfl) | rfl) | rfl <;> rfl

theorem isWhite_of_lineEnd {b : UInt8} (h : isLineEnd b = true) : isWhite b = true := by
  simp only [isLineEnd, isWhite, Bool.or_eq_true, decide_eq_true_eq] at h ⊢
  exact h.imp_left Or.inr

theorem step_start {m : Mode} {out : List Token} {b : UInt8}
    (h : step (m, out) b = (.start, [])) : isWhite b = true ∨ b = 47 := by
  cases m with
  | start => exact Or.inl (begin_start h)
  | lineComment =>
      simp only [step] at h
      split at h
      case isTrue hend => exact Or.inl (isWhite_of_lineEnd hend)
      case isFalse => cases h
  | blockComment =>
      simp only [step] at h
      split at h <;> cases h
  | blockStar =>
      simp only [step] at h
      split at h
      case isTrue hend => exact Or.inr hend
      case isFalse => split at h <;> cases h
  | _ =>
      simp only [step] at h
      split_ifs at h <;> first | exact Or.inl (begin_start h) | cases h

/-- Spacing ends with white space or with the end of a block comment. -/
theorem Spacing.last {gap : Bytes} {b : UInt8} (h : Spacing (gap ++ [b])) :
    isWhite b = true ∨ b = 47 := by
  rw [Spacing, scan_snoc] at h
  exact step_start h

/-- Spacing between a byte that ends none and the same byte at the end of the
text is no text. -/
theorem Spacing.strip {front gap text : Bytes} {b : UInt8} (h : Spacing gap)
    (hb : isWhite b = false ∧ b ≠ 47) (heq : front ++ [b] ++ gap = text ++ [b]) :
    front = text := by
  rcases List.eq_nil_or_concat gap with rfl | ⟨gap', c, rfl⟩
  · rw [List.append_nil] at heq
    exact List.append_cancel_right heq
  · rw [List.concat_eq_append] at heq h
    rw [← List.append_assoc] at heq
    obtain ⟨-, hc⟩ := List.append_inj' heq rfl
    cases hc
    rcases h.last with hwhite | hslash
    · cases hb.1.symm.trans hwhite
    · exact absurd hslash hb.2

inductive Kind where
  | word
  | number
  | literal
  | name
  | symbol

def Token.kind : Token → Kind
  | .word _ => .word
  | .number _ => .number
  | .literal _ => .literal
  | .name _ => .name
  | .symbol _ => .symbol

/-- The token that a mode is in the middle of. -/
def Mode.kind : Mode → Option Kind
  | .word _ => some .word
  | .number _ => some .number
  | .literal _ | .literalQuote _ => some .literal
  | .name _ | .nameQuote _ => some .name
  | _ => none

/-- What is read from within a token begins with a token of that kind. -/
theorem kind_of_lexFrom {m : Mode} {kind : Kind} {t : Token} {ts : List Token} {text : Bytes}
    (hm : m.kind = some kind) (h : lexFrom m text = some (t :: ts)) : t.kind = kind := by
  induction text generalizing m with
  | nil =>
      rw [lexFrom_nil] at h
      cases m <;> cases h <;> first | exact Option.some.inj hm | cases hm
  | cons b text ih =>
      rw [lexFrom_cons] at h
      have hends (first : Token) (hfirst : m.kind = some first.kind)
          (hstep : step (m, []) b = begin [first] b) : t.kind = kind := by
        rw [hstep, begin_out] at h
        obtain ⟨rest, -, heq⟩ := Option.map_eq_some_iff.mp h
        obtain rfl : first = t := (List.cons.inj heq).1
        exact Option.some.inj (hfirst.symm.trans hm)
      have hgoes (m' : Mode) (hm' : m'.kind = m.kind) (hstep : step (m, []) b = (m', [])) :
          t.kind = kind := by
        rw [hstep] at h
        exact ih (hm'.trans hm) (by simpa using h)
      cases m with
      | word w =>
          by_cases hb : isWordPart b
          · exact hgoes (.word (w ++ [lower b])) rfl (by simp [step, hb])
          · exact hends (.word w) rfl (by simp [step, hb])
      | number n =>
          by_cases hb : isDigit b
          · exact hgoes (.number (pushDigit n b)) rfl (by simp [step, hb])
          · exact hends (.number n) rfl (by simp [step, hb])
      | literal s =>
          by_cases hb : b = quote
          · exact hgoes (.literalQuote s) rfl (by simp [step, hb])
          · exact hgoes (.literal (s ++ [b])) rfl (by simp [step, hb])
      | literalQuote s =>
          by_cases hb : b = quote
          · exact hgoes (.literal (s ++ [quote])) rfl (by simp [step, hb])
          · exact hends (.literal s) rfl (by simp [step, hb])
      | name s =>
          by_cases hb : b = 34
          · exact hgoes (.nameQuote s) rfl (by simp [step, hb])
          · exact hgoes (.name (s ++ [b])) rfl (by simp [step, hb])
      | nameQuote s =>
          by_cases hb : b = 34
          · exact hgoes (.name (s ++ [34])) rfl (by simp [step, hb])
          · exact hends (.name s) rfl (by simp [step, hb])
      | _ => cases hm

/-- A byte that is neither spacing nor the beginning of a comment. -/
def StartsToken (b : UInt8) : Prop := isWhite b = false ∧ b ≠ 45 ∧ b ≠ 47

instance : DecidablePred StartsToken := fun b =>
  inferInstanceAs (Decidable (isWhite b = false ∧ b ≠ 45 ∧ b ≠ 47))

/-- Modes between two tokens, or at what may begin a comment. -/
def Mode.between : Mode → Bool
  | .start | .dash | .slash | .lineComment | .blockComment | .blockStar => true
  | _ => false

/-- Before its first token, unless that is a dash or a slash, a text has
spacing only. -/
theorem exists_spacing_from {m : Mode} {front text : Bytes} {t : Token} {ts : List Token}
    (hm : m.between = true) (hfront : scan .start front = (m, []))
    (ht : t ≠ .symbol 45 ∧ t ≠ .symbol 47) (h : lexFrom m text = some (t :: ts)) :
    ∃ gap b rest, front ++ text = gap ++ b :: rest ∧ Spacing gap ∧ StartsToken b ∧
      lexFrom .start (b :: rest) = some (t :: ts) := by
  induction text generalizing m front with
  | nil =>
      rw [lexFrom_nil] at h
      cases m <;> cases h <;> first | exact absurd rfl ht.1 | exact absurd rfl ht.2 | cases hm
  | cons b text ih =>
      have hgoes (m' : Mode) (hm' : m'.between = true) (hstep : step (m, []) b = (m', [])) :
          ∃ gap b' rest, front ++ b :: text = gap ++ b' :: rest ∧ Spacing gap ∧ StartsToken b' ∧
            lexFrom .start (b' :: rest) = some (t :: ts) := by
        rw [lexFrom_cons, hstep] at h
        have hnext := @ih m' (front ++ [b]) hm' (by rw [scan_snoc, hfront, hstep])
          (by simpa using h)
        rwa [List.append_assoc, List.singleton_append] at hnext
      have hsymbol (c : UInt8) (hstep : step (m, []) b = begin [.symbol c] b) : t = .symbol c := by
        rw [lexFrom_cons, hstep, begin_out] at h
        obtain ⟨rest, -, heq⟩ := Option.map_eq_some_iff.mp h
        exact (List.cons.inj heq).1.symm
      cases m with
      | start =>
          by_cases hdash : b = 45
          · exact hgoes .dash rfl (by rw [hdash]; rfl)
          by_cases hslash : b = 47
          · exact hgoes .slash rfl (by rw [hslash]; rfl)
          cases hwhite : isWhite b with
          | true => exact hgoes .start rfl (begin_white hwhite)
          | false => exact ⟨front, b, text, rfl, hfront, ⟨hwhite, hdash, hslash⟩, h⟩
      | dash =>
          by_cases hb : b = 45
          · exact hgoes .lineComment rfl (by simp [step, hb])
          · exact absurd (hsymbol 45 (by simp [step, hb])) ht.1
      | slash =>
          by_cases hline : b = 47
          · exact hgoes .lineComment rfl (by simp [step, hline])
          by_cases hblock : b = 42
          · exact hgoes .blockComment rfl (by simp [step, hblock])
          · exact absurd (hsymbol 47 (by simp [step, hline, hblock])) ht.2
      | lineComment =>
          by_cases hb : isLineEnd b
          · exact hgoes .start rfl (by simp [step, hb])
          · exact hgoes .lineComment rfl (by simp [step, hb])
      | blockComment =>
          by_cases hb : b = 42
          · exact hgoes .blockStar rfl (by simp [step, hb])
          · exact hgoes .blockComment rfl (by simp [step, hb])
      | blockStar =>
          by_cases hend : b = 47
          · exact hgoes .start rfl (by simp [step, hend])
          by_cases hstar : b = 42
          · exact hgoes .blockStar rfl (by simp [step, hstar])
          · exact hgoes .blockComment rfl (by simp [step, hend, hstar])
      | _ => cases hm

theorem exists_spacing {text : Bytes} {t : Token} {ts : List Token} (hdash : t ≠ .symbol 45)
    (hslash : t ≠ .symbol 47) (h : lexFrom .start text = some (t :: ts)) :
    ∃ gap b rest, text = gap ++ b :: rest ∧ Spacing gap ∧ StartsToken b ∧
      lexFrom .start (b :: rest) = some (t :: ts) :=
  @exists_spacing_from .start [] text t ts rfl rfl ⟨hdash, hslash⟩ h

/-- What the first byte of a text makes its first token. -/
theorem first_token {b : UInt8} {rest : Bytes} {t : Token} {ts : List Token}
    (hb : StartsToken b) (h : lexFrom .start (b :: rest) = some (t :: ts)) :
    (t.kind = .literal → b = quote ∧ lexFrom (.literal []) rest = some (t :: ts)) ∧
      (t.kind = .symbol → t = .symbol b ∧ lexFrom .start rest = some ts) := by
  obtain ⟨hwhite, hdash, hslash⟩ := hb
  have hwithin (m : Mode) (kind : Kind) (hm : m.kind = some kind)
      (hstep : step (.start, []) b = (m, [])) :
      t.kind = kind ∧ lexFrom m rest = some (t :: ts) := by
    rw [lexFrom_cons, hstep] at h
    have hrest : lexFrom m rest = some (t :: ts) := by simpa using h
    exact ⟨kind_of_lexFrom hm hrest, hrest⟩
  by_cases hquote : b = quote
  · obtain ⟨hkind, hrest⟩ := hwithin (.literal []) .literal rfl (by rw [hquote]; rfl)
    refine ⟨fun _ => ⟨hquote, hrest⟩, fun hsymbol => ?_⟩
    cases hkind.symm.trans hsymbol
  have hother (kind : Kind) (hkind : t.kind = kind) (hliteral : kind ≠ .literal)
      (hsymbol : kind ≠ .symbol) :
      (t.kind = .literal → b = quote ∧ lexFrom (.literal []) rest = some (t :: ts)) ∧
        (t.kind = .symbol → t = .symbol b ∧ lexFrom .start rest = some ts) :=
    ⟨fun h => absurd (hkind.symm.trans h) hliteral, fun h => absurd (hkind.symm.trans h) hsymbol⟩
  by_cases hname : b = 34
  · have hkind := (hwithin (.name []) .name rfl (by rw [hname]; rfl)).1
    exact hother .name hkind Kind.noConfusion Kind.noConfusion
  cases hletter : isLetter b with
  | true =>
      have hstep : step (.start, []) b = (.word [lower b], []) := by
        simp [step, begin, hquote, hname, hdash, hslash, hwhite, hletter]
      have hkind := (hwithin (.word [lower b]) .word rfl hstep).1
      exact hother .word hkind Kind.noConfusion Kind.noConfusion
  | false =>
      cases hdigit : isDigit b with
      | true =>
          have hkind := (hwithin _ .number rfl (begin_digit hdigit)).1
          exact hother .number hkind Kind.noConfusion Kind.noConfusion
      | false =>
          have hstep : step (.start, []) b = (.start, [.symbol b]) := by
            simp [step, begin, hquote, hname, hdash, hslash, hwhite, hletter, hdigit]
          rw [lexFrom_cons, hstep] at h
          obtain ⟨rest', hrest, heq⟩ := Option.map_eq_some_iff.mp h
          obtain ⟨rfl, rfl⟩ := List.cons.inj heq
          exact ⟨Kind.noConfusion, fun _ => ⟨rfl, hrest⟩⟩

/-- A text that is read as a symbol first is spacing and the symbol. -/
theorem split_symbol {text : Bytes} {c : UInt8} {ts : List Token} (hc : StartsToken c)
    (h : lexFrom .start text = some (.symbol c :: ts)) :
    ∃ gap rest, text = gap ++ c :: rest ∧ Spacing gap ∧ lexFrom .start rest = some ts := by
  have hdash : Token.symbol c ≠ .symbol 45 := fun heq => hc.2.1 (Token.symbol.inj heq)
  have hslash : Token.symbol c ≠ .symbol 47 := fun heq => hc.2.2 (Token.symbol.inj heq)
  obtain ⟨gap, b, rest, rfl, hgap, hb, hread⟩ := exists_spacing hdash hslash h
  obtain ⟨heq, hrest⟩ := (first_token hb hread).2 rfl
  cases heq
  exact ⟨gap, rest, rfl, hgap, hrest⟩

/-- What is read from within a literal is its value, escaped, the closing quote
and the rest. -/
theorem split_literal {text s : Bytes} {ts : List Token}
    (h : lexFrom (.literal []) text = some (.literal s :: ts)) :
    ∃ rest, text = escape s ++ quote :: rest ∧ lexFrom .start rest = some ts := by
  rw [lexFrom_literal] at h
  obtain ⟨⟨v, rest⟩, hread, hlex⟩ := Option.bind_eq_some_iff.mp h
  obtain ⟨ts', hts, heq⟩ := Option.map_eq_some_iff.mp hlex
  obtain ⟨hv, rfl⟩ := List.cons.inj heq
  obtain rfl : v = s := by simpa using hv
  exact ⟨rest, (readLiteral_eq_some_iff.mp hread).1, hts⟩

/-- A text that is read as a literal first is spacing and the literal. -/
theorem split_quoted {text s : Bytes} {ts : List Token}
    (h : lexFrom .start text = some (.literal s :: ts)) :
    ∃ gap rest, text = gap ++ quote :: (escape s ++ quote :: rest) ∧ Spacing gap ∧
      lexFrom .start rest = some ts := by
  obtain ⟨gap, b, rest, rfl, hgap, hb, hread⟩ := exists_spacing Token.noConfusion
    Token.noConfusion h
  obtain ⟨rfl, hliteral⟩ := (first_token hb hread).1 rfl
  obtain ⟨after, rfl, hafter⟩ := split_literal hliteral
  exact ⟨gap, after, rfl, hgap, hafter⟩

/-- The text between the outer quotes of a list of two values: each with its
quotes doubled, and between them a comma, with spacing around it. -/
def WrittenPair (text a b : Bytes) : Prop :=
  ∃ front back, Spacing front ∧ Spacing back ∧
    text = escape a ++ quote :: (front ++ 44 :: (back ++ quote :: escape b))

theorem Spacing.of_lexFrom {text : Bytes} (h : lexFrom .start text = some []) : Spacing text := by
  rw [lexFrom] at h
  obtain ⟨ts, hfinish, heq⟩ := Option.map_eq_some_iff.mp h
  obtain ⟨hout, rfl⟩ := List.append_eq_nil_iff.mp heq
  have hmode : (scan .start text).1 = .start := by
    cases hm : (scan .start text).1 <;> rw [hm] at hfinish <;> first | rfl | cases hfinish
  exact Prod.ext hmode hout

theorem Spacing.lexFrom_eq {gap : Bytes} (h : Spacing gap) : lexFrom .start gap = some [] := by
  have hskip := h.skip []
  rwa [List.append_nil, lexFrom_nil] at hskip

theorem lexFrom_comma (text : Bytes) :
    lexFrom .start (44 :: text) = (lexFrom .start text).map (.symbol 44 :: ·) :=
  lexFrom_cons .start 44 text

theorem lexFrom_quote (text : Bytes) :
    lexFrom .start (quote :: text) = lexFrom (.literal []) text :=
  (lexFrom_cons .start quote text).trans (by simp [step, begin])

theorem Spacing.not_comma {gap : Bytes} : ¬ Spacing (44 :: gap) := by
  intro h
  have hnone := h.lexFrom_eq
  rw [lexFrom_comma] at hnone
  obtain ⟨_, -, heq⟩ := Option.map_eq_some_iff.mp hnone
  cases heq

theorem Spacing.not_quote {gap : Bytes} : ¬ Spacing (quote :: gap) := by
  intro h
  have hnone := h.lexFrom_eq
  rw [lexFrom_quote, lexFrom_literal] at hnone
  obtain ⟨_, -, hlex⟩ := Option.bind_eq_some_iff.mp hnone
  obtain ⟨_, -, heq⟩ := Option.map_eq_some_iff.mp hlex
  cases heq

theorem Spacing.head {gap : Bytes} (h : Spacing gap) {c : UInt8} (hc : c ≠ quote)
    (rest : Bytes) : (gap ++ c :: rest).head? ≠ some quote := by
  cases gap with
  | nil => simpa using hc
  | cons b gap =>
      intro hhead
      obtain rfl : b = quote := by simpa using hhead
      exact h.not_quote

theorem join_literal (s : Bytes) {after : Bytes} (hafter : after.head? ≠ some quote) :
    lexFrom (.literal []) (escape s ++ quote :: after) =
      (lexFrom .start after).map (.literal s :: ·) := by
  rw [lexFrom_literal, readLiteral_escape s hafter]
  simp

/-- Nothing of the end of the list is part of spacing, so it is read as itself
only, and ends the second value. -/
theorem lexFrom_pair_iff {text a b : Bytes} :
    lexFrom (.literal []) (text ++ bytes "');") =
        some [.literal a, .symbol 44, .literal b, .symbol 41, .symbol 59] ↔
      WrittenPair text a b := by
  have hend : bytes "');" = [quote, 41, 59] := by decide
  rw [hend]
  constructor
  · intro h
    obtain ⟨rest, htext, h⟩ := split_literal h
    obtain ⟨front, rest, rfl, hfront, h⟩ := split_symbol (by decide) h
    obtain ⟨back, rest, rfl, hback, h⟩ := split_quoted h
    obtain ⟨gap, rest, rfl, hgap, h⟩ := split_symbol (by decide) h
    obtain ⟨gap', rest, rfl, hgap', h⟩ := split_symbol (by decide) h
    have hrest := Spacing.of_lexFrom h
    have hends : escape a ++ quote :: (front ++ 44 :: (back ++ quote :: escape b)) ++ [quote] ++
        gap ++ [41] ++ gap' ++ [59] ++ rest = text ++ [quote] ++ [41] ++ [59] := by
      simpa using htext.symm
    have hlist := hrest.strip (by decide) hends
    have hclose := hgap'.strip (by decide) hlist
    have hvalues := hgap.strip (by decide) hclose
    exact ⟨front, back, hfront, hback, hvalues.symm⟩
  · rintro ⟨front, back, hfront, hback, rfl⟩
    have hassoc : escape a ++ quote :: (front ++ 44 :: (back ++ quote :: escape b)) ++
        [quote, 41, 59] = escape a ++ quote :: (front ++ 44 :: (back ++ quote ::
          (escape b ++ quote :: [41, 59]))) := by
      simp
    have hclose : lexFrom .start [41, 59] = some [.symbol 41, .symbol 59] := by decide
    rw [hassoc, join_literal a (hfront.head (by decide) _), hfront.skip, lexFrom_comma,
      hback.skip, lexFrom_quote, join_literal b (by decide), hclose]
    rfl

/-- If the first of two values that are pasted between quotes has no quote, it
is read as it is, and the second one if its quotes are doubled. -/
theorem writtenPair_clean {first second a b : Bytes} (hfirst : quote ∉ first) :
    WrittenPair (first ++ bytes "','" ++ second) a b ↔ a = first ∧ second = escape b := by
  have htext : first ++ bytes "','" ++ second = first ++ quote :: (44 :: quote :: second) := by
    have hcomma : bytes "','" = [quote, 44, quote] := by decide
    simp [hcomma]
  rw [htext]
  constructor
  · rintro ⟨front, back, hfront, hback, heq⟩
    have hcomma : (44 : UInt8) ≠ quote := by decide
    have hread := readLiteral_escape a (hfront.head hcomma (back ++ quote :: escape b))
    rw [← heq, readLiteral_clean hfirst (by simpa using hcomma)] at hread
    obtain ⟨rfl, hrest⟩ := Prod.mk.inj (Option.some.inj hread)
    refine ⟨rfl, ?_⟩
    cases front with
    | cons c front =>
        rw [List.cons_append] at hrest
        exact absurd ((List.cons.inj hrest).1 ▸ hfront) Spacing.not_comma
    | nil =>
        cases back with
        | cons c back =>
            have hquote := (List.cons.inj (List.cons.inj hrest).2).1
            exact absurd (hquote ▸ hback) Spacing.not_quote
        | nil => exact (List.cons.inj (List.cons.inj hrest).2).2
  · rintro ⟨rfl, rfl⟩
    exact ⟨[], [], .nil, .nil, by rw [escape_clean hfirst]; rfl⟩

end Img2Web.Cql
