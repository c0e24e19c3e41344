import Mathlib.Tactic.Common
import Mathlib.Data.List.Basic

/-!
JSON strings after RFC 8259, section 7. The body of a string is read character
by character: a quotation mark ends it, a reverse solidus begins an escape, a
control character is not allowed, and any other character stands for itself.
A lone surrogate escape denotes no text and is refused.

A text written between quotation marks as it is comes back exactly when it has
none of these special characters, whatever follows it. The argument counts:
reading never yields more characters than it consumes, and never fewer
quotation marks.
-/

namespace Img2Web.Json

/-- Where the reader is inside a string body. `hex` has `left` more digits of
a `\u` escape to read, after the high surrogate `high` if there is one. -/
inductive StringMode where
  | plain
  | escape
  | hex (left : Nat) (code : Nat) (high : Option Nat)
  | pairSolidus (high : Nat)
  | pairU (high : Nat)

def hexDigit (c : Char) : Option Nat :=
  if '0' ≤ c ∧ c ≤ '9' then some (c.toNat - 48)
  else if 'a' ≤ c ∧ c ≤ 'f' then some (c.toNat - 87)
  else if 'A' ≤ c ∧ c ≤ 'F' then some (c.toNat - 55)
  else none

/-- The character of a two-character escape. -/
def simpleEscape (c : Char) : Option Char :=
  if c = '"' ∨ c = '\\' ∨ c = '/' then some c
  else if c = 'b' then some (Char.ofNat 8)
  else if c = 'f' then some (Char.ofNat 12)
  else if c = 'n' then some '\n'
  else if c = 'r' then some '\r'
  else if c = 't' then some '\t'
  else none

/-- A character that cannot stand for itself in a string body. -/
def isSpecial (c : Char) : Bool := c = '"' || c = '\\' || c.toNat < 32

/-- What a complete `\u` escape stands for: a character, or the first half of
a surrogate pair. -/
def codeUnit (code : Nat) : Option Nat → Option (Char ⊕ Nat)
  | none =>
      if 0xD800 ≤ code ∧ code ≤ 0xDBFF then some (.inr code)
      else if 0xDC00 ≤ code ∧ code ≤ 0xDFFF then none
      else some (.inl (Char.ofNat code))
  | some high =>
      if 0xDC00 ≤ code ∧ code ≤ 0xDFFF then
        some (.inl (Char.ofNat (0x10000 + (high - 0xD800) * 0x400 + (code - 0xDC00))))
      else none

/-- Put a character in front of the text still to be read. -/
def emit (c : Char) (read : Option (List Char × List Char)) :
    Option (List Char × List Char) :=
  read.map fun (text, after) => (c :: text, after)

def readBody : StringMode → List Char → Option (List Char × List Char)
  | _, [] => none
  | .plain, c :: rest =>
      if c = '"' then some ([], rest)
      else if c = '\\' then readBody .escape rest
      else if c.toNat < 32 then none
      else emit c (readBody .plain rest)
  | .escape, c :: rest =>
      if c = 'u' then readBody (.hex 4 0 none) rest
      else match simpleEscape c with
        | some d => emit d (readBody .plain rest)
        | none => none
  | .hex left code high, c :: rest =>
      match hexDigit c with
      | none => none
      | some d =>
          if left ≤ 1 then
            match codeUnit (16 * code + d) high with
            | none => none
            | some (.inl ch) => emit ch (readBody .plain rest)
            | some (.inr unit) => readBody (.pairSolidus unit) rest
          else readBody (.hex (left - 1) (16 * code + d) high) rest
  | .pairSolidus high, c :: rest =>
      if c = '\\' then readBody (.pairU high) rest else none
  | .pairU high, c :: rest =>
      if c = 'u' then readBody (.hex 4 0 (some high)) rest else none

/-- The text of a string whose opening quotation mark has been read, and what
follows the closing one. -/
def readString (text : List Char) : Option (List Char × List Char) :=
  readBody .plain text

theorem readString_close (rest : List Char) :
    readString ('"' :: rest) = some ([], rest) := by
  simp [readString, readBody]

theorem readString_cons {c : Char} (hc : isSpecial c = false) (rest : List Char) :
    readString (c :: rest) = emit c (readString rest) := by
  simp only [isSpecial, Bool.or_eq_false_iff, decide_eq_false_iff_not] at hc
  simp [readString, readBody, hc.1.1, hc.1.2, hc.2]

/-- A text without special characters is read back as it is. -/
theorem readString_clean {x : List Char} (hx : ∀ c ∈ x, isSpecial c = false)
    (after : List Char) : readString (x ++ '"' :: after) = some (x, after) := by
  induction x with
  | nil => exact readString_close after
  | cons c x ih =>
      obtain ⟨hc, hrest⟩ := List.forall_mem_cons.mp hx
      rw [List.cons_append, readString_cons hc, ih hrest]
      rfl

/-- How the text read compares with the characters it was read from. -/
structure ReadFrom (text consumed : List Char) : Prop where
  length_le : text.length ≤ consumed.length
  quotes_le : consumed.count '"' ≤ text.count '"'

theorem ReadFrom.skip {text consumed : List Char} (h : ReadFrom text consumed)
    {c : Char} (hc : c ≠ '"') : ReadFrom text (c :: consumed) where
  length_le := Nat.le_succ_of_le h.length_le
  quotes_le := by
    rw [List.count_cons_of_ne hc]
    exact h.quotes_le

theorem ReadFrom.push {text consumed : List Char} (h : ReadFrom text consumed)
    {c d : Char} (hcd : c = '"' → d = '"') : ReadFrom (d :: text) (c :: consumed) where
  length_le := Nat.succ_le_succ h.length_le
  quotes_le := by
    have hrest := h.quotes_le
    by_cases hc : c = '"'
    · obtain rfl := hcd hc
      subst hc
      simpa using hrest
    · rw [List.count_cons_of_ne hc]
      exact Nat.le_trans hrest List.count_le_count_cons

theorem hexDigit_ne_quote {c : Char} {d : Nat} (h : hexDigit c = some d) : c ≠ '"' := by
  rintro rfl
  simp [hexDigit] at h

theorem emit_eq_some {c : Char} {read : Option (List Char × List Char)}
    {text after : List Char} (h : emit c read = some (text, after)) :
    ∃ text', read = some (text', after) ∧ text = c :: text' := by
  obtain ⟨⟨text', after'⟩, hread, heq⟩ := Option.map_eq_some_iff.mp h
  obtain ⟨rfl, rfl⟩ := Prod.mk.inj heq
  exact ⟨text', hread, rfl⟩

/-- In every mode the reader consumes up to a quotation mark, and what it
yields is `ReadFrom` what it consumed. The induction is on the text, since the
mode changes at every character of an escape. -/
theorem readBody_consumes (m : StringMode) {raw text after : List Char}
    (h : readBody m raw = some (text, after)) :
    ∃ consumed, raw = consumed ++ '"' :: after ∧ ReadFrom text consumed := by
  induction raw generalizing m text with
  | nil => simp [readBody] at h
  | cons c rest ih =>
      have hskip {m' : StringMode} (hc : c ≠ '"')
          (hread : readBody m' rest = some (text, after)) :
          ∃ consumed, c :: rest = consumed ++ '"' :: after ∧ ReadFrom text consumed := by
        obtain ⟨consumed, rfl, hfrom⟩ := ih m' hread
        exact ⟨c :: consumed, rfl, hfrom.skip hc⟩
      have hpush {d : Char} (hcd : c = '"' → d = '"')
          (hread : emit d (readBody .plain rest) = some (text, after)) :
          ∃ consumed, c :: rest = consumed ++ '"' :: after ∧ ReadFrom text consumed := by
        obtain ⟨text', hread', rfl⟩ := emit_eq_some hread
        obtain ⟨consumed, rfl, hfrom⟩ := ih .plain hread'
        exact ⟨c :: consumed, rfl, hfrom.push hcd⟩
      cases m with
      | plain =>
          rw [readBody] at h
          split_ifs at h with hquote hsolidus hcontrol
          · obtain ⟨rfl, rfl⟩ : [] = text ∧ rest = after := by simpa using h
            exact ⟨[], by rw [hquote]; rfl, ⟨Nat.le_refl _, Nat.le_refl _⟩⟩
          · exact hskip hquote h
          · exact hpush id h
      | escape =>
          rw [readBody] at h
          split_ifs at h with hu
          · exact hskip (by rw [hu]; decide) h
          · split at h
            · rename_i d hd
              refine hpush ?_ h
              rintro rfl
              simpa [simpleEscape] using hd.symm
            · cases h
      | hex left code high =>
          rw [readBody] at h
          split at h
          · cases h
          · rename_i d hd
            have hc := hexDigit_ne_quote hd
            split_ifs at h
            · split at h
              · cases h
              · exact hpush (fun heq => absurd heq hc) h
              · exact hskip hc h
            · exact hskip hc h
      | pairSolidus high =>
          rw [readBody] at h
          split_ifs at h with hsolidus
          exact hskip (by rw [hsolidus]; decide) h
      | pairU high =>
          rw [readBody] at h
          split_ifs at h with hu
          exact hskip (by rw [hu]; decide) h

/-- A text that was read from as many characters as it has contains no
special character and is those characters. -/
theorem clean_of_length {raw text after consumed : List Char}
    (h : readString raw = some (text, after)) (hraw : raw = consumed ++ '"' :: after)
    (hlen : text.length = consumed.length) : ∀ c ∈ consumed, isSpecial c = false := by
  induction consumed generalizing raw text with
  | nil => simp
  | cons c consumed ih =>
      subst hraw
      rw [List.cons_append, readString, readBody] at h
      split_ifs at h with hquote hsolidus hcontrol
      · obtain ⟨rfl, _⟩ : [] = text ∧ _ := by simpa using h
        simp at hlen
      · obtain ⟨consumed', hsame, hfrom⟩ := readBody_consumes .escape h
        obtain rfl := List.append_cancel_right hsame
        have := hfrom.length_le
        simp only [List.length_cons] at hlen
        omega
      · obtain ⟨text', hread, rfl⟩ := emit_eq_some h
        have hc : isSpecial c = false := by
          simp [isSpecial, hquote, hsolidus, hcontrol]
        refine List.forall_mem_cons.mpr ⟨hc, ih hread rfl ?_⟩
        simpa using hlen

/-- A text put between quotation marks as it is comes back only if it has no
special character. -/
theorem clean_of_readString {x after rest : List Char}
    (h : readString (x ++ '"' :: after) = some (x, rest)) :
    ∀ c ∈ x, isSpecial c = false := by
  obtain ⟨consumed, hsame, hfrom⟩ := readBody_consumes .plain h
  have hlen := hfrom.length_le
  have hquotes := hfrom.quotes_le
  rcases List.append_eq_append_iff.mp hsame with ⟨more, rfl, hmore⟩ | ⟨more, rfl, hmore⟩
  · cases more with
    | nil =>
        obtain ⟨-, rfl⟩ := List.cons.inj hmore
        simpa using clean_of_length h rfl (by simp)
    | cons d more =>
        -- the closing mark was read as part of the text, which then has one
        -- quotation mark more than itself
        obtain ⟨rfl, -⟩ := List.cons.inj hmore
        simp only [List.count_append, List.count_cons_self] at hquotes
        omega
  · cases more with
    | nil =>
        obtain ⟨-, rfl⟩ := List.cons.inj hmore
        simpa using clean_of_length h rfl (by simp)
    | cons d more =>
        simp only [List.length_append, List.length_cons] at hlen
        omega

end Img2Web.Json
