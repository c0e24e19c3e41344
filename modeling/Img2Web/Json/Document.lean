import Img2Web.Json.StringBody

/-!
JSON documents after RFC 8259. Values keep the members of an object in the
order of the text, repeated names included, and the lexeme of a number. The
readers take fuel for their nesting; a text denotes a value when some amount of
fuel reads it completely, and `Denotes.unique` shows that the amount does not
matter.
-/

namespace Img2Web.Json

inductive Value where
  | null
  | bool (b : Bool)
  | number (lexeme : List Char)
  | string (text : List Char)
  | array (items : List Value)
  | object (members : List (List Char × Value))

def isBlank (c : Char) : Bool := c = ' ' || c = '\t' || c = '\n' || c = '\r'

def skipBlanks (text : List Char) : List Char := text.dropWhile isBlank

/-- Read the given characters off the front of the text. -/
def expect (word : List Char) (text : List Char) : Option (List Char) :=
  if word <+: text then some (text.drop word.length) else none

def readDigits (text : List Char) : Option (List Char × List Char) :=
  if (text.takeWhile Char.isDigit) = [] then none
  else some (text.takeWhile Char.isDigit, text.dropWhile Char.isDigit)

/-- The integer part of a number: zero, or digits that begin with no zero. -/
def readInteger : List Char → Option (List Char × List Char)
  | '0' :: rest => some (['0'], rest)
  | text => readDigits text

def readFraction : List Char → Option (List Char × List Char)
  | '.' :: rest => (readDigits rest).map fun (ds, after) => ('.' :: ds, after)
  | text => some ([], text)

def readExponent : List Char → Option (List Char × List Char)
  | e :: rest =>
      if e = 'e' ∨ e = 'E' then
        match rest with
        | '+' :: rest => (readDigits rest).map fun (ds, after) => (e :: '+' :: ds, after)
        | '-' :: rest => (readDigits rest).map fun (ds, after) => (e :: '-' :: ds, after)
        | rest => (readDigits rest).map fun (ds, after) => (e :: ds, after)
      else some ([], e :: rest)
  | [] => some ([], [])

def readUnsigned (text : List Char) : Option (List Char × List Char) := do
  let (int, text) ← readInteger text
  let (frac, text) ← readFraction text
  let (exp, text) ← readExponent text
  return (int ++ frac ++ exp, text)

def readNumber : List Char → Option (List Char × List Char)
  | '-' :: rest => (readUnsigned rest).map fun (lexeme, after) => ('-' :: lexeme, after)
  | text => readUnsigned text

/-- A value that is neither a string nor built from other values. -/
def readAtom (text : List Char) : Option (Value × List Char) :=
  match expect "null".toList text with
  | some after => some (.null, after)
  | none => match expect "true".toList text with
    | some after => some (.bool true, after)
    | none => match expect "false".toList text with
      | some after => some (.bool false, after)
      | none => (readNumber text).map fun (lexeme, after) => (.number lexeme, after)

/-- A member name and the colon after it. -/
def readKey (text : List Char) : Option (List Char × List Char) := do
  let text ← expect ['"'] (skipBlanks text)
  let (key, text) ← readString text
  let text ← expect [':'] (skipBlanks text)
  return (key, text)

/-- After one element of an object or array: `true` at a comma, `false` at the
closing bracket. -/
def readSeparator (close : Char) (text : List Char) : Option (Bool × List Char) :=
  match skipBlanks text with
  | [] => none
  | c :: rest =>
      if c = ',' then some (true, rest)
      else if c = close then some (false, rest)
      else none

mutual

def readValue : Nat → List Char → Option (Value × List Char)
  | 0, _ => none
  | n + 1, text =>
      match skipBlanks text with
      | [] => none
      | c :: rest =>
          if c = '"' then (readString rest).map fun (s, after) => (.string s, after)
          else if c = '{' then
            match expect ['}'] (skipBlanks rest) with
            | some after => some (.object [], after)
            | none => (readMembers n rest).map fun (ms, after) => (.object ms, after)
          else if c = '[' then
            match expect [']'] (skipBlanks rest) with
            | some after => some (.array [], after)
            | none => (readElements n rest).map fun (vs, after) => (.array vs, after)
          else readAtom (c :: rest)

def readMembers : Nat → List Char → Option (List (List Char × Value) × List Char)
  | 0, _ => none
  | n + 1, text =>
      (readKey text).bind fun (key, text) =>
      (readValue n text).bind fun (v, text) =>
      (readSeparator '}' text).bind fun (more, text) =>
        if more then (readMembers n text).map fun (ms, after) => ((key, v) :: ms, after)
        else some ([(key, v)], text)

def readElements : Nat → List Char → Option (List Value × List Char)
  | 0, _ => none
  | n + 1, text =>
      (readValue n text).bind fun (v, text) =>
      (readSeparator ']' text).bind fun (more, text) =>
        if more then (readElements n text).map fun (vs, after) => (v :: vs, after)
        else some ([v], text)

end

/-- The text is a JSON document, and its value is `v`. -/
def Denotes (text : List Char) (v : Value) : Prop :=
  ∃ fuel after, readValue fuel text = some (v, after) ∧ skipBlanks after = []

/-- An answer is kept when there is more fuel. -/
private theorem read_succ (n : Nat) :
    (∀ text r, readValue n text = some r → readValue (n + 1) text = some r) ∧
    (∀ text r, readMembers n text = some r → readMembers (n + 1) text = some r) ∧
    (∀ text r, readElements n text = some r → readElements (n + 1) text = some r) := by
  induction n with
  | zero => simp [readValue, readMembers, readElements]
  | succ n ih =>
      obtain ⟨hvalue, hmembers, helements⟩ := ih
      refine ⟨?_, ?_, ?_⟩
      · intro text r h
        rw [readValue] at h ⊢
        split at h
        · cases h
        · split_ifs at h ⊢ with hquote hbrace hbracket
          · exact h
          · split at h
            · exact h
            · obtain ⟨ms, hms, rfl⟩ := Option.map_eq_some_iff.mp h
              rw [hmembers _ _ hms]
              rfl
          · split at h
            · exact h
            · obtain ⟨vs, hvs, rfl⟩ := Option.map_eq_some_iff.mp h
              rw [helements _ _ hvs]
              rfl
          · exact h
      · intro text r h
        rw [readMembers] at h ⊢
        obtain ⟨⟨key, text₁⟩, hkey, h⟩ := Option.bind_eq_some_iff.mp h
        obtain ⟨⟨v, text₂⟩, hv, h⟩ := Option.bind_eq_some_iff.mp h
        obtain ⟨⟨more, text₃⟩, hsep, h⟩ := Option.bind_eq_some_iff.mp h
        simp only [hkey, hvalue _ _ hv, hsep, Option.bind_some]
        cases more with
        | true =>
            obtain ⟨ms, hms, rfl⟩ := Option.map_eq_some_iff.mp h
            simp [hmembers _ _ hms]
        | false => exact h
      · intro text r h
        rw [readElements] at h ⊢
        obtain ⟨⟨v, text₂⟩, hv, h⟩ := Option.bind_eq_some_iff.mp h
        obtain ⟨⟨more, text₃⟩, hsep, h⟩ := Option.bind_eq_some_iff.mp h
        simp only [hvalue _ _ hv, hsep, Option.bind_some]
        cases more with
        | true =>
            obtain ⟨vs, hvs, rfl⟩ := Option.map_eq_some_iff.mp h
            simp [helements _ _ hvs]
        | false => exact h

theorem readValue_add {n : Nat} {text : List Char} {r : Value × List Char}
    (h : readValue n text = some r) (k : Nat) : readValue (n + k) text = some r := by
  induction k with
  | zero => exact h
  | succ k ih => exact (read_succ (n + k)).1 text r ih

/-- A document denotes one value. -/
theorem Denotes.unique {text : List Char} {v w : Value} (hv : Denotes text v)
    (hw : Denotes text w) : v = w := by
  obtain ⟨n, after, hn, -⟩ := hv
  obtain ⟨m, after', hm, -⟩ := hw
  have hn' := readValue_add hn m
  have hm' := readValue_add hm n
  rw [Nat.add_comm] at hm'
  exact congrArg Prod.fst (Option.some.inj (hn'.symm.trans hm'))

section Slots

variable {n : Nat} {text text' key after : List Char}

/-- The members after the first one, from what follows its value. -/
def readMoreMembers (n : Nat) (text : List Char) :
    Option (List (List Char × Value) × List Char) :=
  (readSeparator '}' text).bind fun (more, text) =>
    if more then readMembers n text else some ([], text)

/-- The elements after the first one, from what follows it. -/
def readMoreElements (n : Nat) (text : List Char) : Option (List Value × List Char) :=
  (readSeparator ']' text).bind fun (more, text) =>
    if more then readElements n text else some ([], text)

theorem readMembers_succ (n : Nat) (text : List Char) :
    readMembers (n + 1) text =
      (readKey text).bind fun (key, text) =>
      (readValue n text).bind fun (v, text) =>
        (readMoreMembers n text).map fun (ms, after) => ((key, v) :: ms, after) := by
  rw [readMembers]
  congr 1
  funext ⟨key, text₁⟩
  dsimp only
  congr 1
  funext ⟨v, text₂⟩
  simp only [readMoreMembers]
  rcases readSeparator '}' text₂ with _ | ⟨_ | _, text₃⟩ <;> rfl

theorem readElements_succ (n : Nat) (text : List Char) :
    readElements (n + 1) text =
      (readValue n text).bind fun (v, text) =>
        (readMoreElements n text).map fun (vs, after) => (v :: vs, after) := by
  rw [readElements]
  congr 1
  funext ⟨v, text₂⟩
  simp only [readMoreElements]
  rcases readSeparator ']' text₂ with _ | ⟨_ | _, text₃⟩ <;> rfl

theorem readMembers_cons_iff {m : List Char × Value} {ms : List (List Char × Value)}
    (hkey : readKey text = some (key, text')) :
    readMembers (n + 1) text = some (m :: ms, after) ↔
      key = m.1 ∧ ∃ rest, readValue n text' = some (m.2, rest) ∧
        readMoreMembers n rest = some (ms, after) := by
  rw [readMembers_succ, hkey, Option.bind_some]
  constructor
  · intro h
    obtain ⟨⟨v, rest⟩, hv, h⟩ := Option.bind_eq_some_iff.mp h
    obtain ⟨⟨ms', after'⟩, hmore, heq⟩ := Option.map_eq_some_iff.mp h
    obtain ⟨hmembers, rfl⟩ := Prod.mk.inj heq
    obtain ⟨rfl, rfl⟩ := List.cons.inj hmembers
    exact ⟨rfl, rest, hv, hmore⟩
  · rintro ⟨rfl, rest, hv, hmore⟩
    simp [hv, hmore]

theorem readElements_cons_iff {v : Value} {vs : List Value} :
    readElements (n + 1) text = some (v :: vs, after) ↔
      ∃ rest, readValue n text = some (v, rest) ∧
        readMoreElements n rest = some (vs, after) := by
  rw [readElements_succ]
  constructor
  · intro h
    obtain ⟨⟨v', rest⟩, hv, h⟩ := Option.bind_eq_some_iff.mp h
    obtain ⟨⟨vs', after'⟩, hmore, heq⟩ := Option.map_eq_some_iff.mp h
    obtain ⟨hlist, rfl⟩ := Prod.mk.inj heq
    obtain ⟨rfl, rfl⟩ := List.cons.inj hlist
    exact ⟨rest, hv, hmore⟩
  · rintro ⟨rest, hv, hmore⟩
    simp [hv, hmore]

theorem readValue_array {items : List Char} (hopen : skipBlanks text = '[' :: items)
    (hitems : expect [']'] (skipBlanks items) = none) :
    readValue (n + 1) text =
      (readElements n items).map fun (vs, after) => (.array vs, after) := by
  rw [readValue, hopen]
  simp [hitems]

theorem readValue_object {members : List Char} (hopen : skipBlanks text = '{' :: members)
    (hmembers : expect ['}'] (skipBlanks members) = none) :
    readValue (n + 1) text =
      (readMembers n members).map fun (ms, after) => (.object ms, after) := by
  rw [readValue, hopen]
  simp [hmembers]

/-- Members are never none: the first one has the key that is read first. -/
theorem readMembers_head {ms : List (List Char × Value)}
    (hkey : readKey text = some (key, text'))
    (h : readMembers (n + 1) text = some (ms, after)) :
    ∃ v ms', ms = (key, v) :: ms' := by
  rw [readMembers_succ, hkey, Option.bind_some] at h
  obtain ⟨⟨v, rest⟩, -, h⟩ := Option.bind_eq_some_iff.mp h
  obtain ⟨⟨ms', after'⟩, -, heq⟩ := Option.map_eq_some_iff.mp h
  exact ⟨v, ms', (Prod.mk.inj heq).1.symm⟩

/-- A string put between quotation marks as it is, as a value: it is read back
exactly when it has no special character. -/
theorem readValue_slot_iff {x rest : List Char}
    (hopen : skipBlanks text = '"' :: (x ++ '"' :: rest)) :
    readValue (n + 1) text = some (.string x, after) ↔
      (∀ c ∈ x, isSpecial c = false) ∧ rest = after := by
  have hvalue : readValue (n + 1) text =
      (readString (x ++ '"' :: rest)).map fun (s, after) => (.string s, after) := by
    rw [readValue, hopen]
    rfl
  rw [hvalue]
  constructor
  · intro h
    obtain ⟨⟨s, after'⟩, hread, heq⟩ := Option.map_eq_some_iff.mp h
    obtain ⟨hs, rfl⟩ := Prod.mk.inj heq
    obtain rfl := Value.string.inj hs
    have hclean := clean_of_readString hread
    rw [readString_clean hclean] at hread
    exact ⟨hclean, (Prod.mk.inj (Option.some.inj hread)).2⟩
  · rintro ⟨hclean, rfl⟩
    rw [readString_clean hclean]
    rfl

theorem readMembers_slot_iff {x rest : List Char} {ms : List (List Char × Value)}
    (hkey : readKey text = some (key, text'))
    (hopen : skipBlanks text' = '"' :: (x ++ '"' :: rest)) :
    readMembers (n + 2) text = some ((key, .string x) :: ms, after) ↔
      (∀ c ∈ x, isSpecial c = false) ∧ readMoreMembers (n + 1) rest = some (ms, after) := by
  rw [readMembers_cons_iff hkey]
  simp only [readValue_slot_iff hopen, true_and]
  constructor
  · rintro ⟨text₁, ⟨hclean, rfl⟩, hmore⟩
    exact ⟨hclean, hmore⟩
  · rintro ⟨hclean, hmore⟩
    exact ⟨rest, ⟨hclean, rfl⟩, hmore⟩

end Slots

end Img2Web.Json
