import Img2Web.Model.Query

/-!
`JoinUsers` as an encoding of lists. Its output is read back with the lexical
rules of CQL and the grammar of a parenthesised list. An element is decoded as
itself exactly when it has no single quote; with one, the text may be refused,
or read as other elements, and as more or fewer of them.
-/

namespace Img2Web

open Text Cql

/-- After an element: a comma and the next one, or the closing parenthesis at
the very end. -/
def readListRest : List Token → Option (List Bytes)
  | [.symbol 41] => some []
  | .symbol 44 :: .literal s :: rest => (readListRest rest).map (s :: ·)
  | _ => none

/-- A parenthesised, comma-separated list of string literals and nothing else. -/
def readList : List Token → Option (List Bytes)
  | [.symbol 40, .symbol 41] => some []
  | .symbol 40 :: .literal s :: rest => (readListRest rest).map (s :: ·)
  | _ => none

def decodeList (text : Bytes) : Option (List Bytes) := (lex text).bind readList

def elementTokens (v : List Bytes) : List Token :=
  v.flatMap fun s => [symbol ',', .literal s]

theorem readListRest_iff {tokens : List Token} {v : List Bytes} :
    readListRest tokens = some v ↔ tokens = elementTokens v ++ [symbol ')'] := by
  constructor
  · intro h
    induction tokens using readListRest.induct generalizing v with
    | case1 =>
        obtain rfl : [] = v := by simpa [readListRest] using h
        rfl
    | case2 s rest ih =>
        rw [readListRest, Option.map_eq_some_iff] at h
        obtain ⟨v', hread, rfl⟩ := h
        rw [ih hread]
        rfl
    | case3 => simp [readListRest] at h
  · rintro rfl
    induction v with
    | nil => rfl
    | cons s rest ih =>
        have hcons : elementTokens (s :: rest) ++ [symbol ')'] =
            .symbol 44 :: .literal s :: (elementTokens rest ++ [symbol ')']) := rfl
        rw [hcons, readListRest, ih]
        rfl

theorem readList_iff {tokens : List Token} {v : List Bytes} :
    readList tokens = some v ↔ tokens = listTokens v := by
  constructor
  · intro h
    unfold readList at h
    split at h
    · obtain rfl : [] = v := by simpa using h
      rfl
    · obtain ⟨v', hread, rfl⟩ := Option.map_eq_some_iff.mp h
      rw [readListRest_iff.mp hread]
      rfl
    · cases h
  · rintro rfl
    cases v with
    | nil => rfl
    | cons s rest =>
        have hread := readListRest_iff.mpr (rfl : elementTokens rest ++ [symbol ')'] = _)
        exact congrArg (Option.map (s :: ·)) hread

def comma : Gap := ⟨bytes ",'", [symbol ','], rfl, by decide⟩

/-- The closing parenthesis and the text after the list. -/
def closing {post : Bytes} {tokens : List Token}
    (hpost : lexFrom .start post = some tokens) : Tail where
  text := bytes ")" ++ post
  tokens := symbol ')' :: tokens
  closes := by
    rw [lexFrom_append, ← List.singleton_append]
    exact map_append_eq_some_iff.mpr hpost
  unquoted := by
    change some (41 : UInt8) ≠ some quote
    decide

section List

variable {post : Bytes} {tokens : List Token} (hpost : lexFrom .start post = some tokens)

/-- The loop of `JoinUsers` over `init`, and the separately written last
element, weave the elements with commas. -/
theorem joinUsers_loop (init : List Bytes) (acc last : Bytes) :
    init.foldl (fun result user => result ++ (bytes "'" ++ user ++ bytes "',")) acc ++
        (bytes "'" ++ last ++ bytes "'") ++ (bytes ")" ++ post) =
      acc ++ quote :: weave (closing hpost) (init.map fun s => (s, comma)) last := by
  have hquote : bytes "'" = [quote] := rfl
  induction init generalizing acc with
  | nil => simp [weave, closing, hquote]
  | cons s init ih =>
      have hcomma : bytes "'," = quote :: bytes "," := rfl
      have hopen : comma.text = bytes "," ++ [quote] := rfl
      rw [List.foldl_cons, ih, List.map_cons, weave, hopen]
      simp [hquote, hcomma]

theorem joinUsers_concat (init : List Bytes) (last : Bytes) :
    joinUsers (init ++ [last]) ++ post =
      bytes "('" ++ weave (closing hpost) (init.map fun s => (s, comma)) last := by
  have hloop := joinUsers_loop hpost init (bytes "(") last
  have hopen : bytes "('" = bytes "(" ++ [quote] := rfl
  rw [joinUsers, List.dropLast_concat, List.getLast?_concat, hopen, List.append_assoc _ [quote]]
  simpa using hloop

theorem weaveTokens_commas (init : List Bytes) (last : Bytes) :
    symbol ',' :: weaveTokens (closing hpost) (init.map fun s => (s, comma)) last =
      elementTokens (init ++ [last]) ++ symbol ')' :: tokens := by
  induction init with
  | nil => rfl
  | cons s init ih => exact congrArg (fun l => symbol ',' :: .literal s :: l) ih

theorem listTokens_concat (init : List Bytes) (last : Bytes) :
    listTokens (init ++ [last]) ++ tokens =
      symbol '(' :: weaveTokens (closing hpost) (init.map fun s => (s, comma)) last := by
  cases init with
  | nil => rfl
  | cons s init =>
      have hrest := weaveTokens_commas hpost init last
      rw [List.map_cons, weaveTokens]
      have hgap : comma.tokens = [symbol ','] := rfl
      rw [hgap, List.singleton_append, hrest]
      simp [listTokens, elementTokens]

include hpost in
/-- The list that `JoinUsers` writes in front of `post` is read as the list it
was given exactly when no element has a quote. -/
theorem lexFrom_joinUsers_iff (v : List Bytes) :
    lexFrom .start (joinUsers v ++ post) = some (listTokens v ++ tokens) ↔
      ∀ s ∈ v, quote ∉ s := by
  rcases List.eq_nil_or_concat v with rfl | ⟨init, last, rfl⟩
  · have hscan : scan .start (joinUsers []) = (.start, listTokens []) := rfl
    simpa using (lexFrom_append_iff hscan post tokens).mpr hpost
  · have hscan : scan .start (bytes "('") = (.literal [], [symbol '(']) := rfl
    rw [List.concat_eq_append, joinUsers_concat hpost, listTokens_concat hpost,
      ← List.singleton_append, lexFrom_append_iff hscan, lexFrom_weave_iff]
    simp [or_imp, forall_and]

end List

theorem lex_joinUsers_iff (v : List Bytes) :
    lex (joinUsers v) = some (listTokens v) ↔ ∀ s ∈ v, quote ∉ s := by
  have hend : lexFrom .start [] = some [] := lexFrom_nil .start
  have h := lexFrom_joinUsers_iff hend v
  rwa [List.append_nil, List.append_nil] at h

/-- Decoding what `JoinUsers` wrote gives back the list exactly when no element
has a quote. -/
theorem decodeList_joinUsers_iff (v : List Bytes) :
    decodeList (joinUsers v) = some v ↔ ∀ s ∈ v, quote ∉ s := by
  rw [← lex_joinUsers_iff, decodeList]
  constructor
  · intro h
    obtain ⟨tokens, hlex, hread⟩ := Option.bind_eq_some_iff.mp h
    rw [hlex, readList_iff.mp hread]
  · intro h
    rw [h]
    exact readList_iff.mpr rfl

end Img2Web
