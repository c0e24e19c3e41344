import Mathlib.Tactic.Common
import Img2Web.Text.Bytes

/-!
The lexical rules of CQL, as an automaton over bytes. A string literal runs
from a quote to the next undoubled quote, and a doubled quote inside it denotes
one quote. Words are case-insensitive and reported in lower case. Quoted names
and the three comment forms are recognised because they decide where a literal
may begin; any other byte is a symbol of its own. A comment of either form has
to be ended: a text that ends inside one is malformed.

The automaton state is the mode and the tokens finished so far, so that a text
can be lexed piece by piece: `lexFrom` is what remains to be read in a mode.
-/

namespace Img2Web.Cql

open Text

inductive Token where
  | word (w : Bytes)
  | number (n : Nat)
  | literal (s : Bytes)
  | name (s : Bytes)
  | symbol (b : UInt8)
  deriving DecidableEq

def Token.literal? : Token → Option Bytes
  | .literal s => some s
  | _ => none

def Token.number? : Token → Option Nat
  | .number n => some n
  | _ => none

/-- A token without the value of a literal. -/
def Token.blank : Token → Token
  | .literal _ => .literal []
  | token => token

/-- The single quote that delimits string literals. -/
def quote : UInt8 := 39

inductive Mode where
  | start
  | word (w : Bytes)
  | number (n : Nat)
  | literal (s : Bytes)
  /-- A quote was read inside a literal: it ends the literal unless doubled. -/
  | literalQuote (s : Bytes)
  | name (s : Bytes)
  | nameQuote (s : Bytes)
  | dash
  | slash
  | lineComment
  | blockComment
  | blockStar
  deriving DecidableEq

/-- White space separates tokens: space, tab, line feed and carriage return. -/
def isWhite (b : UInt8) : Bool := b = 32 || b = 9 || b = 10 || b = 13

/-- A line comment runs to a line feed or a carriage return. -/
def isLineEnd (b : UInt8) : Bool := b = 10 || b = 13

def isWordPart (b : UInt8) : Bool := isLetter b || isDigit b || b = 95

/-- Read one byte when no token is under way. -/
def begin (out : List Token) (b : UInt8) : Mode × List Token :=
  if b = quote then (.literal [], out)
  else if b = 34 then (.name [], out)
  else if b = 45 then (.dash, out)
  else if b = 47 then (.slash, out)
  else if isWhite b then (.start, out)
  else if isLetter b then (.word [lower b], out)
  else if isDigit b then (.number (digit b), out)
  else (.start, out ++ [.symbol b])

def step : Mode × List Token → UInt8 → Mode × List Token
  | (.start, out), b => begin out b
  | (.word w, out), b =>
      if isWordPart b then (.word (w ++ [lower b]), out) else begin (out ++ [.word w]) b
  | (.number n, out), b =>
      if isDigit b then (.number (pushDigit n b), out) else begin (out ++ [.number n]) b
  | (.literal s, out), b =>
      if b = quote then (.literalQuote s, out) else (.literal (s ++ [b]), out)
  | (.literalQuote s, out), b =>
      if b = quote then (.literal (s ++ [quote]), out) else begin (out ++ [.literal s]) b
  | (.name s, out), b =>
      if b = 34 then (.nameQuote s, out) else (.name (s ++ [b]), out)
  | (.nameQuote s, out), b =>
      if b = 34 then (.name (s ++ [34]), out) else begin (out ++ [.name s]) b
  | (.dash, out), b =>
      if b = 45 then (.lineComment, out) else begin (out ++ [.symbol 45]) b
  | (.slash, out), b =>
      if b = 47 then (.lineComment, out)
      else if b = 42 then (.blockComment, out)
      else begin (out ++ [.symbol 47]) b
  | (.lineComment, out), b =>
      if isLineEnd b then (.start, out) else (.lineComment, out)
  | (.blockComment, out), b =>
      if b = 42 then (.blockStar, out) else (.blockComment, out)
  | (.blockStar, out), b =>
      if b = 47 then (.start, out)
      else if b = 42 then (.blockStar, out)
      else (.blockComment, out)

/-- The tokens of a text that ends in this mode; `none` inside a literal, a
quoted name or a comment. -/
def Mode.finish : Mode → Option (List Token)
  | .start => some []
  | .word w => some [.word w]
  | .number n => some [.number n]
  | .literalQuote s => some [.literal s]
  | .nameQuote s => some [.name s]
  | .dash => some [.symbol 45]
  | .slash => some [.symbol 47]
  | .literal _ | .name _ | .lineComment | .blockComment | .blockStar => none

def scan (m : Mode) (text : Bytes) : Mode × List Token := text.foldl step (m, [])

/-- The tokens of `text` when its first byte is read in mode `m`. -/
def lexFrom (m : Mode) (text : Bytes) : Option (List Token) :=
  (scan m text).1.finish.map ((scan m text).2 ++ ·)

def lex (text : Bytes) : Option (List Token) := lexFrom .start text

theorem begin_out (out : List Token) (b : UInt8) :
    begin out b = ((begin [] b).1, out ++ (begin [] b).2) := by
  unfold begin
  split_ifs <;> simp

/-- Tokens already finished do not influence how the text is read. -/
theorem step_out (m : Mode) (out : List Token) (b : UInt8) :
    step (m, out) b = ((step (m, []) b).1, out ++ (step (m, []) b).2) := by
  have hbegin (t : Token) :
      begin (out ++ [t]) b = ((begin [t] b).1, out ++ (begin [t] b).2) := by
    rw [begin_out (out ++ [t]), begin_out [t]]
    simp
  cases m <;> simp only [step]
  case start => exact begin_out out b
  all_goals split_ifs <;> simp [hbegin]

theorem foldl_step_out (m : Mode) (out : List Token) (text : Bytes) :
    text.foldl step (m, out) = ((scan m text).1, out ++ (scan m text).2) := by
  induction text generalizing m out with
  | nil => simp [scan]
  | cons b rest ih =>
      rw [scan, List.foldl_cons, List.foldl_cons, step_out m out b, ih,
        ih (step (m, []) b).1 (step (m, []) b).2]
      simp

theorem scan_append (m : Mode) (first second : Bytes) :
    scan m (first ++ second) =
      ((scan (scan m first).1 second).1,
        (scan m first).2 ++ (scan (scan m first).1 second).2) := by
  rw [scan, List.foldl_append]
  exact foldl_step_out _ _ _

/-- Lexing a text in two pieces. -/
theorem lexFrom_append (m : Mode) (first second : Bytes) :
    lexFrom m (first ++ second) =
      (lexFrom (scan m first).1 second).map ((scan m first).2 ++ ·) := by
  rw [lexFrom, scan_append, lexFrom, Option.map_map]
  congr 1
  funext ts
  simp

theorem map_append_eq_some_iff {read : Option (List Token)} {front rest : List Token} :
    read.map (front ++ ·) = some (front ++ rest) ↔ read = some rest := by
  rw [Option.map_eq_some_iff]
  constructor
  · rintro ⟨ts, hts, heq⟩
    rw [hts, List.append_cancel_left heq]
  · intro h
    exact ⟨rest, h, rfl⟩

/-- When the front of a text is read as it should be, the rest decides. -/
theorem lexFrom_append_iff {m m' : Mode} {front : Bytes} {tokens : List Token}
    (hfront : scan m front = (m', tokens)) (text : Bytes) (rest : List Token) :
    lexFrom m (front ++ text) = some (tokens ++ rest) ↔ lexFrom m' text = some rest := by
  rw [lexFrom_append, hfront]
  exact map_append_eq_some_iff

/-- Whatever a text is read as begins with what its front is read as. -/
theorem prefix_of_lexFrom {m m' : Mode} {front more : Bytes} {tokens read : List Token}
    (hfront : scan m front = (m', tokens)) (h : lexFrom m (front ++ more) = some read) :
    tokens <+: read := by
  rw [lexFrom_append, hfront] at h
  obtain ⟨ts, -, rfl⟩ := Option.map_eq_some_iff.mp h
  exact List.prefix_append tokens ts

theorem lexFrom_cons (m : Mode) (b : UInt8) (rest : Bytes) :
    lexFrom m (b :: rest) =
      (lexFrom (step (m, []) b).1 rest).map ((step (m, []) b).2 ++ ·) :=
  lexFrom_append m [b] rest

@[simp] theorem lexFrom_nil (m : Mode) : lexFrom m [] = m.finish := by
  simp [lexFrom, scan]

/-- A decimal numeral is one number token, and it ends at the first byte that
is not a digit. -/
theorem scan_number (n : Nat) (ds : Bytes) (hds : ∀ b ∈ ds, isDigit b = true) :
    scan (.number n) ds = (.number (ds.foldl pushDigit n), []) := by
  induction ds generalizing n with
  | nil => rfl
  | cons b rest ih =>
      have hb : step (.number n, []) b = (.number (pushDigit n b), []) := by
        simp [step, hds b List.mem_cons_self]
      rw [scan, List.foldl_cons, hb]
      exact ih _ fun c hc => hds c (List.mem_cons_of_mem _ hc)

theorem begin_digit {b : UInt8} (hb : isDigit b = true) :
    begin [] b = (.number (digit b), []) := by
  simp only [isDigit, Bool.and_eq_true, decide_eq_true_eq] at hb
  have hquote : b ≠ quote := by rintro rfl; revert hb; decide
  have hname : b ≠ 34 := by rintro rfl; revert hb; decide
  have hdash : b ≠ 45 := by rintro rfl; revert hb; decide
  have hslash : b ≠ 47 := by rintro rfl; revert hb; decide
  have hletter : isLetter b = false ∧ isWhite b = false ∧ isDigit b = true := by
    simp only [isLetter, isUpper, isWhite, isDigit, UInt8.le_iff_toNat_le,
      ← UInt8.toNat_inj] at hb ⊢
    simp only [Bool.or_eq_false_iff, Bool.and_eq_false_iff, Bool.and_eq_true,
      decide_eq_false_iff_not, decide_eq_true_eq]
    simp only [UInt8.reduceToNat] at hb ⊢
    omega
  simp [begin, hquote, hname, hdash, hslash, hletter]

theorem scan_decimal (n : Nat) : scan .start (decimal n) = (.number n, []) := by
  have hvalue := decimal_value n
  have hdigits := decimal_digits n
  cases hds : decimal n with
  | nil => exact absurd hds (decimal_ne_nil n)
  | cons b rest =>
      rw [hds] at hvalue hdigits
      have hb : step (.start, []) b = (.number (pushDigit 0 b), []) := by
        simp [step, begin_digit (hdigits b List.mem_cons_self), pushDigit]
      rw [scan, List.foldl_cons, hb, ← hvalue, List.foldl_cons]
      exact scan_number _ rest fun c hc => hdigits c (List.mem_cons_of_mem _ hc)

end Img2Web.Cql
