import FilesetBatch.Decimal.Digits
import FilesetBatch.Json.Number

/-!
# Lexemes of JSON

A JSON text is cut into lexemes before its structure is read: brackets, commas, words,
numbers and strings, with the blanks between them left out. The cut ends with the lexeme
`broken` where no lexeme can be found, so that a reader that gets so far knows that the text
is no JSON, and one that stops earlier never sees it.

In a string a character may be written as its UTF-16 code, as two codes if it needs them. A
string in which one half of such a pair stands alone is a lexeme, but has no text.
-/

namespace FilesetBatch

/-- The smallest pieces of a JSON text. -/
inductive Lexeme
  | openBrace
  | closeBrace
  | openBracket
  | closeBracket
  | colon
  | comma
  | null
  | bool (value : Bool)
  | number (value : Number)
  /-- A string, with its text if it has one. -/
  | string (text : Option String)
  /-- The text goes on, but not with a lexeme. -/
  | broken
deriving DecidableEq

namespace Lexeme

/-! ## Strings -/

/-- A part of a string: a character, or half of a pair of codes. -/
inductive Piece
  | char (value : Char)
  | half (code : Nat)
deriving DecidableEq

/-- The value of a hexadecimal digit. -/
def hexDigit? (c : Char) : Option Nat :=
  if c.isDigit then some (c.toNat - '0'.toNat)
  else if 'a' ≤ c ∧ c ≤ 'f' then some (c.toNat - 'a'.toNat + 10)
  else if 'A' ≤ c ∧ c ≤ 'F' then some (c.toNat - 'A'.toNat + 10)
  else none

/-- The number with these hexadecimal digits. -/
def hexValue? (digits : List Char) : Option Nat :=
  digits.foldlM (fun value c => (hexDigit? c).map (16 * value + ·)) 0

/-- The part of a string that a code stands for. -/
def Piece.ofCode (code : Nat) : Piece :=
  if 0xD800 ≤ code ∧ code < 0xE000 then .half code else .char (Char.ofNat code)

/-- The character that a letter stands for behind a backslash. -/
def unescape? : Char → Option Char
  | '"' => some '"'
  | '\\' => some '\\'
  | '/' => some '/'
  | 'b' => some '\x08'
  | 'f' => some '\x0c'
  | 'n' => some '\n'
  | 'r' => some '\r'
  | 't' => some '\t'
  | _ => none

/-- The parts of a string up to its closing quote, and what follows that. -/
def scanString : List Char → Option (List Piece × List Char)
  | [] => none
  | '"' :: rest => some ([], rest)
  | '\\' :: 'u' :: a :: b :: c :: d :: rest =>
    match hexValue? [a, b, c, d], scanString rest with
    | some code, some (pieces, rest) => some (.ofCode code :: pieces, rest)
    | _, _ => none
  | '\\' :: letter :: rest =>
    match unescape? letter, scanString rest with
    | some c, some (pieces, rest) => some (.char c :: pieces, rest)
    | _, _ => none
  | c :: rest =>
    if c < ' ' ∨ c = '\\' then none
    else
      match scanString rest with
      | some (pieces, rest) => some (.char c :: pieces, rest)
      | none => none

/-- The character that two codes stand for together, the upper half first. -/
def pairedChar? (upper lower : Nat) : Option Char :=
  if upper < 0xDC00 ∧ 0xDC00 ≤ lower then
    some (Char.ofNat (0x10000 + (upper - 0xD800) * 0x400 + (lower - 0xDC00)))
  else
    none

/-- The text of a string, unless half of a pair stands alone in it. -/
def joinPieces : List Piece → Option (List Char)
  | [] => some []
  | .char c :: rest => (joinPieces rest).map (c :: ·)
  | .half upper :: .half lower :: rest =>
    match pairedChar? upper lower, joinPieces rest with
    | some c, some text => some (c :: text)
    | _, _ => none
  | .half _ :: _ => none

/-! ## Numbers -/

/-- The digits at the front of a text, if there are any, and what follows them. -/
def scanDigits (text : List Char) : Option (List Char × List Char) :=
  if (text.takeWhile Char.isDigit).isEmpty then none
  else some (text.takeWhile Char.isDigit, text.dropWhile Char.isDigit)

/-- The digits before the point: a zero only if it is the only one. -/
def scanWhole (text : List Char) : Option (List Char × List Char) :=
  match scanDigits text with
  | some (digits, rest) =>
    if digits.head? = some '0' ∧ digits ≠ ['0'] then none else some (digits, rest)
  | none => none

/-- The digits behind the point, none if there is no point. -/
def scanFraction : List Char → Option (Option (List Char) × List Char)
  | '.' :: rest => (scanDigits rest).map fun (digits, rest) => (some digits, rest)
  | text => some (none, text)

/-- The exponent, none if there is none. -/
def scanExponent : List Char → Option (Option Int × List Char)
  | [] => some (none, [])
  | c :: rest =>
    if c = 'e' ∨ c = 'E' then
      match rest with
      | '-' :: rest => (scanDigits rest).map fun (digits, rest) => (some (-Digits.value digits), rest)
      | '+' :: rest => (scanDigits rest).map fun (digits, rest) => (some (Digits.value digits), rest)
      | rest => (scanDigits rest).map fun (digits, rest) => (some (Digits.value digits), rest)
    else
      some (none, c :: rest)

/-- The number that is written with these parts. -/
def numberOf (negative : Bool) (whole : List Char) :
    Option (List Char) → Option Int → Number
  | none, none =>
    let value := Digits.value whole
    if negative then
      if value = 0 then .decimal true 0 0 else .integer (-value)
    else
      .integer value
  | fraction, exponent =>
    let behind := fraction.getD []
    .decimal negative (Digits.value (whole ++ behind)) (exponent.getD 0 - behind.length)

/-- The sign at the front of a text, and what follows it. -/
def scanSign : List Char → Bool × List Char
  | '-' :: rest => (true, rest)
  | text => (false, text)

/-- The number at the front of a text, and what follows it. -/
def scanNumber (text : List Char) : Option (Number × List Char) := do
  let (negative, text) := scanSign text
  let (whole, text) ← scanWhole text
  let (fraction, text) ← scanFraction text
  let (exponent, text) ← scanExponent text
  return (numberOf negative whole fraction exponent, text)

/-! ## The cut -/

/-- Blanks separate lexemes. -/
def isBlank (c : Char) : Bool :=
  c = ' ' || c = '\n' || c = '\r' || c = '\t'

/-- What follows a word, if a text begins with it. -/
def afterWord : List Char → List Char → Option (List Char)
  | [], text => some text
  | _ :: _, [] => none
  | c :: word, d :: text => if c = d then afterWord word text else none

/-- The lexeme that begins with this character, and what follows it. -/
def scan (c : Char) (rest : List Char) : Option (Lexeme × List Char) :=
  match c with
  | '{' => some (openBrace, rest)
  | '}' => some (closeBrace, rest)
  | '[' => some (openBracket, rest)
  | ']' => some (closeBracket, rest)
  | ':' => some (colon, rest)
  | ',' => some (comma, rest)
  | 'n' => (afterWord ['u', 'l', 'l'] rest).map (null, ·)
  | 't' => (afterWord ['r', 'u', 'e'] rest).map (bool true, ·)
  | 'f' => (afterWord ['a', 'l', 's', 'e'] rest).map (bool false, ·)
  | '"' =>
    (scanString rest).map fun (pieces, rest) =>
      (string ((joinPieces pieces).map String.ofList), rest)
  | c => (scanNumber (c :: rest)).map fun (value, rest) => (number value, rest)

/-! ## The rest is shorter -/

theorem length_lt_of_scanString {text rest : List Char} {pieces : List Piece}
    (h : scanString text = some (pieces, rest)) : rest.length < text.length := by
  fun_induction scanString text generalizing pieces rest <;>
    (try simp only [List.length_cons]) <;> grind

theorem length_lt_of_scanDigits {text digits rest : List Char}
    (h : scanDigits text = some (digits, rest)) : rest.length < text.length := by
  unfold scanDigits at h
  split at h
  · simp at h
  · rename_i hne
    simp only [Option.some.injEq, Prod.mk.injEq] at h
    obtain ⟨-, rfl⟩ := h
    have hlen := congrArg List.length
      (List.takeWhile_append_dropWhile (p := Char.isDigit) (l := text))
    have : (text.takeWhile Char.isDigit).length ≠ 0 := by simpa using hne
    rw [List.length_append] at hlen
    omega

theorem length_lt_of_scanWhole {text digits rest : List Char}
    (h : scanWhole text = some (digits, rest)) : rest.length < text.length := by
  unfold scanWhole at h
  split at h
  · rename_i hd
    split at h
    · simp at h
    · simp only [Option.some.injEq, Prod.mk.injEq] at h
      obtain ⟨rfl, rfl⟩ := h
      exact length_lt_of_scanDigits hd
  · simp at h

theorem length_le_of_scanFraction {text rest : List Char} {fraction : Option (List Char)}
    (h : scanFraction text = some (fraction, rest)) : rest.length ≤ text.length := by
  unfold scanFraction at h
  split at h
  · obtain ⟨⟨digits, behind⟩, hd, heq⟩ := Option.map_eq_some_iff.mp h
    have := length_lt_of_scanDigits hd
    simp only [Prod.mk.injEq] at heq
    rw [← heq.2, List.length_cons]
    omega
  · simp only [Option.some.injEq, Prod.mk.injEq] at h
    exact h.2 ▸ Nat.le_refl _

theorem length_le_of_scanExponent {text rest : List Char} {exponent : Option Int}
    (h : scanExponent text = some (exponent, rest)) : rest.length ≤ text.length := by
  unfold scanExponent at h
  split at h
  · simp_all
  · split at h
    · split at h <;>
      · obtain ⟨⟨digits, behind⟩, hd, heq⟩ := Option.map_eq_some_iff.mp h
        have := length_lt_of_scanDigits hd
        simp only [Prod.mk.injEq] at heq
        rw [← heq.2]
        simp only [List.length_cons] at *
        omega
    · simp only [Option.some.injEq, Prod.mk.injEq] at h
      exact h.2 ▸ Nat.le_refl _

theorem length_scanSign_le (text : List Char) : (scanSign text).2.length ≤ text.length := by
  unfold scanSign
  split <;> simp

theorem length_lt_of_scanNumber {text rest : List Char} {value : Number}
    (h : scanNumber text = some (value, rest)) : rest.length < text.length := by
  simp only [scanNumber, Option.bind_eq_bind, Option.bind_eq_some_iff, Prod.exists] at h
  obtain ⟨whole, afterWhole, hw, fraction, afterFraction, hf, exponent, afterExponent, he, heq⟩ := h
  simp only [Option.pure_def, Option.some.injEq, Prod.mk.injEq] at heq
  have := length_scanSign_le text
  have := length_lt_of_scanWhole hw
  have := length_le_of_scanFraction hf
  have := length_le_of_scanExponent he
  rw [← heq.2]
  omega

theorem length_le_of_afterWord {word text rest : List Char}
    (h : afterWord word text = some rest) : rest.length ≤ text.length := by
  fun_induction afterWord word text <;> grind

theorem length_le_of_scan {c : Char} {text rest : List Char} {lexeme : Lexeme}
    (h : scan c text = some (lexeme, rest)) : rest.length ≤ text.length := by
  unfold scan at h
  split at h
  case h_7 | h_8 | h_9 =>
    obtain ⟨behind, hw, heq⟩ := Option.map_eq_some_iff.mp h
    simp only [Prod.mk.injEq] at heq
    exact heq.2 ▸ length_le_of_afterWord hw
  case h_10 =>
    obtain ⟨⟨pieces, behind⟩, hs, heq⟩ := Option.map_eq_some_iff.mp h
    simp only [Prod.mk.injEq] at heq
    exact heq.2 ▸ Nat.le_of_lt (length_lt_of_scanString hs)
  case h_11 =>
    obtain ⟨⟨value, behind⟩, hn, heq⟩ := Option.map_eq_some_iff.mp h
    simp only [Prod.mk.injEq] at heq
    have := length_lt_of_scanNumber hn
    rw [← heq.2]
    simp only [List.length_cons] at this
    omega
  all_goals
    simp only [Option.some.injEq, Prod.mk.injEq] at h
    exact h.2 ▸ Nat.le_refl _

end Lexeme

/-- The lexemes of a text, up to the first place where there is none. -/
def lexemes (text : List Char) : List Lexeme :=
  match text with
  | [] => []
  | c :: rest =>
    if Lexeme.isBlank c then
      lexemes rest
    else
      match _found : Lexeme.scan c rest with
      | some (lexeme, rest) => lexeme :: lexemes rest
      | none => [.broken]
termination_by text.length
decreasing_by
  · simp
  · have := Lexeme.length_le_of_scan _found
    simp only [List.length_cons]
    omega

@[simp] theorem lexemes_nil : lexemes [] = [] := by
  rw [lexemes]

/-- Blanks are left out. -/
theorem lexemes_of_isBlank {c : Char} {rest : List Char} (h : Lexeme.isBlank c = true) :
    lexemes (c :: rest) = lexemes rest := by
  rw [lexemes, if_pos h]

/-- A lexeme at the front is the first one. -/
theorem lexemes_of_scan {c : Char} {rest behind : List Char} {lexeme : Lexeme}
    (hb : Lexeme.isBlank c = false) (hs : Lexeme.scan c rest = some (lexeme, behind)) :
    lexemes (c :: rest) = lexeme :: lexemes behind := by
  rw [lexemes, if_neg (by simp [hb])]
  split <;> simp_all

end FilesetBatch
