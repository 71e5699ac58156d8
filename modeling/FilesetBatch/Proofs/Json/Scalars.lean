import Mathlib.Tactic.SplitIfs
import FilesetBatch.Json.Lexeme
import FilesetBatch.Json.Writer

/-!
# Written strings and numbers are lexemes again

What the writer escapes, the reader unescapes : a written string is one lexeme with the text
that was written, whatever characters are in it (`lexemes_quoted`). A written integer is one
lexeme too, provided that nothing follows it that could belong to a number
(`lexemes_intText`); its digits do not begin with a zero unless there is only that one.
-/

namespace FilesetBatch

open Lexeme Json

variable {c letter : Char} {text digits behind rest : List Char} {pieces : List Piece} {n : Nat}
  {value : Int}

/-! ## Strings -/

/-- A character is escaped by a letter, by its code if it is a control character, or not at
all. -/
theorem escape_cases (c : Char) :
    (∃ letter, letter ≠ 'u' ∧ unescape? letter = some c ∧ escape c = ['\\', letter]) ∨
    (c.toNat < 32 ∧
      escape c = ['\\', 'u', '0', '0', hexDigit (c.toNat / 16), hexDigit (c.toNat % 16)]) ∨
    (c ≠ '"' ∧ c ≠ '\\' ∧ ¬ c < ' ' ∧ escape c = [c]) := by
  unfold escape
  split_ifs with hquote hbackslash hb ht hn hf hr hcontrol
  · exact .inl ⟨'"', by decide, by rw [hquote]; rfl, rfl⟩
  · exact .inl ⟨'\\', by decide, by rw [hbackslash]; rfl, rfl⟩
  · exact .inl ⟨'b', by decide, by rw [hb]; rfl, rfl⟩
  · exact .inl ⟨'t', by decide, by rw [ht]; rfl, rfl⟩
  · exact .inl ⟨'n', by decide, by rw [hn]; rfl, rfl⟩
  · exact .inl ⟨'f', by decide, by rw [hf]; rfl, rfl⟩
  · exact .inl ⟨'r', by decide, by rw [hr]; rfl, rfl⟩
  · exact .inr (.inl ⟨hcontrol, rfl⟩)
  · exact .inr (.inr ⟨hquote, hbackslash, hcontrol, rfl⟩)

theorem scanString_letter (hletter : letter ≠ 'u') (hc : unescape? letter = some c)
    (h : scanString behind = some (pieces, rest)) :
    scanString ('\\' :: letter :: behind) = some (.char c :: pieces, rest) := by
  rw [scanString.eq_4 _ _ (fun _ _ _ _ _ hu _ => hletter hu), hc, h]

theorem hexValue?_hexDigit : ∀ n < 32,
    hexValue? ['0', '0', hexDigit (n / 16), hexDigit (n % 16)] = some n := by
  decide

theorem scanString_code (hc : c.toNat < 32) (h : scanString behind = some (pieces, rest)) :
    scanString ('\\' :: 'u' :: '0' :: '0' :: hexDigit (c.toNat / 16) :: hexDigit (c.toNat % 16) ::
      behind) = some (.char c :: pieces, rest) := by
  have hcode : Piece.ofCode c.toNat = .char c := by
    rw [Piece.ofCode, if_neg (by omega), Char.ofNat_toNat]
  rw [scanString, hexValue?_hexDigit _ hc, h]
  simp [hcode]

/-- A written character is read as that character. -/
theorem scanString_escape (c : Char) (h : scanString behind = some (pieces, rest)) :
    scanString (escape c ++ behind) = some (.char c :: pieces, rest) := by
  obtain ⟨letter, hletter, hc, heq⟩ | ⟨hc, heq⟩ | ⟨hquote, hbackslash, hcontrol, heq⟩ :=
    escape_cases c
  · rw [heq]
    exact scanString_letter hletter hc h
  · rw [heq]
    exact scanString_code hc h
  · rw [heq]
    simp [scanString, hbackslash, hcontrol, h]

theorem scanString_quoted (text rest : List Char) :
    scanString (text.flatMap escape ++ '"' :: rest) = some (text.map .char, rest) := by
  induction text with
  | nil => rw [List.flatMap_nil, List.nil_append, scanString]; rfl
  | cons c text ih =>
    rw [List.flatMap_cons, List.append_assoc]
    exact scanString_escape c ih

theorem joinPieces_chars (text : List Char) : joinPieces (text.map .char) = some text := by
  induction text with
  | nil => rfl
  | cons c text ih => rw [List.map_cons, joinPieces, ih]; rfl

/-- A written string is one lexeme, with the text that was written. -/
theorem lexemes_quoted (text : String) (rest : List Char) :
    lexemes (quoted text ++ rest) = .string (some text) :: lexemes rest := by
  have hscan : scan '"' (text.toList.flatMap escape ++ '"' :: rest) =
      some (.string (some text), rest) := by
    simp [scan, scanString_quoted, joinPieces_chars]
  have hquoted : quoted text ++ rest = '"' :: (text.toList.flatMap escape ++ '"' :: rest) := by
    simp [quoted]
  rw [hquoted, lexemes_of_scan (by decide) hscan]

/-! ## Numbers -/

/-- The number before these characters ends where they begin. -/
def EndsNumber (text : List Char) : Prop :=
  ∀ c ∈ text.head?, c.isDigit = false ∧ c ≠ '.' ∧ c ≠ 'e' ∧ c ≠ 'E'

theorem head?_toDigits_ne_zero (hn : n ≠ 0) : (Nat.toDigits 10 n).head? ≠ some '0' := by
  induction n using Nat.strongRecOn with
  | _ n ih =>
    rw [Nat.toDigits_eq_if (by decide)]
    split
    · rename_i hlt
      have hdigit : ∀ m < 10, m ≠ 0 → Nat.digitChar m ≠ '0' := by decide
      simpa using hdigit n hlt hn
    · have hrest := ih (n / 10) (by omega) (by omega)
      cases hdigits : Nat.toDigits 10 (n / 10) with
      | nil => exact absurd hdigits Nat.toDigits_ne_nil
      | cons c digits => simpa [hdigits] using hrest

theorem isDigit_of_mem_digits (h : c ∈ Nat.toDigits 10 n) : c.isDigit = true :=
  Nat.isDigit_of_mem_toDigits (by decide) (by decide) h

theorem value_toDigits (n : Nat) : Digits.value (Nat.toDigits 10 n) = n :=
  Nat.ofDigitChars_toDigits (by decide) (by decide)

theorem scanWhole_toDigits (n : Nat) (h : EndsNumber rest) :
    scanWhole (Nat.toDigits 10 n ++ rest) = some (Nat.toDigits 10 n, rest) := by
  have hdigits : ∀ c ∈ Nat.toDigits 10 n, c.isDigit = true := fun c => isDigit_of_mem_digits
  have hnone : rest.takeWhile Char.isDigit = [] := by
    cases rest with
    | nil => rfl
    | cons c rest => rw [List.takeWhile_cons, (h c rfl).1]; rfl
  have hall : rest.dropWhile Char.isDigit = rest := by
    cases rest with
    | nil => rfl
    | cons c rest => rw [List.dropWhile_cons, (h c rfl).1]; rfl
  have hscan : scanDigits (Nat.toDigits 10 n ++ rest) = some (Nat.toDigits 10 n, rest) := by
    rw [scanDigits, List.takeWhile_append_of_pos hdigits, List.dropWhile_append_of_pos hdigits,
      hnone, hall, List.append_nil]
    simp [Nat.toDigits_ne_nil]
  have hfront : ¬ ((Nat.toDigits 10 n).head? = some '0' ∧ Nat.toDigits 10 n ≠ ['0']) := by
    rintro ⟨hzero, hone⟩
    by_cases hn : n = 0
    · exact hone (by rw [hn]; rfl)
    · exact head?_toDigits_ne_zero hn hzero
  rw [scanWhole, hscan]
  simp only [hfront, if_false]

theorem scanFraction_of_ends (h : EndsNumber rest) : scanFraction rest = some (none, rest) := by
  unfold scanFraction
  split
  · exact absurd rfl (h '.' rfl).2.1
  · rfl

theorem scanExponent_of_ends (h : EndsNumber rest) : scanExponent rest = some (none, rest) := by
  unfold scanExponent
  cases rest with
  | nil => rfl
  | cons c rest => simp [(h c rfl).2.2]

theorem scanSign_toDigits (n : Nat) (rest : List Char) :
    scanSign (Nat.toDigits 10 n ++ rest) = (false, Nat.toDigits 10 n ++ rest) := by
  cases hdigits : Nat.toDigits 10 n with
  | nil => exact absurd hdigits Nat.toDigits_ne_nil
  | cons c digits =>
    have hc : c.isDigit = true := isDigit_of_mem_digits (hdigits ▸ List.mem_cons_self)
    have hminus : c ≠ '-' := by
      rintro rfl
      cases hc
    simp [scanSign, hminus]

/-- A written integer is scanned as that integer. -/
theorem scanNumber_intText (value : Int) (h : EndsNumber rest) :
    scanNumber (intText value ++ rest) = some (.integer value, rest) := by
  unfold intText
  split
  · obtain ⟨size, hsize, rfl⟩ : ∃ size : Nat, size ≠ 0 ∧ value = -(size : Int) :=
      ⟨value.natAbs, by omega, by omega⟩
    rw [Int.natAbs_neg, Int.natAbs_natCast]
    simp [scanNumber, scanSign, scanWhole_toDigits _ h, scanFraction_of_ends h,
      scanExponent_of_ends h, numberOf, value_toDigits, hsize]
  · obtain ⟨size, rfl⟩ : ∃ size : Nat, value = size := ⟨value.natAbs, by omega⟩
    rw [Int.natAbs_natCast]
    simp [scanNumber, scanSign_toDigits, scanWhole_toDigits _ h, scanFraction_of_ends h,
      scanExponent_of_ends h, numberOf, value_toDigits]

/-- What begins with a minus or a digit is read as a number. -/
theorem scan_of_number (h : c = '-' ∨ c.isDigit = true) (rest : List Char) :
    isBlank c = false ∧ scan c rest =
      (scanNumber (c :: rest)).map fun (value, rest) => (.number value, rest) := by
  rcases h with rfl | h
  · exact ⟨by decide, rfl⟩
  · have hne : ∀ d : Char, d.isDigit = false → c ≠ d := by
      rintro d hd rfl
      exact absurd (h.symm.trans hd) (by decide)
    refine ⟨by simp [isBlank, hne], ?_⟩
    unfold scan
    split
    case h_11 => rfl
    all_goals exact absurd h (by decide)

theorem exists_intText (value : Int) :
    ∃ c digits, intText value = c :: digits ∧ (c = '-' ∨ c.isDigit = true) := by
  unfold intText
  split
  · exact ⟨'-', _, rfl, .inl rfl⟩
  · cases hdigits : Nat.toDigits 10 value.natAbs with
    | nil => exact absurd hdigits Nat.toDigits_ne_nil
    | cons c digits =>
      exact ⟨c, digits, rfl, .inr (isDigit_of_mem_digits (hdigits ▸ List.mem_cons_self))⟩

/-- A written integer is one lexeme, if what follows it ends a number. -/
theorem lexemes_intText (value : Int) (h : EndsNumber rest) :
    lexemes (intText value ++ rest) = .number (.integer value) :: lexemes rest := by
  have hscan := scanNumber_intText value h
  obtain ⟨c, digits, heq, hc⟩ := exists_intText value
  obtain ⟨hblank, hnumber⟩ := scan_of_number hc (digits ++ rest)
  rw [heq, List.cons_append] at hscan ⊢
  refine lexemes_of_scan hblank ?_
  rw [hnumber, hscan]
  rfl

end FilesetBatch
