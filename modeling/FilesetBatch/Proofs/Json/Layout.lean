import FilesetBatch.Proofs.Json.Scalars

/-!
# Written values are cut into their lexemes

The compact and the pretty form are one layout with different blanks in it (`Json.layout`).
Since blanks are left out, a text in any such layout is cut into the same lexemes, those of
the value (`Json.toLexemes`), as long as its numbers are integers of 64 bits and it is not
nested too deeply (`Json.Plain`).
-/

namespace FilesetBatch

namespace Json

/-! ## Both forms are layouts -/

mutual

/-- A value with these blanks between its lexemes : at the front of the lines of each level,
and behind the names of members. -/
def layout (line : Nat → List Char) (gap : List Char) (level : Nat) : Json → List Char
  | null => ['n', 'u', 'l', 'l']
  | bool true => ['t', 'r', 'u', 'e']
  | bool false => ['f', 'a', 'l', 's', 'e']
  | number value => numberText value
  | string text => quoted text
  | array [] => ['[', ']']
  | array (item :: items) =>
    '[' :: line (level + 1) ++ layout line gap (level + 1) item ++
      layoutItems line gap (level + 1) items ++ line level ++ [']']
  | object [] => ['{', '}']
  | object ((name, value) :: members) =>
    '{' :: line (level + 1) ++ quoted name ++ ':' :: gap ++ layout line gap (level + 1) value ++
      layoutMembers line gap (level + 1) members ++ line level ++ ['}']

/-- The items behind the first one. -/
def layoutItems (line : Nat → List Char) (gap : List Char) (level : Nat) :
    List Json → List Char
  | [] => []
  | item :: items =>
    ',' :: line level ++ layout line gap level item ++ layoutItems line gap level items

/-- The members behind the first one. -/
def layoutMembers (line : Nat → List Char) (gap : List Char) (level : Nat) :
    List (String × Json) → List Char
  | [] => []
  | (name, value) :: members =>
    ',' :: line level ++ quoted name ++ ':' :: gap ++ layout line gap level value ++
      layoutMembers line gap level members

end

mutual

theorem compact_eq_layout (level : Nat) : ∀ value : Json,
    value.compact = value.layout (fun _ => []) [] level
  | null => rfl
  | bool true => rfl
  | bool false => rfl
  | number _ => rfl
  | string _ => rfl
  | array [] => rfl
  | array (item :: items) => by
    simp [compact, layout, compact_eq_layout (level + 1) item,
      compactItems_eq_layout (level + 1) items]
  | object [] => rfl
  | object ((name, value) :: members) => by
    simp [compact, layout, compact_eq_layout (level + 1) value,
      compactMembers_eq_layout (level + 1) members]

theorem compactItems_eq_layout (level : Nat) : ∀ items : List Json,
    compactItems items = layoutItems (fun _ => []) [] level items
  | [] => rfl
  | item :: items => by
    simp [compactItems, layoutItems, compact_eq_layout level item,
      compactItems_eq_layout level items]

theorem compactMembers_eq_layout (level : Nat) : ∀ members : List (String × Json),
    compactMembers members = layoutMembers (fun _ => []) [] level members
  | [] => rfl
  | (name, value) :: members => by
    simp [compactMembers, layoutMembers, compact_eq_layout level value,
      compactMembers_eq_layout level members]

end

mutual

theorem pretty_eq_layout : ∀ (level : Nat) (value : Json),
    value.pretty level = value.layout newLine [' '] level
  | _, null => rfl
  | _, bool true => rfl
  | _, bool false => rfl
  | _, number _ => rfl
  | _, string _ => rfl
  | _, array [] => rfl
  | level, array (item :: items) => by
    simp [pretty, layout, pretty_eq_layout (level + 1) item,
      prettyItems_eq_layout (level + 1) items]
  | _, object [] => rfl
  | level, object ((name, value) :: members) => by
    simp [pretty, layout, pretty_eq_layout (level + 1) value,
      prettyMembers_eq_layout (level + 1) members]

theorem prettyItems_eq_layout : ∀ (level : Nat) (items : List Json),
    prettyItems level items = layoutItems newLine [' '] level items
  | _, [] => rfl
  | level, item :: items => by
    simp [prettyItems, layoutItems, pretty_eq_layout level item,
      prettyItems_eq_layout level items]

theorem prettyMembers_eq_layout : ∀ (level : Nat) (members : List (String × Json)),
    prettyMembers level members = layoutMembers newLine [' '] level members
  | _, [] => rfl
  | level, (name, value) :: members => by
    simp [prettyMembers, layoutMembers, pretty_eq_layout level value,
      prettyMembers_eq_layout level members]

end

/-! ## The lexemes of a value -/

mutual

/-- The lexemes that a value is written with. -/
def toLexemes : Json → List Lexeme
  | null => [.null]
  | bool value => [.bool value]
  | number value => [.number value]
  | string text => [.string (some text)]
  | array [] => [.openBracket, .closeBracket]
  | array (item :: items) =>
    .openBracket :: toLexemes item ++ itemLexemes items ++ [.closeBracket]
  | object [] => [.openBrace, .closeBrace]
  | object ((name, value) :: members) =>
    .openBrace :: .string (some name) :: .colon :: toLexemes value ++ memberLexemes members ++
      [.closeBrace]

/-- The lexemes of the items behind the first one. -/
def itemLexemes : List Json → List Lexeme
  | [] => []
  | item :: items => .comma :: toLexemes item ++ itemLexemes items

/-- The lexemes of the members behind the first one. -/
def memberLexemes : List (String × Json) → List Lexeme
  | [] => []
  | (name, value) :: members =>
    .comma :: .string (some name) :: .colon :: toLexemes value ++ memberLexemes members

end

/-- All numbers are integers of 64 bits, and at most so many arrays and objects are inside each
other. -/
inductive Plain : Nat → Json → Prop
  | null {depth : Nat} : Plain depth .null
  | bool {depth : Nat} {value : Bool} : Plain depth (.bool value)
  | integer {depth : Nat} {value : Int} (fits : Word.Fits value) : Plain depth (.integer value)
  | string {depth : Nat} {text : String} : Plain depth (.string text)
  | array {depth : Nat} {items : List Json} (items_plain : ∀ item ∈ items, Plain depth item) :
      Plain (depth + 1) (.array items)
  | object {depth : Nat} {members : List (String × Json)}
      (values_plain : ∀ member ∈ members, Plain depth member.2) :
      Plain (depth + 1) (.object members)

end Json

/-! ## Cutting a layout -/

open Lexeme Json

variable {line : Nat → List Char} {gap blanks rest : List Char} {level depth : Nat}
  {value : Json} {items : List Json} {members : List (String × Json)}

theorem lexemes_of_blanks (h : ∀ c ∈ blanks, isBlank c = true) (rest : List Char) :
    lexemes (blanks ++ rest) = lexemes rest := by
  induction blanks with
  | nil => rfl
  | cons c blanks ih =>
    obtain ⟨hc, hblanks⟩ := List.forall_mem_cons.mp h
    rw [List.cons_append, lexemes_of_isBlank hc, ih hblanks]

theorem EndsNumber.nil : EndsNumber [] := by
  simp [EndsNumber]

theorem EndsNumber.cons {c : Char} (h : c.isDigit = false ∧ c ≠ '.' ∧ c ≠ 'e' ∧ c ≠ 'E')
    (rest : List Char) : EndsNumber (c :: rest) := by
  intro d hd
  obtain rfl : c = d := by simpa using hd
  exact h

/-- No blank belongs to a number. -/
theorem EndsNumber.blanks_append (h : ∀ c ∈ blanks, isBlank c = true) (hrest : EndsNumber rest) :
    EndsNumber (blanks ++ rest) := by
  cases blanks with
  | nil => exact hrest
  | cons c blanks =>
    refine .cons ?_ _
    have hc := h c List.mem_cons_self
    simp only [isBlank, Bool.or_eq_true, decide_eq_true_eq] at hc
    obtain ((rfl | rfl) | rfl) | rfl := hc <;> decide

theorem EndsNumber.layoutItems_append (hrest : EndsNumber rest) :
    EndsNumber (layoutItems line gap level items ++ rest) := by
  cases items with
  | nil => exact hrest
  | cons item items => exact .cons (by decide) _

theorem EndsNumber.layoutMembers_append (hrest : EndsNumber rest) :
    EndsNumber (layoutMembers line gap level members ++ rest) := by
  cases members with
  | nil => exact hrest
  | cons member members => exact .cons (by decide) _

section

variable (rest : List Char)

theorem lexemes_openBrace : lexemes ('{' :: rest) = .openBrace :: lexemes rest :=
  lexemes_of_scan (by decide) rfl

theorem lexemes_closeBrace : lexemes ('}' :: rest) = .closeBrace :: lexemes rest :=
  lexemes_of_scan (by decide) rfl

theorem lexemes_openBracket : lexemes ('[' :: rest) = .openBracket :: lexemes rest :=
  lexemes_of_scan (by decide) rfl

theorem lexemes_closeBracket : lexemes (']' :: rest) = .closeBracket :: lexemes rest :=
  lexemes_of_scan (by decide) rfl

theorem lexemes_colon : lexemes (':' :: rest) = .colon :: lexemes rest :=
  lexemes_of_scan (by decide) rfl

theorem lexemes_comma : lexemes (',' :: rest) = .comma :: lexemes rest :=
  lexemes_of_scan (by decide) rfl

end

section

variable (hline : ∀ level, ∀ c ∈ line level, isBlank c = true)
  (hgap : ∀ c ∈ gap, isBlank c = true)

include hline

theorem lexemes_layoutItems (hitems : ∀ item ∈ items, ∀ rest, EndsNumber rest →
      lexemes (item.layout line gap level ++ rest) = item.toLexemes ++ lexemes rest)
    (hrest : EndsNumber rest) : lexemes (layoutItems line gap level items ++ rest) =
      itemLexemes items ++ lexemes rest := by
  induction items with
  | nil => rfl
  | cons item items ih =>
    obtain ⟨hitem, hitems⟩ := List.forall_mem_cons.mp hitems
    simp only [layoutItems, itemLexemes, List.cons_append, List.append_assoc]
    rw [lexemes_comma, lexemes_of_blanks (hline level),
      hitem _ hrest.layoutItems_append, ih hitems]

include hgap

theorem lexemes_layoutMembers (hvalues : ∀ member ∈ members, ∀ rest, EndsNumber rest →
      lexemes (member.2.layout line gap level ++ rest) = member.2.toLexemes ++ lexemes rest)
    (hrest : EndsNumber rest) : lexemes (layoutMembers line gap level members ++ rest) =
      memberLexemes members ++ lexemes rest := by
  induction members with
  | nil => rfl
  | cons member members ih =>
    obtain ⟨hvalue, hvalues⟩ := List.forall_mem_cons.mp hvalues
    simp only [layoutMembers, memberLexemes, List.cons_append, List.append_assoc]
    rw [lexemes_comma, lexemes_of_blanks (hline level), lexemes_quoted, lexemes_colon,
      lexemes_of_blanks hgap, hvalue _ hrest.layoutMembers_append, ih hvalues]

/-- A layout is cut into the lexemes of its value. -/
theorem lexemes_layout (h : Plain depth value) (level : Nat) (hrest : EndsNumber rest) :
    lexemes (value.layout line gap level ++ rest) = value.toLexemes ++ lexemes rest := by
  induction h generalizing level rest with
  | null => exact lexemes_of_scan (by decide) rfl
  | @bool depth value =>
    cases value with
    | true => exact lexemes_of_scan (by decide) rfl
    | false => exact lexemes_of_scan (by decide) rfl
  | @integer depth value fits =>
    simp only [Json.integer, layout, toLexemes, numberText_integer fits]
    exact lexemes_intText value hrest
  | @string depth text => exact lexemes_quoted text rest
  | @array depth items items_plain ih =>
    cases items with
    | nil =>
      simp only [layout, toLexemes, List.cons_append, List.nil_append]
      rw [lexemes_openBracket, lexemes_closeBracket]
    | cons item items =>
      obtain ⟨hitem, hitems⟩ := List.forall_mem_cons.mp ih
      have hend : EndsNumber (line level ++ ']' :: rest) :=
        .blanks_append (hline level) (.cons (by decide) rest)
      simp only [layout, toLexemes, List.cons_append, List.append_assoc, List.nil_append]
      rw [lexemes_openBracket, lexemes_of_blanks (hline _),
        hitem _ hend.layoutItems_append,
        lexemes_layoutItems hline (fun item hmem rest => hitems item hmem _) hend,
        lexemes_of_blanks (hline level), lexemes_closeBracket]
  | @object depth members values_plain ih =>
    cases members with
    | nil =>
      simp only [layout, toLexemes, List.cons_append, List.nil_append]
      rw [lexemes_openBrace, lexemes_closeBrace]
    | cons member members =>
      obtain ⟨hvalue, hvalues⟩ := List.forall_mem_cons.mp ih
      have hend : EndsNumber (line level ++ '}' :: rest) :=
        .blanks_append (hline level) (.cons (by decide) rest)
      simp only [layout, toLexemes, List.cons_append, List.append_assoc, List.nil_append]
      rw [lexemes_openBrace, lexemes_of_blanks (hline _), lexemes_quoted, lexemes_colon,
        lexemes_of_blanks hgap, hvalue _ hend.layoutMembers_append,
        lexemes_layoutMembers hline hgap (fun member hmem rest => hvalues member hmem _) hend,
        lexemes_of_blanks (hline level), lexemes_closeBrace]

end

/-! ## The two forms -/

theorem isBlank_of_mem_newLine {c : Char} (h : c ∈ newLine level) : isBlank c = true := by
  rcases List.mem_cons.mp h with rfl | h
  · rfl
  · rw [List.eq_of_mem_replicate h]
    rfl

theorem lexemes_compact (h : Plain depth value) (hrest : EndsNumber rest) :
    lexemes (value.compact ++ rest) = value.toLexemes ++ lexemes rest := by
  rw [compact_eq_layout 0]
  exact lexemes_layout (by simp) (by simp) h 0 hrest

theorem lexemes_pretty (h : Plain depth value) (hrest : EndsNumber rest) :
    lexemes (value.pretty level ++ rest) = value.toLexemes ++ lexemes rest := by
  rw [pretty_eq_layout]
  exact lexemes_layout (fun _ _ => isBlank_of_mem_newLine) (by simp [isBlank]) h level hrest

end FilesetBatch
