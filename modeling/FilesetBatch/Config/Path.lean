import FilesetBatch.Config.Setting

/-!
# Paths to settings

A setting deep inside a configuration has a path, which is written as names with points
between them, and numbers in brackets behind those that are lists, as in `store.backend` or
`preprocess.operations[0]` (`Setting.Path.ofName`). Items are counted from the first, which has the
number 0, or with a minus backwards from the end.

A value is laid at the end of a path (`Setting.place`). Whatever a name leads into becomes a
table, and whatever a number leads into becomes a list that is long enough.
-/

namespace FilesetBatch

namespace Setting

/-- A step into a setting. -/
inductive Step
  /-- To the entry of a table with a name. -/
  | entry (name : String)
  /-- To the item of a list with a number. -/
  | item (number : Int)
deriving DecidableEq, Repr

/-- The steps from the whole configuration to a setting in it. -/
abbrev Path := List Step

namespace Path

/-! ## As text -/

/-- The characters of the names in a path. -/
def isNameChar (c : Char) : Bool :=
  c.isAlphanum || c = ' ' || c = '_' || c = '-'

/-- The blanks that may stand around a number in brackets. -/
def isBlank (c : Char) : Bool :=
  c = ' ' || c = '\t'

/-- The number that stands in brackets. -/
def number? (text : List Char) : Option Int :=
  let text := ((text.dropWhile isBlank).reverse.dropWhile isBlank).reverse
  if text.head? = some '+' then none else (Digits.readSigned? text).bind Word.signed?

/-- The step at the front of a text, to an entry behind a point or to an item in brackets, and
what follows it. -/
def step? : List Char → Option (Step × List Char)
  | '.' :: rest =>
    if (rest.takeWhile isNameChar).isEmpty then none
    else
      some (.entry (String.ofList (rest.takeWhile isNameChar)), rest.dropWhile isNameChar)
  | '[' :: rest =>
    match rest.dropWhile (· ≠ ']') with
    | [] => none
    | _ :: behind =>
      (number? (rest.takeWhile (· ≠ ']'))).map fun number => (.item number, behind)
  | _ => none

theorem length_dropWhile_le (p : Char → Bool) (text : List Char) :
    (text.dropWhile p).length ≤ text.length :=
  (List.dropWhile_suffix p).length_le

theorem length_lt_of_step? {text rest : List Char} {step : Step}
    (h : step? text = some (step, rest)) : rest.length < text.length := by
  unfold step? at h
  split at h
  · next behind =>
    split at h
    · simp at h
    · obtain ⟨-, rfl⟩ := Prod.mk.inj (Option.some.inj h)
      have := length_dropWhile_le isNameChar behind
      simp only [List.length_cons]
      omega
  · next inside =>
    split at h
    · simp at h
    · next heq =>
      obtain ⟨number, -, hn⟩ := Option.map_eq_some_iff.mp h
      obtain ⟨-, rfl⟩ := Prod.mk.inj hn
      have := length_dropWhile_le (· ≠ ']') inside
      simp only [heq, List.length_cons] at this ⊢
      omega
  · simp at h

/-- The steps that a text consists of. -/
def steps? (text : List Char) : Option Path :=
  if text.isEmpty then some []
  else
    match _h : step? text with
    | none => none
    | some (step, rest) => (steps? rest).map (step :: ·)
termination_by text.length
decreasing_by exact length_lt_of_step? _h

/-- The path that a name stands for, which is a single step where the name is not the text of
a path. The first step is to an entry and has no point before it. -/
def ofName (name : String) : Path :=
  let name := lowerName name
  (steps? ('.' :: name.toList)).getD [.entry name]

end Path

/-! ## Layers -/

/-- The items of a list; anything else has none. -/
def items : Setting → List Setting
  | list items => items
  | _ => []

/-- The most items that a list is made to hold. -/
def itemsLimit : Nat := 1048576

/-- The place of an item in a list of so many items. -/
def position? (count : Nat) (number : Int) : Option Nat :=
  let position := if number < 0 then count + number else number
  if 0 ≤ position ∧ position < itemsLimit then some position.toNat else none

/-- Lay a value over what is at the end of a path. There is no such place if the path counts
further back than a list goes, or further on than lists can go. -/
def place (value : Setting) : Path → Setting → Option Setting
  | [], _ => some value
  | [.entry name], root => some (put value name root)
  | .entry name :: path, root =>
    (place value path ((root.get? name).getD .null)).map fun part =>
      root.change name fun _ => part
  | .item number :: path, root =>
    (position? root.items.length number).bind fun position =>
      (place value path (root.items[position]?.getD .null)).map fun part =>
        let items := root.items ++ List.replicate (position + 1 - root.items.length) null
        .list (items.set position part)

end Setting

end FilesetBatch
