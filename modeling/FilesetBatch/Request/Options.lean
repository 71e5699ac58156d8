/-!
# Options of a request

Options map names to values. A name has one value, and the options are listed in the order
of their names (by code point), so the order in which they were set leaves no trace. Setting
a name again replaces its value (`Options.get?_set`).
-/

namespace FilesetBatch

/-- Named settings of a request, in the order of their names. -/
structure Options where
  toList : List (String × String)
  ascending : toList.Pairwise fun a b => a.1 < b.1
deriving DecidableEq

namespace Options

/-- No options. -/
def empty : Options := ⟨[], .nil⟩

instance : EmptyCollection Options := ⟨empty⟩

instance : Inhabited Options := ⟨empty⟩

/-- Whether there are no options. -/
def isEmpty (options : Options) : Bool := options.toList.isEmpty

/-- Put a setting at its place in an ascending list, over an earlier one of that name. -/
def setIn (name value : String) : List (String × String) → List (String × String)
  | [] => [(name, value)]
  | entry :: rest =>
    if name < entry.1 then (name, value) :: entry :: rest
    else if name = entry.1 then (name, value) :: rest
    else entry :: setIn name value rest

theorem fst_mem_setIn {name value n : String} {entries : List (String × String)}
    (h : n ∈ (setIn name value entries).map Prod.fst) :
    n = name ∨ n ∈ entries.map Prod.fst := by
  induction entries with
  | nil => simpa [setIn] using h
  | cons entry rest ih =>
    unfold setIn at h
    split at h
    · simpa using h
    · split at h
      · rename_i heq
        simp only [List.map_cons, List.mem_cons] at h ⊢
        rcases h with h | h
        · exact .inl h
        · exact .inr (.inr h)
      · simp only [List.map_cons, List.mem_cons] at h ⊢
        rcases h with h | h
        · exact .inr (.inl h)
        · rcases ih h with h | h
          · exact .inl h
          · exact .inr (.inr h)

theorem pairwise_setIn {name value : String} {entries : List (String × String)}
    (h : entries.Pairwise fun a b => a.1 < b.1) :
    (setIn name value entries).Pairwise fun a b => a.1 < b.1 := by
  induction entries with
  | nil => simp [setIn]
  | cons entry rest ih =>
    have he := List.pairwise_cons.mp h
    unfold setIn
    split
    · rename_i hlt
      refine List.pairwise_cons.mpr ⟨fun e hmem => ?_, h⟩
      rcases List.mem_cons.mp hmem with rfl | hmem
      · exact hlt
      · exact String.lt_trans hlt (he.1 e hmem)
    · split
      · rename_i heq
        exact List.pairwise_cons.mpr ⟨fun e hmem => heq ▸ he.1 e hmem, he.2⟩
      · rename_i hlt hne
        refine List.pairwise_cons.mpr ⟨fun e hmem => ?_, ih he.2⟩
        rcases fst_mem_setIn (List.mem_map_of_mem hmem) with h' | h'
        · rw [h']
          exact Std.lt_of_le_of_ne (String.not_lt.mp hlt) (Ne.symm hne)
        · obtain ⟨e', he', heq⟩ := List.mem_map.mp h'
          exact heq ▸ he.1 e' he'

/-- The options with this name set to this value. -/
def set (options : Options) (name value : String) : Options :=
  ⟨setIn name value options.toList, pairwise_setIn options.ascending⟩

/-- The options that these settings give, one after another: of a repeated name the last
value stays. -/
def ofList (entries : List (String × String)) : Options :=
  entries.foldl (fun options entry => options.set entry.1 entry.2) ∅

/-- The value of a name. -/
def get? (options : Options) (name : String) : Option String :=
  (options.toList.find? fun entry => entry.1 = name).map Prod.snd

/-- Setting a name changes the value of that name and of no other. -/
theorem get?_set (options : Options) (name value other : String) :
    (options.set name value).get? other =
      if name = other then some value else options.get? other := by
  obtain ⟨entries, _⟩ := options
  simp only [get?, set]
  induction entries with
  | nil => by_cases h : name = other <;> simp [setIn, h]
  | cons entry rest ih =>
    have ih := ih (List.Pairwise.of_cons (by assumption))
    unfold setIn
    split
    · by_cases h : name = other <;> simp [h]
    · split
      · rename_i heq
        subst heq
        by_cases h : entry.1 = other <;> simp [h]
      · rename_i hne
        by_cases h : entry.1 = other
        · have : name ≠ other := fun e => hne (e.trans h.symm)
          simp [h, this]
        · simpa [h] using ih

end Options

end FilesetBatch
