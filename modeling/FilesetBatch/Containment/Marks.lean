import FilesetBatch.Target.Basic

/-!
# Marks of look-ups

A look-up is known by the kind of what is looked for and the entity that it is looked for
around. `Marks` are look-ups that were made, each of them marked once.
-/

namespace FilesetBatch

/-- Look-ups that were made, the last one first. -/
structure Marks where
  toList : List (Kind × Target)
  nodup : toList.Nodup
deriving DecidableEq

namespace Marks

variable {marks marks' : Marks} {asked asked' : Kind × Target}

instance : Membership (Kind × Target) Marks := ⟨fun marks asked => asked ∈ marks.toList⟩

@[simp] theorem mem_toList : asked ∈ marks.toList ↔ asked ∈ marks := Iff.rfl

instance (asked : Kind × Target) (marks : Marks) : Decidable (asked ∈ marks) :=
  inferInstanceAs (Decidable (asked ∈ marks.toList))

/-- No look-up was made. -/
def empty : Marks := ⟨[], .nil⟩

instance : EmptyCollection Marks := ⟨empty⟩

@[simp] theorem toList_empty : (∅ : Marks).toList = [] := rfl

@[simp] theorem not_mem_empty (asked : Kind × Target) : asked ∉ (∅ : Marks) :=
  List.not_mem_nil

/-- Mark one more look-up, unless it is marked. -/
def insert (marks : Marks) (asked : Kind × Target) : Marks :=
  if h : asked ∈ marks then marks
  else ⟨asked :: marks.toList, List.nodup_cons.mpr ⟨h, marks.nodup⟩⟩

theorem toList_insert (h : asked ∉ marks) :
    (marks.insert asked).toList = asked :: marks.toList := by
  rw [insert, dif_neg h]

@[simp] theorem mem_insert : asked' ∈ marks.insert asked ↔ asked' = asked ∨ asked' ∈ marks := by
  by_cases h : asked ∈ marks
  · rw [insert, dif_pos h]
    exact ⟨.inr, fun hmem => hmem.elim (fun heq => heq ▸ h) id⟩
  · rw [← mem_toList, toList_insert h, List.mem_cons, mem_toList]

/-- Marks of the same look-ups list them in some order. -/
theorem perm_of_mem_iff (h : ∀ asked, asked ∈ marks ↔ asked ∈ marks') :
    marks.toList.Perm marks'.toList :=
  (List.perm_ext_iff_of_nodup marks.nodup marks'.nodup).mpr h

end Marks

end FilesetBatch
