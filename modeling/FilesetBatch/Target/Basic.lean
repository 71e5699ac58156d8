import FilesetBatch.Target.Kind

/-!
# Targets

A target is one entity: a kind and a number. Targets are ordered by kind first and by
number among those of one kind; every set of targets is listed in that order
(`FilesetBatch.TargetSet`). The order is total: `Target.lt_irrefl`, `Target.lt_trans`
and `Target.lt_trichotomy`.
-/

namespace FilesetBatch

/-- One entity, by kind and number. -/
structure Target where
  kind : Kind
  id : Int
deriving DecidableEq, Repr

namespace Target

/-- The image with this number. -/
def image (id : Int) : Target := ⟨.image, id⟩

/-- The fileset with this number. -/
def fileset (id : Int) : Target := ⟨.fileset, id⟩

theorem eq_mk_iff {target : Target} {kind : Kind} {id : Int} :
    target = ⟨kind, id⟩ ↔ target.kind = kind ∧ target.id = id := by
  cases target
  simp

/-! ## Order -/

/-- Smaller kinds come first, and among targets of one kind smaller numbers. -/
def Before (a b : Target) : Prop :=
  a.kind.rank < b.kind.rank ∨ a.kind = b.kind ∧ a.id < b.id

instance : LT Target := ⟨Before⟩

theorem lt_iff {a b : Target} :
    a < b ↔ a.kind.rank < b.kind.rank ∨ a.kind = b.kind ∧ a.id < b.id :=
  Iff.rfl

instance (a b : Target) : Decidable (a < b) :=
  decidable_of_iff _ lt_iff.symm

theorem lt_irrefl (a : Target) : ¬ a < a := by
  rw [lt_iff]
  omega

theorem lt_trans {a b c : Target} (hab : a < b) (hbc : b < c) : a < c := by
  rw [lt_iff] at *
  rcases hab with hab | ⟨hab, hab'⟩ <;> rcases hbc with hbc | ⟨hbc, hbc'⟩
  · exact .inl (by omega)
  · exact .inl (by rw [← hbc]; exact hab)
  · exact .inl (by rw [hab]; exact hbc)
  · exact .inr ⟨hab.trans hbc, by omega⟩

theorem lt_trichotomy (a b : Target) : a < b ∨ a = b ∨ b < a := by
  simp only [lt_iff]
  by_cases hk : a.kind = b.kind
  · by_cases hi : a.id = b.id
    · exact .inr (.inl (by cases a; cases b; simp_all))
    · rcases Int.lt_or_gt_of_ne hi with h | h
      · exact .inl (.inr ⟨hk, h⟩)
      · exact .inr (.inr (.inr ⟨hk.symm, h⟩))
  · have hr : a.kind.rank ≠ b.kind.rank := fun h => hk (Kind.rank_injective h)
    omega

instance : Std.Irrefl (α := Target) (· < ·) := ⟨lt_irrefl⟩

instance : Trans (α := Target) (· < ·) (· < ·) (· < ·) := ⟨lt_trans⟩

instance : Std.Trichotomous (α := Target) (· < ·) :=
  ⟨fun a b hab hba => ((lt_trichotomy a b).resolve_left hab).resolve_right hba⟩

/-! ## In messages -/

/-- A target in a message, as `Image:7`. -/
def display (target : Target) : String :=
  target.kind.name ++ ":" ++ toString target.id

/-- A target in a list inside a message, with its fields spelled out. -/
def spelledOut (target : Target) : String :=
  "Target \x7b kind: " ++ target.kind.name ++ ", id: " ++ toString target.id ++ " \x7d"

end Target

end FilesetBatch
