/-!
# Numbers of 64 bits

Identifiers are integers of 64 bits with a sign, sizes are numbers of 64 bits without one.
Both are plain integers here; what is read from a text has to be in range.
-/

namespace FilesetBatch

namespace Word

/-- An integer fits into 64 bits with a sign. -/
def IsSigned (value : Int) : Prop :=
  -9223372036854775808 ≤ value ∧ value ≤ 9223372036854775807

instance (value : Int) : Decidable (IsSigned value) :=
  inferInstanceAs (Decidable (_ ∧ _))

/-- The integer, if it fits into 64 bits with a sign. -/
def signed? (value : Int) : Option Int :=
  if IsSigned value then some value else none

/-- The largest number that fits into 64 bits without a sign. -/
def maxUnsigned : Nat := 18446744073709551615

/-- An integer fits into 64 bits, with a sign or without one. -/
def Fits (value : Int) : Prop :=
  IsSigned value ∨ (0 ≤ value ∧ value ≤ maxUnsigned)

instance (value : Int) : Decidable (Fits value) :=
  inferInstanceAs (Decidable (_ ∨ _))

theorem natAbs_le_of_fits {value : Int} (h : Fits value) : value.natAbs ≤ maxUnsigned := by
  unfold Fits IsSigned maxUnsigned at *
  omega

theorem signed?_eq_some_iff {value number : Int} :
    signed? value = some number ↔ IsSigned number ∧ value = number := by
  unfold signed?
  split
  · constructor
    · rintro h
      obtain rfl := Option.some.inj h
      exact ⟨by assumption, rfl⟩
    · rintro ⟨-, rfl⟩
      rfl
  · constructor
    · simp
    · rintro ⟨h, rfl⟩
      exact absurd h (by assumption)

end Word

end FilesetBatch
