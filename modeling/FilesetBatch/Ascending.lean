/-!
# Ascending lists

A set is held as the strictly ascending list of its members. Nothing is repeated in such a
list and its order is fixed, so two of them with the same members are equal
(`eq_of_ascending`). An element is put at its place in the list, unless it stands there
already (`insertInto`).
-/

namespace FilesetBatch

variable {α : Type} [LT α] {a b : α} {as bs : List α}

theorem nodup_of_ascending [Std.Irrefl (α := α) (· < ·)] (h : as.Pairwise (· < ·)) :
    as.Nodup := by
  refine h.imp ?_
  rintro a b hab rfl
  exact Std.Irrefl.irrefl (r := (· < ·)) a hab

/-- Ascending lists with the same members are equal. -/
theorem eq_of_ascending [Trans (α := α) (· < ·) (· < ·) (· < ·)]
    [Std.Irrefl (α := α) (· < ·)] (ha : as.Pairwise (· < ·)) (hb : bs.Pairwise (· < ·))
    (h : ∀ c, c ∈ as ↔ c ∈ bs) : as = bs := by
  have hperm : as.Perm bs :=
    (List.perm_ext_iff_of_nodup (nodup_of_ascending ha) (nodup_of_ascending hb)).mpr h
  refine hperm.eq_of_pairwise (fun a b _ _ hab hba => ?_) ha hb
  exact absurd (Trans.trans hab hba : a < a) (Std.Irrefl.irrefl a)

/-! ## Insertion -/

variable [DecidableLT α] [DecidableEq α]

/-- Put an element at its place in an ascending list that may hold it already. -/
def insertInto (a : α) : List α → List α
  | [] => [a]
  | b :: bs =>
    if a < b then a :: b :: bs
    else if a = b then b :: bs
    else b :: insertInto a bs

theorem mem_insertInto : b ∈ insertInto a bs ↔ b = a ∨ b ∈ bs := by
  induction bs with
  | nil => simp [insertInto]
  | cons c cs ih =>
    unfold insertInto
    split
    · simp
    · split
      · simp_all
      · simp only [List.mem_cons, ih]
        exact or_left_comm

theorem length_insertInto (h : a ∉ bs) : (insertInto a bs).length = bs.length + 1 := by
  induction bs with
  | nil => rfl
  | cons b bs ih =>
    obtain ⟨hne, hmem⟩ : a ≠ b ∧ a ∉ bs := by simpa using h
    unfold insertInto
    split
    · rfl
    · rw [List.length_cons, ih hmem, List.length_cons]

theorem pairwise_insertInto [Trans (α := α) (· < ·) (· < ·) (· < ·)]
    [Std.Trichotomous (α := α) (· < ·)] (h : bs.Pairwise (· < ·)) :
    (insertInto a bs).Pairwise (· < ·) := by
  induction bs with
  | nil => simp [insertInto]
  | cons b bs ih =>
    have hb := List.pairwise_cons.mp h
    unfold insertInto
    split
    · rename_i hab
      refine List.pairwise_cons.mpr ⟨fun c hc => ?_, h⟩
      rcases List.mem_cons.mp hc with rfl | hc
      · exact hab
      · exact Trans.trans hab (hb.1 c hc)
    · split
      · exact h
      · rename_i hab hne
        refine List.pairwise_cons.mpr ⟨fun c hc => ?_, ih hb.2⟩
        rcases mem_insertInto.mp hc with rfl | hc
        · exact Decidable.byContradiction fun hba =>
            hne (Std.Trichotomous.trichotomous (r := (· < ·)) c b hab hba)
        · exact hb.1 c hc

end FilesetBatch
