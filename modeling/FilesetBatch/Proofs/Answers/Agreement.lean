import FilesetBatch.Proofs.Answers.Stable

/-!
# When a run succeeds, for any order of its operations

A service is coherent if, for filesets and their images, its answers down and up agree
wherever it gives both (`Answers.Coherent`). Then a pass looks up those filesets of which its
requests touch an image, and besides them only filesets without images
(`Answers.Replies.seeks_iff_involves`).

A run over a coherent service succeeds if each query that one of its passes needs is answered
and no two filesets that its operations involve have an image in common (`Agreed`), and only
then (`exists_run_iff`). The later of two passes compares the filesets that they involve, so
neither the order of the operations nor their repetition matters.
-/

namespace FilesetBatch

variable {answers : Answers} {start log : QueryLog} {requests batch : List Request}
  {operation : Operation} {operations operations' done : List Operation} {l l' : Lookups}
  {F i m : Target}

/-! ## Coherent services -/

/-- Where both are given, the answers down from a fileset and up from an image agree. -/
def Answers.Coherent (answers : Answers) : Prop :=
  ∀ ⦃F i : Target⦄, F.kind = .fileset → i.kind = .image → answers.Responds F .image →
    answers.Responds i .fileset → (answers.Gives F i ↔ answers.Gives i F)

namespace Answers.Replies

variable (hcoherent : answers.Coherent) (h : answers.Replies requests operation)

include hcoherent h

theorem tells_of_gives (hF : F.kind = .fileset) (hi : i.kind = .image)
    (htouches : Touches answers.Tells requests operation i) (hgives : answers.Gives i F) :
    answers.Tells F i := by
  have hdown : answers.Responds F .image :=
    h.contents (edge_of_fileset hF rfl) (.inr ⟨hF, i, hi, htouches, hgives⟩)
  exact ⟨edge_of_fileset hF hi, (hcoherent hF hi hdown (h.filesets hi htouches)).mpr hgives⟩

/-- Of the filesets with images, a pass seeks those that its requests involve. -/
theorem seeks_iff_involves (hF : F.kind = .fileset) (hm : answers.Tells F m) :
    answers.Seeks requests operation F ↔ Involves answers.Tells requests operation F := by
  constructor
  · rintro (htouches | ⟨-, i, hi, htouches, hgives⟩)
    · exact ⟨m, hm, htouches.tail hm⟩
    · exact ⟨i, h.tells_of_gives hcoherent hF hi htouches hgives, htouches⟩
  · rintro ⟨i, hFi, htouches⟩
    have hi : i.kind = .image := contained_of_fileset_edge hFi.1 hF
    have hdown : answers.Responds F .image := hi ▸ hFi.2.responds
    exact .inr ⟨hF, i, hi, htouches,
      (hcoherent hF hi hdown (h.filesets hi htouches)).mp hFi.2⟩

/-- A pass seeks the filesets of which its requests touch all images. -/
theorem seeks_of_complete (hF : Complete answers.Tells requests operation F) :
    answers.Seeks requests operation F := by
  obtain ⟨i, -, -, hi, -⟩ := hF.several
  exact (h.seeks_iff_involves hcoherent hF.kind hi).mpr ⟨i, hi, hF.touched i hi⟩

end Answers.Replies

/-! ## What a run needs -/

/-- The queries that the operations need are answered, and the filesets that they involve
have no image in common. -/
structure Agreed (answers : Answers) (requests : List Request) (operations : List Operation) :
    Prop where
  replies : ∀ k ∈ operations, answers.Replies requests k
  apart : ∀ {F G m}, F.kind = .fileset → G.kind = .fileset →
    (∃ k ∈ operations, Involves answers.Tells requests k F) →
    (∃ k ∈ operations, Involves answers.Tells requests k G) →
    answers.Tells F m → answers.Tells G m → F = G

theorem Agreed.mono (h : Agreed answers requests operations)
    (hsub : ∀ k ∈ operations', k ∈ operations) : Agreed answers requests operations' where
  replies k hk := h.replies k (hsub k hk)
  apart hF hG := by
    rintro ⟨k, hk, hFinvolved⟩ ⟨k', hk', hGinvolved⟩
    exact h.apart hF hG ⟨k, hsub k hk, hFinvolved⟩ ⟨k', hsub k' hk', hGinvolved⟩

/-- A pass changes nothing about what is needed. -/
theorem Passed.agreed_iff (h : Passed answers start requests operation l batch l') :
    Agreed answers batch operations ↔ Agreed answers requests operations := by
  have hinvolves : ∀ k F, Involves answers.Tells batch k F ↔
      Involves answers.Tells requests k F := fun k F =>
    involves_congr fun i hi => h.touches_iff_of_ne hi.kind_ne
  constructor
  · rintro ⟨hreplies, hapart⟩
    simp only [hinvolves, h.replies_iff] at hreplies hapart
    exact ⟨hreplies, hapart⟩
  · rintro ⟨hreplies, hapart⟩
    simp only [← hinvolves, ← h.replies_iff] at hreplies hapart
    exact ⟨hreplies, hapart⟩

section

variable (hcoherent : answers.Coherent)

include hcoherent

/-- The filesets with images that are known to one pass more are those that its operation or
one before it involves. -/
theorem Surveyed.known_iff (hl : Surveyed answers start done requests l)
    (hreplies : ∀ k ∈ done ++ [operation], answers.Replies requests k)
    (hF : F.kind = .fileset) (hm : answers.Tells F m) :
    ((.image, F) ∈ l.cache.contentsAsked ∨ answers.Seeks requests operation F) ↔
      ∃ k ∈ done ++ [operation], Involves answers.Tells requests k F := by
  have hseeks : ∀ k ∈ done ++ [operation], (answers.Seeks requests k F ↔
      Involves answers.Tells requests k F) :=
    fun k hk => (hreplies k hk).seeks_iff_involves hcoherent hF hm
  have hsought : ((.image, F) ∈ l.cache.contentsAsked ∨ answers.Seeks requests operation F) ↔
      ∃ k ∈ done ++ [operation], answers.Seeks requests k F := by
    rw [hl.contentsAsked_iff, and_iff_right (edge_of_fileset hF rfl)]
    simp [or_and_right, exists_or]
  exact hsought.trans (exists_congr fun k => and_congr_right (hseeks k))

/-- Behind passes that found nothing wrong, one pass more succeeds exactly if nothing is
wrong with its operation either. -/
theorem Surveyed.exists_prepareFor_iff (hl : Surveyed answers start done requests l)
    (h : Agreed answers requests done) (operation : Operation) :
    (∃ batch l', prepareFor (.ofAnswers answers) requests operation l = .ok batch l') ↔
      Agreed answers requests (done ++ [operation]) := by
  rw [FilesetBatch.exists_prepareFor_iff hl.sound]
  have hmem : operation ∈ done ++ [operation] := by simp
  constructor
  · rintro ⟨hreplies, hparted⟩
    have hall : ∀ k ∈ done ++ [operation], answers.Replies requests k := by
      intro k hk
      rcases List.mem_append.mp hk with hk | hk
      · exact h.replies k hk
      · rwa [List.mem_singleton.mp hk]
    refine ⟨hall, fun {F G m} hF hG hFinvolved hGinvolved hFm hGm => ?_⟩
    have hFknown := (hl.known_iff hcoherent hall hF hFm).mpr hFinvolved
    have hGknown := (hl.known_iff hcoherent hall hG hGm).mpr hGinvolved
    -- the passes before compared their own filesets, this one compares with its own
    obtain ⟨k, hk, i, hi, htouches⟩ := hFinvolved
    obtain ⟨k', hk', j, hj, htouches'⟩ := hGinvolved
    rcases List.mem_append.mp hk with hk | hk
    · rcases List.mem_append.mp hk' with hk' | hk'
      · exact h.apart hF hG ⟨k, hk, i, hi, htouches⟩ ⟨k', hk', j, hj, htouches'⟩ hFm hGm
      · rw [List.mem_singleton.mp hk'] at htouches'
        exact (hparted hG hF hGknown hFknown htouches' hj hGm hFm).symm
    · rw [List.mem_singleton.mp hk] at htouches
      exact hparted hF hG hFknown hGknown htouches hi hFm hGm
  · intro hagreed
    refine ⟨hagreed.replies operation hmem, ?_⟩
    intro F G i m hF hG hFknown hGknown htouches hi hFm hGm
    exact hagreed.apart hF hG ⟨operation, hmem, i, hi, htouches⟩
      ((hl.known_iff hcoherent hagreed.replies hG hGm).mp hGknown) hFm hGm

theorem Surveyed.exists_prepare_iff (hl : Surveyed answers start done requests l)
    (h : Agreed answers requests done) :
    (∃ batch l', prepare (.ofAnswers answers) operations requests l = .ok batch l') ↔
      Agreed answers requests (done ++ operations) := by
  induction operations generalizing done requests l with
  | nil =>
    rw [List.append_nil]
    exact ⟨fun _ => h, fun _ => ⟨requests, l, rfl⟩⟩
  | cons operation operations ih =>
    have hfirst := hl.exists_prepareFor_iff hcoherent h operation
    rw [List.append_cons, prepare_cons]
    constructor
    · rintro ⟨batch, l', heq⟩
      obtain ⟨between, n, hpass, heq⟩ := LookupM.bind_eq_ok_iff.mp heq
      have hpassed := passed_of_prepareFor hl.sound hpass
      have hnow := hpassed.agreed_iff.mpr (hfirst.mp ⟨between, n, hpass⟩)
      exact hpassed.agreed_iff.mp ((ih (hl.passed hpassed) hnow).mp ⟨batch, l', heq⟩)
    · intro hagreed
      obtain ⟨between, n, hpass⟩ := hfirst.mpr
        (hagreed.mono fun k hk => List.mem_append_left operations hk)
      have hpassed := passed_of_prepareFor hl.sound hpass
      have hnow := hpassed.agreed_iff.mpr (hfirst.mp ⟨between, n, hpass⟩)
      obtain ⟨batch, l', heq⟩ := (ih (hl.passed hpassed) hnow).mpr (hpassed.agreed_iff.mpr hagreed)
      exact ⟨batch, l', LookupM.bind_eq_ok_iff.mpr ⟨between, n, hpass, heq⟩⟩

/-- A run over a coherent service succeeds exactly if its queries are answered and the
filesets that its operations involve have no image in common. -/
theorem exists_run_iff : (∃ prepared,
    (run (.ofAnswers answers) operations requests log).result = .ok prepared) ↔
      Agreed answers requests operations := by
  have hnone : Agreed answers requests [] := ⟨by simp, by simp⟩
  have hfresh : Surveyed answers log [] requests ⟨.fresh, log⟩ := .fresh
  rw [← List.nil_append operations, ← hfresh.exists_prepare_iff hcoherent hnone]
  constructor
  · rintro ⟨prepared, hrun⟩
    obtain ⟨l, hprepare⟩ := prepare_of_run_eq_ok hrun
    exact ⟨_, l, hprepare⟩
  · rintro ⟨batch, l, hprepare⟩
    rw [List.nil_append, run_of_prepare_eq_ok hprepare]
    exact ⟨_, rfl⟩

end

end FilesetBatch
