import Mathlib.Data.List.Infix
import FilesetBatch.Proofs.Answers.Passes
import FilesetBatch.Proofs.Containment.Ledger

/-!
# A prepared batch is stable

Preparing a prepared batch once more, with a cache that starts empty, changes nothing
(`run_prepared`). The batch of the second run names filesets where the first one met images,
so the passes take other routes. But what was looked up can be said by the last batch alone
(`Surveyed`) : a fileset that becomes touched was looked up before, and no other target
becomes touched. So the two runs make the same look-ups all in all, and with them put the
same queries and count the same entities.

That each pass of the second run succeeds and changes nothing rests on what the first run
leaves for each operation (`Settled`). Its known filesets, those that are looked up until its
last pass, are parted, and the complete ones among them are treated as a whole. A later pass
for the other operation does not disturb this. If it makes known filesets touched, both
operations had passes before, so nothing becomes known by that.
-/

namespace FilesetBatch

variable {answers : Answers} {start start' log : QueryLog} {requests batch : List Request}
  {operation other : Operation} {operations done rest : List Operation} {prepared : Prepared}
  {l l' m : Lookups} {F : Target}

theorem Operation.eq_or_eq_of_ne (h : operation ≠ other) (k : Operation) :
    k = operation ∨ k = other := by
  cases operation <;> cases other <;> cases k <;> simp_all

/-! ## What was looked up -/

/-- What passes for these operations look up, told by the batch behind them. -/
structure Surveyed (answers : Answers) (start : QueryLog) (done : List Operation)
    (batch : List Request) (l : Lookups) : Prop where
  sound : l.Sound (.ofAnswers answers) start
  contentsAsked_iff : ∀ {kind c}, (kind, c) ∈ l.cache.contentsAsked ↔
    ⟨c.kind, kind⟩ ∈ hierarchy ∧ ∃ k ∈ done, answers.Seeks batch k c
  holdersAsked_iff : ∀ {kind x}, (kind, x) ∈ l.cache.holdersAsked ↔
    kind = .fileset ∧ x.kind = .image ∧ ∃ k ∈ done, Touches answers.Tells batch k x

namespace Surveyed

theorem fresh : Surveyed answers start [] batch ⟨.fresh, start⟩ where
  sound := .fresh
  contentsAsked_iff := by simp
  holdersAsked_iff := by simp

theorem passed (h : Surveyed answers start done requests l)
    (hpassed : Passed answers start requests operation l batch l') :
    Surveyed answers start (done ++ [operation]) batch l' where
  sound := hpassed.sound
  contentsAsked_iff {kind c} := by
    have hbefore : (kind, c) ∈ l'.cache.contentsAsked ↔
        ⟨c.kind, kind⟩ ∈ hierarchy ∧ ∃ k ∈ done ++ [operation], answers.Seeks requests k c := by
      rw [hpassed.contentsAsked_iff, h.contentsAsked_iff, ← and_or_left]
      simp [or_and_right, exists_or]
    constructor
    · intro hasked
      obtain ⟨hedge, k, hk, hseeks⟩ := hbefore.mp hasked
      exact ⟨hedge, k, hk, hpassed.seeks_iff.mpr (.inl hseeks)⟩
    · rintro ⟨hedge, k, hk, hseeks⟩
      rcases hpassed.seeks_iff.mp hseeks with hseeks | ⟨-, hcomplete, hasked⟩
      · exact hbefore.mpr ⟨hedge, k, hk, hseeks⟩
      · have hkind : kind = .image := contained_of_fileset_edge hedge hcomplete.kind
        rwa [hkind]
  holdersAsked_iff {kind x} := by
    rw [hpassed.holdersAsked_iff, h.holdersAsked_iff, ← and_or_left, ← and_or_left]
    refine and_congr_right fun _ => and_congr_right fun hx => ?_
    have htouches : ∀ k, Touches answers.Tells batch k x ↔ Touches answers.Tells requests k x :=
      fun k => hpassed.touches_iff_of_ne (by simp [hx])
    simp [htouches, or_and_right, exists_or]

/-- What a state holds, told by the batch. -/
theorem holds_iff (h : Surveyed answers start done batch l) {c x : Target} :
    l.cache.Holds c x ↔ answers.Tells c x ∧ ∃ k ∈ done, answers.Seeks batch k c := by
  have hshows := h.sound.shows_tells
  constructor
  · intro hx
    exact ⟨h.sound.founded.above hshows hx, (h.contentsAsked_iff.mp (h.sound.founded.asked hx)).2⟩
  · rintro ⟨hx, hsought⟩
    exact (hshows.holds_iff (h.contentsAsked_iff.mpr ⟨hx.1, hsought⟩)).mpr hx

/-- What the passes need is answered. -/
theorem replies (h : Surveyed answers start done batch l) (hk : operation ∈ done) :
    answers.Replies batch operation where
  contents hedge hseeks := h.sound.responds_of_contentsAsked
    (h.contentsAsked_iff.mpr ⟨hedge, operation, hk, hseeks⟩)
  filesets hik htouches := h.sound.responds_of_holdersAsked
    (h.holdersAsked_iff.mpr ⟨rfl, hik, operation, hk, htouches⟩)

end Surveyed

/-! ## What is settled -/

/-- A pass for one of the operations, up to one for this operation, looks the fileset up. -/
def KnownFor (answers : Answers) (done : List Operation) (batch : List Request)
    (operation : Operation) (F : Target) : Prop :=
  ∃ front, front ++ [operation] <+: done ∧ ∃ k ∈ front ++ [operation], answers.Seeks batch k F

/-- Behind the passes for these operations, there is nothing left to do for any of them. -/
structure Settled (answers : Answers) (start : QueryLog) (done : List Operation)
    (batch : List Request) (l : Lookups) : Prop extends
    Surveyed answers start done batch l where
  parted : ∀ k, Parted answers.Tells (KnownFor answers done batch k)
    (Touches answers.Tells batch k)
  treatsWhole : ∀ {k F}, Complete answers.Tells batch k F → KnownFor answers done batch k F →
    TreatsWhole answers.Tells batch k F

/-- What is known for an operation is no more behind a pass for the other one. -/
theorem Surveyed.knownFor_of_ne (h : Surveyed answers start done requests l)
    (hpassed : Passed answers start requests operation l batch l') (hne : other ≠ operation)
    (hknown : KnownFor answers (done ++ [operation]) batch other F) :
    KnownFor answers done requests other F := by
  obtain ⟨front, hprefix, k, hk, hseeks⟩ := hknown
  have hfront : front ++ [other] <+: done := by
    refine (List.prefix_concat_iff.mp hprefix).resolve_left fun heq => hne ?_
    exact List.singleton_inj.mp (List.append_inj' heq rfl).2
  rcases hpassed.seeks_iff.mp hseeks with hseeks | ⟨rfl, -, hasked⟩
  · exact ⟨front, hfront, k, hk, hseeks⟩
  · -- both operations have a pass up to this one, so whatever sought the fileset is among them
    have hboth : ∀ k', k' ∈ front ++ [other] := by
      intro k'
      rcases Operation.eq_or_eq_of_ne hne k' with rfl | rfl
      · simp
      · exact hk
    have hsought : ∃ k', answers.Seeks requests k' F := by
      rcases hpassed.contentsAsked_iff.mp hasked with hasked | ⟨-, hseeks⟩
      · obtain ⟨-, k', -, hseeks⟩ := h.contentsAsked_iff.mp hasked
        exact ⟨k', hseeks⟩
      · exact ⟨k, hseeks⟩
    obtain ⟨k', hseeks⟩ := hsought
    exact ⟨front, hfront, k', hboth k', hseeks⟩

theorem Surveyed.asked_of_knownFor (h : Surveyed answers start done batch l)
    (hF : F.kind = .fileset) (hknown : KnownFor answers done batch operation F) :
    (.image, F) ∈ l.cache.contentsAsked := by
  obtain ⟨front, hfront, k, hk, hseeks⟩ := hknown
  exact h.contentsAsked_iff.mpr ⟨edge_of_fileset hF rfl, k, hfront.subset hk, hseeks⟩

namespace Settled

theorem fresh : Settled answers start [] batch ⟨.fresh, start⟩ where
  toSurveyed := .fresh
  parted k F _ _ _ _ _ hknown := by
    obtain ⟨front, hfront, -⟩ := hknown
    simp at hfront
  treatsWhole _ hknown := by
    obtain ⟨front, hfront, -⟩ := hknown
    simp at hfront

theorem passed (h : Settled answers start done requests l)
    (hpassed : Passed answers start requests operation l batch l') :
    Settled answers start (done ++ [operation]) batch l' where
  toSurveyed := h.toSurveyed.passed hpassed
  parted k := by
    have htouches : ∀ {F i}, F.kind = .fileset → answers.Tells F i →
        Touches answers.Tells batch k i → Touches answers.Tells requests k i :=
      fun _ hi => (hpassed.touches_iff_of_ne hi.kind_ne).mp
    by_cases hne : k = operation
    · subst hne
      exact hpassed.parted.mono (h.toSurveyed.passed hpassed).asked_of_knownFor htouches
    · exact (h.parted k).mono (fun _ => h.knownFor_of_ne hpassed hne) htouches
  treatsWhole {k F} hcomplete hknown := by
    have hcomplete := hpassed.complete_iff.mp hcomplete
    by_cases hne : k = operation
    · subst hne
      exact hpassed.treatsWhole hcomplete
        ((h.toSurveyed.passed hpassed).asked_of_knownFor hcomplete.kind hknown)
    · have hwhole := h.treatsWhole hcomplete (h.knownFor_of_ne hpassed hne hknown)
      simpa only [TreatsWhole, hpassed.targets_of_ne hne] using hwhole

/-- The passes over a settled batch succeed once more, and leave it as it is. -/
theorem prepare_again (h : Settled answers start operations batch l)
    (hm : Surveyed answers start' done batch m) (hsplit : operations = done ++ rest) :
    ∃ m', prepare (.ofAnswers answers) rest batch m = .ok batch m' ∧
      Surveyed answers start' operations batch m' := by
  induction rest generalizing done m with
  | nil => exact ⟨m, rfl, by simpa [hsplit] using hm⟩
  | cons operation rest ih =>
    have hmem : operation ∈ operations := by simp [hsplit]
    have hprefix : done ++ [operation] <+: operations := ⟨rest, by simp [hsplit]⟩
    have hknown : ∀ {F}, (.image, F) ∈ m.cache.contentsAsked ∨
        answers.Seeks batch operation F → KnownFor answers operations batch operation F := by
      rintro F (hasked | hseeks)
      · obtain ⟨-, k, hk, hseeks⟩ := hm.contentsAsked_iff.mp hasked
        exact ⟨done, hprefix, k, List.mem_append_left _ hk, hseeks⟩
      · exact ⟨done, hprefix, operation, by simp, hseeks⟩
    obtain ⟨again, n, hfirst⟩ := (exists_prepareFor_iff hm.sound).mpr
      ⟨h.replies hmem, (h.parted operation).mono (fun _ => hknown) fun _ _ => id⟩
    have hpassed := passed_of_prepareFor hm.sound hfirst
    obtain rfl : again = batch := hpassed.eq_of_treatsWhole fun hcomplete hasked =>
      h.treatsWhole hcomplete
        (hknown ((hpassed.contentsAsked_iff.mp hasked).imp_right And.right))
    obtain ⟨m', hrest, hend⟩ := ih (hm.passed hpassed) (by simp [hsplit])
    refine ⟨m', ?_, hend⟩
    rw [prepare_cons]
    exact LookupM.bind_eq_ok_iff.mpr ⟨again, n, hfirst, hrest⟩

end Settled

theorem settled_of_prepare
    (heq : prepare (.ofAnswers answers) operations requests ⟨.fresh, start⟩ = .ok batch l) :
    Settled answers start operations batch l :=
  invariant_of_prepare Lookups.Sound.fresh Settled.fresh Settled.passed heq

/-! ## Running again -/

/-- A run on a prepared batch succeeds, leaves it as it is, finds the same counts, and puts
the same queries as the run that prepared it, in some order. -/
theorem run_prepared
    (hrun : (run (.ofAnswers answers) operations requests log).result = .ok prepared)
    (log' : QueryLog) :
    (run (.ofAnswers answers) operations prepared.requests log').result = .ok prepared ∧
      ∃ queries queries',
        (run (.ofAnswers answers) operations requests log).log = log ++ queries ∧
        (run (.ofAnswers answers) operations prepared.requests log').log = log' ++ queries' ∧
        queries.Perm queries' := by
  obtain ⟨l, hfirst⟩ := prepare_of_run_eq_ok hrun
  have hsettled := settled_of_prepare hfirst
  have hfresh : Surveyed answers log' [] prepared.requests ⟨.fresh, log'⟩ := .fresh
  obtain ⟨m, hsecond, hsurveyed⟩ := hsettled.prepare_again hfresh rfl
  have hfounded := hsettled.sound.founded
  have hfounded' := hsurveyed.sound.founded
  have hledger : l.Ledger log := .progress (.ofSchema .standard) (prepare_progress hfirst)
  have hledger' : m.Ledger log' := .progress (.ofSchema .standard) (prepare_progress hsecond)
  have hholds : ∀ c x, l.cache.Holds c x ↔ m.cache.Holds c x :=
    fun c x => hsettled.holds_iff.trans hsurveyed.holds_iff.symm
  obtain ⟨himages, hcontainers⟩ := Cache.counts_eq hfounded.aligned hfounded'.aligned hholds
  rw [run_of_prepare_eq_ok hfirst] at hrun ⊢
  rw [run_of_prepare_eq_ok hsecond, ← himages, ← hcontainers]
  obtain ⟨queries, hlog⟩ := hfounded.log
  obtain ⟨queries', hlog'⟩ := hfounded'.log
  refine ⟨hrun, queries, queries', hlog.symm, hlog'.symm, ?_⟩
  refine hledger.perm hledger' (hsettled.sound.schema.trans hsurveyed.sound.schema.symm) ?_ ?_
    hlog.symm hlog'.symm
  · exact fun asked => hsettled.contentsAsked_iff.trans hsurveyed.contentsAsked_iff.symm
  · exact fun asked => hsettled.holdersAsked_iff.trans hsurveyed.holdersAsked_iff.symm

/-- To delete dataset 11 and image 103 of the demonstration and to move images 201 and 202,
which becomes two requests for filesets and the one for the dataset. -/
theorem run_prepared_demonstration :
    let answers := LinkStore.empty.loadDemonstration.answer
    let requests := [.deleteTarget ⟨.dataset, 11⟩, .chgrpTarget (.image 201) 5,
      .deleteTarget (.image 103), .chgrpTarget (.image 202) 7]
    let prepared : Prepared := ⟨[.deleteTarget (.fileset 1001), .deleteTarget ⟨.dataset, 11⟩,
      .chgrpTarget (.fileset 1002) 5], 5, 3⟩
    (run (.ofAnswers answers) [.delete, .chgrp] requests []).result = .ok prepared ∧
      (run (.ofAnswers answers) [.delete, .chgrp] prepared.requests []).result = .ok prepared := by
  intro answers requests prepared
  have hrun : (run (.ofAnswers answers) [.delete, .chgrp] requests []).result = .ok prepared := by
    decide +kernel
  exact ⟨hrun, (run_prepared hrun []).1⟩

end FilesetBatch
