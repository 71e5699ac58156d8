import FilesetBatch.Proofs.Answers.Passes

/-!
# What a run conserves

A run deletes requests and puts others in, but for each operation the prepared batch reaches
what the batch reached, and the planned filesets besides (`collect_prepared`). Of a planned
fileset all images were reached before. So no entity is lost from an operation, and none but
filesets of reached images come in.

One pass does so for its own operation and nothing to the others (`Passed.touches_iff`), and
the passes add up along the run (`touches_prepare_iff`). A fileset is planned in a pass over
a rewritten batch, but that batch touches no other images than the first one
(`PlannedAmong.complete`).
-/

namespace FilesetBatch

variable {answers : Answers} {service : QueryService} {start log log' : QueryLog}
  {requests batch : List Request} {operation k : Operation} {operations : List Operation}
  {reached : TargetSet} {prepared : Prepared} {l l' : Lookups} {F i t : Target}

/-! ## The filesets that are planned -/

/-- A pass over the batch for the operation makes a plan for the fileset. -/
def PlansFor (service : QueryService) (requests : List Request) (operation : Operation)
    (l : Lookups) (F : Target) : Prop :=
  ∃ reached l' ps, collect service requests operation l = .ok reached l' ∧
    plans l'.cache reached = .ok ps ∧ ∃ p ∈ ps, F = p.fileset

/-- One of the passes that is for this operation makes a plan for the fileset. -/
def PlannedAmong (service : QueryService) (operations : List Operation)
    (requests : List Request) (l : Lookups) (k : Operation) (F : Target) : Prop :=
  ∃ done rest between m, operations = done ++ k :: rest ∧
    prepare service done requests l = .ok between m ∧ PlansFor service between k m F

theorem not_plannedAmong_nil : ¬ PlannedAmong service [] requests l k F := by
  rintro ⟨done, rest, between, m, hsplit, -⟩
  simp at hsplit

/-- A fileset is planned in the first pass or in one of those behind it. -/
theorem plannedAmong_cons_iff
    (heq : prepareFor service requests operation l = .ok batch l') :
    PlannedAmong service (operation :: operations) requests l k F ↔
      k = operation ∧ PlansFor service requests operation l F ∨
        PlannedAmong service operations batch l' k F := by
  constructor
  · rintro ⟨done, rest, between, m, hsplit, hdone, hplans⟩
    rcases List.cons_eq_append_iff.mp hsplit with ⟨rfl, hsame⟩ | ⟨done, rfl, rfl⟩
    · obtain ⟨rfl, -⟩ := List.cons.inj hsame
      obtain ⟨rfl, rfl⟩ := LookupM.pure_eq_ok_iff.mp hdone
      exact .inl ⟨rfl, hplans⟩
    · rw [prepare_cons] at hdone
      obtain ⟨first, n, hfirst, hdone⟩ := LookupM.bind_eq_ok_iff.mp hdone
      obtain ⟨rfl, rfl⟩ := EStateM.Result.ok.inj (heq.symm.trans hfirst)
      exact .inr ⟨done, rest, between, m, rfl, hdone, hplans⟩
  · rintro (⟨rfl, hplans⟩ | ⟨done, rest, between, m, rfl, hdone, hplans⟩)
    · exact ⟨[], operations, requests, l, rfl, rfl, hplans⟩
    · refine ⟨operation :: done, rest, between, m, rfl, ?_, hplans⟩
      rw [prepare_cons]
      exact LookupM.bind_eq_ok_iff.mpr ⟨batch, l', heq, hdone⟩

theorem plansFor_iff (h : l.Sound (.ofAnswers answers) start)
    (heq : prepareFor (.ofAnswers answers) requests operation l = .ok batch l') :
    PlansFor (.ofAnswers answers) requests operation l F ↔
      Complete answers.Tells requests operation F ∧ (.image, F) ∈ l'.cache.contentsAsked := by
  obtain ⟨reached, ps, hcollect, hplans, -⟩ := (prepareFor_eq_ok_iff_onePass h).mp heq
  have hcollected := collect_spec h hcollect
  rw [← exists_mem_plans_iff hcollected (plans_spec hcollected.sound.founded.aligned hplans)
    hcollected.sound.shows_tells]
  constructor
  · rintro ⟨reached', m, qs, hcollect', hplans', hF⟩
    obtain ⟨rfl, rfl⟩ := EStateM.Result.ok.inj (hcollect.symm.trans hcollect')
    obtain rfl := Except.ok.inj (hplans.symm.trans hplans')
    exact hF
  · exact fun hF => ⟨reached, l', ps, hcollect, hplans, hF⟩

/-! ## Along the run -/

/-- Behind the passes the requests touch what they touched before, and for each operation
the filesets that were planned for it. -/
theorem touches_prepare_iff (h : l.Sound (.ofAnswers answers) start)
    (heq : prepare (.ofAnswers answers) operations requests l = .ok batch l') :
    Touches answers.Tells batch k t ↔ Touches answers.Tells requests k t ∨
      PlannedAmong (.ofAnswers answers) operations requests l k t := by
  induction operations generalizing requests l with
  | nil =>
    obtain ⟨rfl, rfl⟩ := LookupM.pure_eq_ok_iff.mp heq
    exact (or_iff_left not_plannedAmong_nil).symm
  | cons operation operations ih =>
    rw [prepare_cons] at heq
    obtain ⟨between, m, hfirst, heq⟩ := LookupM.bind_eq_ok_iff.mp heq
    have hpassed := passed_of_prepareFor h hfirst
    rw [ih hpassed.sound heq, hpassed.touches_iff, plannedAmong_cons_iff hfirst,
      plansFor_iff h hfirst, or_assoc]

/-- A planned fileset is one of which the requests touched all images from the first. -/
theorem PlannedAmong.complete (h : l.Sound (.ofAnswers answers) start)
    (heq : prepare (.ofAnswers answers) operations requests l = .ok batch l')
    (hplanned : PlannedAmong (.ofAnswers answers) operations requests l k F) :
    Complete answers.Tells requests k F := by
  induction operations generalizing requests l with
  | nil => exact absurd hplanned not_plannedAmong_nil
  | cons operation operations ih =>
    rw [prepare_cons] at heq
    obtain ⟨between, m, hfirst, heq⟩ := LookupM.bind_eq_ok_iff.mp heq
    have hpassed := passed_of_prepareFor h hfirst
    rcases (plannedAmong_cons_iff hfirst).mp hplanned with ⟨rfl, hplans⟩ | hplanned
    · exact ((plansFor_iff h hfirst).mp hplans).1
    · exact hpassed.complete_iff.mp (ih hpassed.sound heq hplanned)

theorem replies_prepare_iff (h : l.Sound (.ofAnswers answers) start)
    (heq : prepare (.ofAnswers answers) operations requests l = .ok batch l') :
    answers.Replies batch k ↔ answers.Replies requests k :=
  prepare_related (fun _ => Iff.rfl) (fun h h' => h'.trans h)
    (fun _ _ _ _ _ _ hl hpass => (passed_of_prepareFor hl hpass).replies_iff) h heq

/-! ## What is collected -/

/-- For each operation the prepared batch reaches what the batch reaches, and the filesets
that are planned in the passes for it. All images of these were reached before. -/
theorem collect_prepared
    (hrun : (run (.ofAnswers answers) operations requests log).result = .ok prepared)
    (hcollect : collect (.ofAnswers answers) requests k ⟨.fresh, start⟩ = .ok reached l)
    (log' : QueryLog) :
    ∃ reached' l',
      collect (.ofAnswers answers) prepared.requests k ⟨.fresh, log'⟩ = .ok reached' l' ∧
      (∀ t, t.kind ≠ .fileset → (t ∈ reached' ↔ t ∈ reached)) ∧
      (∀ F, F.kind = .fileset → (F ∈ reached' ↔ F ∈ reached ∨
        PlannedAmong (.ofAnswers answers) operations requests ⟨.fresh, log⟩ k F)) ∧
      ∀ F, PlannedAmong (.ofAnswers answers) operations requests ⟨.fresh, log⟩ k F →
        F.kind = .fileset ∧ ∀ i, answers.Tells F i → i ∈ reached := by
  obtain ⟨m, hprepare⟩ := prepare_of_run_eq_ok hrun
  have hfresh : ∀ log, Lookups.Sound (.ofAnswers answers) log ⟨.fresh, log⟩ := fun _ => .fresh
  have hcollected := collect_spec (hfresh start) hcollect
  obtain ⟨reached', l', hcollect'⟩ := exists_collect (hfresh log')
    ((replies_prepare_iff (hfresh log) hprepare).mpr hcollected.replies)
  have hcollected' := collect_spec (hfresh log') hcollect'
  have hmem : ∀ t, t ∈ reached' ↔ t ∈ reached ∨
      PlannedAmong (.ofAnswers answers) operations requests ⟨.fresh, log⟩ k t := fun t => by
    rw [hcollected'.mem_reached_iff_told, hcollected.mem_reached_iff_told,
      touches_prepare_iff (hfresh log) hprepare]
  have hcomplete : ∀ F, PlannedAmong (.ofAnswers answers) operations requests ⟨.fresh, log⟩ k F →
      Complete answers.Tells requests k F := fun F => PlannedAmong.complete (hfresh log) hprepare
  refine ⟨reached', l', hcollect', fun t ht => ?_, fun F _ => hmem F, fun F hF => ?_⟩
  · rw [hmem, or_iff_left]
    exact fun hplanned => ht (hcomplete t hplanned).kind
  · refine ⟨(hcomplete F hF).kind, fun i hi => ?_⟩
    exact hcollected.mem_reached_iff_told.mpr ((hcomplete F hF).touched i hi)

/-- Deleting dataset 11 and image 103 of the demonstration reaches the same images when the
batch names fileset 1001 in place of the image. -/
theorem collect_prepared_demonstration :
    let service := LinkStore.empty.loadDemonstration.service
    let requests := [.deleteTarget ⟨.dataset, 11⟩, .chgrpTarget (.image 201) 5,
      .deleteTarget (.image 103)]
    let prepared : Prepared := ⟨[.deleteTarget (.fileset 1001), .deleteTarget ⟨.dataset, 11⟩,
      .chgrpTarget (.image 201) 5], 5, 3⟩
    (run service [.delete, .chgrp] requests []).result = .ok prepared ∧
      ∃ reached l reached' l', collect service requests .delete ⟨.fresh, []⟩ = .ok reached l ∧
        collect service prepared.requests .delete ⟨.fresh, []⟩ = .ok reached' l' ∧
        ∀ t, t.kind ≠ .fileset → (t ∈ reached' ↔ t ∈ reached) := by
  intro service requests prepared
  have hrun : (run service [.delete, .chgrp] requests []).result = .ok prepared := by
    decide +kernel
  have hreached : (match collect service requests .delete ⟨.fresh, []⟩ with
      | .ok reached _ => reached.size
      | .error _ _ => 0) = 4 := by
    decide +kernel
  cases hcollect : collect service requests .delete ⟨.fresh, []⟩ with
  | error failure l =>
    rw [hcollect] at hreached
    cases hreached
  | ok reached l =>
    obtain ⟨reached', l', hcollect', hsame, -⟩ := collect_prepared hrun hcollect []
    exact ⟨hrun, reached, l, reached', l', rfl, hcollect', hsame⟩

end FilesetBatch
