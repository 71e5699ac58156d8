import FilesetBatch.Batch.Prepared
import FilesetBatch.Containment.LinkStore
import FilesetBatch.Proofs.Batch.Places

/-!
# How a run fails

A pass keeps a state sound when it succeeds, and it succeeds as in one pass over its batch
(`prepareFor_eq_ok`). It fails with a query that is refused, or with an image that lies in
several cached filesets (`prepareFor_eq_error`). Nothing else comes up : the standard schema
has all templates that are needed, filesets hold images only, and every plan has its place.
When a run fails, it fails in one of its passes (`prepare_eq_error`).

`run_explained` reads this off the log and the result of a run. A run fails with a query
exactly when a query of its log was refused, and then that query is the last one.
-/

namespace FilesetBatch

variable {service : QueryService} {start : QueryLog} {requests requests' : List Request}
  {operation : Operation} {operations : List Operation} {failure : Failure} {l l' : Lookups}

/-! ## One pass -/

theorem prepareFor_eq_ok_iff :
    prepareFor service requests operation l = .ok requests' l' ↔
      ∃ reached ps, collect service requests operation l = .ok reached l' ∧
        plans l'.cache reached = .ok ps ∧ substituteAll ps operation requests = .ok requests' := by
  rw [prepareFor, LookupM.bind_eq_ok_iff]
  constructor
  · rintro ⟨reached, m, hcollect, h⟩
    rw [LookupM.get_bind] at h
    obtain ⟨ps, n, hps, h⟩ := LookupM.bind_eq_ok_iff.mp h
    obtain ⟨hplans, rfl⟩ := LookupM.ofExcept_eq_ok_iff.mp hps
    obtain ⟨hsubstitute, rfl⟩ := LookupM.ofExcept_eq_ok_iff.mp h
    exact ⟨reached, ps, hcollect, hplans, hsubstitute⟩
  · rintro ⟨reached, ps, hcollect, hplans, hsubstitute⟩
    refine ⟨reached, l', hcollect, ?_⟩
    rw [LookupM.get_bind]
    exact LookupM.bind_eq_ok_iff.mpr ⟨ps, l', LookupM.ofExcept_eq_ok_iff.mpr ⟨hplans, rfl⟩,
      LookupM.ofExcept_eq_ok_iff.mpr ⟨hsubstitute, rfl⟩⟩

/-- A pass that succeeds leaves a sound state and the batch of the one pass over it. -/
theorem prepareFor_eq_ok (h : l.Sound service start)
    (heq : prepareFor service requests operation l = .ok requests' l') :
    ∃ reached ps, Collected service start (directTargets requests operation) l reached l' ∧
      Planned l'.cache reached (fun i => i ∈ reached ∧ i.kind = .image) ps ∧
      requests' = onePass ps operation requests := by
  obtain ⟨reached, ps, hcollect, hplans, hsubstitute⟩ := prepareFor_eq_ok_iff.mp heq
  have hcollected := collect_spec h hcollect
  have hfounded := hcollected.sound.founded
  rw [substituteAll_plans hfounded hcollect hplans] at hsubstitute
  cases hsubstitute
  exact ⟨reached, ps, hcollected, plans_spec hfounded.aligned hplans, rfl⟩

theorem prepareFor_sound :
    (prepareFor service requests operation).Keeps (Lookups.Sound service start) := by
  intro l requests' l' heq h
  obtain ⟨reached, ps, hcollected, -⟩ := prepareFor_eq_ok h heq
  exact hcollected.sound

theorem prepareFor_progress :
    (prepareFor service requests operation).Leads (Progress service (· ∈ hierarchy)) := by
  intro l requests' l' heq
  obtain ⟨reached, ps, hcollect, -⟩ := prepareFor_eq_ok_iff.mp heq
  exact collect_follows.ok hcollect

/-- An image lies in several of the cached filesets, and the failure says in which. -/
def Conflict (l : Lookups) (failure : Failure) : Prop :=
  ∃ i, i.kind = .image ∧ ¬ l.cache.Unshared i ∧
    failure = .multipleFilesets i (l.cache.containersOfKind i .fileset).toList

/-- A pass fails with a query that is refused or with an image in several filesets. -/
theorem prepareFor_eq_error (h : l.Sound service start)
    (heq : prepareFor service requests operation l = .error failure l') :
    (∃ m, Progress service (· ∈ hierarchy) l m ∧ Refused service (· ∈ hierarchy) m failure l') ∨
      ∃ reached, Collected service start (directTargets requests operation) l reached l' ∧
        Conflict l' failure := by
  rw [prepareFor, LookupM.bind_eq_error_iff] at heq
  rcases heq with hcollect | ⟨reached, m, hcollect, heq⟩
  · obtain ⟨m, hm, hrefused | ⟨rfl, hlacks⟩⟩ := collect_follows.error hcollect
    · exact .inl ⟨m, hm, hrefused⟩
    · exact absurd hlacks (not_lacks_standard (hm.grows.schema.trans h.schema))
  have hcollected := collect_spec h hcollect
  have hfounded := hcollected.sound.founded
  rw [LookupM.get_bind, LookupM.bind_eq_error_iff] at heq
  rcases heq with hps | ⟨ps, n, hps, hall⟩
  · obtain ⟨hplans, rfl⟩ := LookupM.ofExcept_eq_error_iff.mp hps
    rcases plans_eq_error hplans with hconflict | ⟨F, x, hF, hx, hk, -⟩
    · exact .inr ⟨reached, hcollected, hconflict⟩
    · exact absurd (contained_of_fileset_edge (hfounded.edge hx) hF) hk
  · obtain ⟨hplans, rfl⟩ := LookupM.ofExcept_eq_ok_iff.mp hps
    obtain ⟨hsubstitute, rfl⟩ := LookupM.ofExcept_eq_error_iff.mp hall
    rw [substituteAll_plans hfounded hcollect hplans] at hsubstitute
    cases hsubstitute

/-! ## All passes -/

theorem prepare_sound :
    (prepare service operations requests).Keeps (Lookups.Sound service start) :=
  .foldlM operations requests fun _ _ _ => prepareFor_sound

theorem prepare_progress :
    (prepare service operations requests).Leads (Progress service (· ∈ hierarchy)) :=
  .foldlM .refl .trans operations requests fun _ _ _ => prepareFor_progress

theorem prepare_cons : prepare service (operation :: operations) requests =
    prepareFor service requests operation >>= prepare service operations := by
  simp only [prepare, List.foldlM_cons]
  rfl

theorem prepare_singleton :
    prepare service [operation] requests = prepareFor service requests operation := by
  rw [prepare, List.foldlM_cons]
  exact bind_pure _

/-- What holds between the batches before and behind each pass holds between those before and
behind all of them. -/
theorem prepare_related {R : List Request → List Request → Prop} (refl : ∀ batch, R batch batch)
    (trans : ∀ {a b c}, R a b → R b c → R a c)
    (hpass : ∀ operation ∈ operations, ∀ {requests requests' l l'}, l.Sound service start →
      prepareFor service requests operation l = .ok requests' l' → R requests requests')
    (h : l.Sound service start)
    (heq : prepare service operations requests l = .ok requests' l') : R requests requests' := by
  induction operations generalizing requests l with
  | nil =>
    obtain ⟨rfl, rfl⟩ := LookupM.pure_eq_ok_iff.mp heq
    exact refl requests
  | cons operation operations ih =>
    rw [prepare_cons] at heq
    obtain ⟨between, m, hfirst, heq⟩ := LookupM.bind_eq_ok_iff.mp heq
    have hrest := ih (fun other hother => hpass other (List.mem_cons_of_mem operation hother))
      (prepareFor_sound hfirst h) heq
    exact trans (hpass operation List.mem_cons_self h hfirst) hrest

/-- When a run fails, some pass of it fails, and the passes before it succeed. -/
theorem prepare_eq_error (heq : prepare service operations requests l = .error failure l') :
    ∃ done operation rest between m, operations = done ++ operation :: rest ∧
      prepare service done requests l = .ok between m ∧
      prepareFor service between operation m = .error failure l' := by
  induction operations generalizing requests l with
  | nil => exact absurd heq LookupM.pure_ne_error
  | cons operation operations ih =>
    rw [prepare_cons, LookupM.bind_eq_error_iff] at heq
    rcases heq with heq | ⟨between, m, hpass, heq⟩
    · exact ⟨[], operation, operations, requests, l, rfl, rfl, heq⟩
    · obtain ⟨done, failing, rest, last, n, rfl, hdone, hfail⟩ := ih heq
      refine ⟨operation :: done, failing, rest, last, n, rfl, ?_, hfail⟩
      rw [prepare_cons]
      exact LookupM.bind_eq_ok_iff.mpr ⟨between, m, hpass, hdone⟩

/-! ## The end of a run -/

variable {log : QueryLog} {outcome : Outcome}

theorem prepare_of_run_eq_ok {prepared : Prepared}
    (h : (run service operations requests log).result = .ok prepared) :
    ∃ l, prepare service operations requests ⟨.fresh, log⟩ = .ok prepared.requests l := by
  unfold run at h
  split at h
  · rename_i requests' cache log' hprepare
    cases h
    exact ⟨_, hprepare⟩
  · cases h

theorem run_of_prepare_eq_ok
    (h : prepare service operations requests ⟨.fresh, log⟩ = .ok requests' l) :
    run service operations requests log =
      ⟨.ok ⟨requests', l.cache.containedCount, l.cache.containerCount⟩, l.log⟩ := by
  rw [run, h]

theorem prepare_of_run_eq_error
    (h : (run service operations requests log).result = .error failure) :
    ∃ l, prepare service operations requests ⟨.fresh, log⟩ = .error failure l := by
  unfold run at h
  split at h
  · cases h
  · rename_i failure' cache log' hprepare
    cases h
    exact ⟨_, hprepare⟩

/-- What the result of a run says of its queries, those in its log behind the queries of
`log`. -/
structure Outcome.Explained (service : QueryService) (log : QueryLog) (outcome : Outcome) :
    Prop where
  /-- Nothing but a failed query or an image in several filesets makes a run fail. -/
  kinds : ∀ {failure}, outcome.result = .error failure →
    (∃ template id reason, failure = .query template id reason) ∨
      ∃ image filesets, failure = .multipleFilesets image filesets
  /-- It fails with a query exactly when one of its queries is refused. -/
  refused_iff : (∃ template id reason, outcome.result = .error (.query template id reason)) ↔
    ∃ before query after reason, outcome.log = log ++ before ++ query :: after ∧
      service.Refuses (log ++ before) query reason
  /-- The query that is refused is the last one, and the failure names it. -/
  last : ∀ {before query after reason}, outcome.log = log ++ before ++ query :: after →
    service.Refuses (log ++ before) query reason →
      after = [] ∧ outcome.result = .error (.query query.template query.id reason)
  /-- An image in several filesets is shown with them in order, and for each of them the
  query for its images was answered with this one. -/
  shared : ∀ {image filesets}, outcome.result = .error (.multipleFilesets image filesets) →
    image.kind = .image ∧ filesets.Pairwise (· < ·) ∧ 2 ≤ filesets.length ∧
      ∀ fileset ∈ filesets, fileset.kind = .fileset ∧ ∃ template ids,
        template ∈ Template.standard ∧ template.name = "fileset_images" ∧
        service.Gave log outcome.log template fileset.id (.ok ids) ∧ image.id ∈ ids

namespace Outcome.Explained

theorem refused_iff_of_unrefused (hlog : service.Unrefused log outcome.log)
    (hresult : ∀ template id reason, outcome.result ≠ .error (.query template id reason)) :
    (∃ template id reason, outcome.result = .error (.query template id reason)) ↔
      ∃ before query after reason, outcome.log = log ++ before ++ query :: after ∧
        service.Refuses (log ++ before) query reason := by
  constructor
  · rintro ⟨template, id, reason, h⟩
    exact absurd h (hresult template id reason)
  · rintro ⟨before, query, after, reason, hsplit, hrefuses⟩
    exact absurd hrefuses (hlog _ _ _ _ hsplit)

/-- No query is refused, and the run succeeds. -/
theorem of_ok {prepared : Prepared} (hresult : outcome.result = .ok prepared)
    (hlog : service.Unrefused log outcome.log) : outcome.Explained service log where
  kinds h := by simp [hresult] at h
  refused_iff := refused_iff_of_unrefused hlog (by simp [hresult])
  last hsplit hrefuses := absurd hrefuses (hlog _ _ _ _ hsplit)
  shared h := by simp [hresult] at h

/-- The last query is refused. -/
theorem of_refused {before : QueryLog} {query : Query} {reason : String}
    (hresult : outcome.result = .error (.query query.template query.id reason))
    (hlog : outcome.log = log ++ before ++ [query])
    (hbefore : service.Unrefused log (log ++ before))
    (hiff : ∀ reason', service.Refuses (log ++ before) query reason' ↔ reason' = reason) :
    outcome.Explained service log := by
  have hlast : ∀ {before' query' after reason'},
      outcome.log = log ++ before' ++ query' :: after →
      service.Refuses (log ++ before') query' reason' →
      after = [] ∧ outcome.result = .error (.query query'.template query'.id reason') := by
    intro before' query' after reason' hsplit hrefuses
    rw [hlog] at hsplit
    rcases eq_or_exists_of_append_singleton_eq hsplit with ⟨heq, rfl, rfl⟩ | ⟨rest, heq⟩
    · rw [heq] at hrefuses
      rw [(hiff reason').mp hrefuses]
      exact ⟨rfl, hresult⟩
    · exact absurd hrefuses (hbefore _ _ _ _ heq)
  refine ⟨fun {failure} h => ?_, ?_, hlast, fun {image filesets} h => ?_⟩
  · rw [hresult] at h
    cases h
    exact .inl ⟨_, _, _, rfl⟩
  · constructor
    · rintro -
      exact ⟨before, query, [], reason, hlog, (hiff reason).mpr rfl⟩
    · rintro ⟨before', query', after, reason', hsplit, hrefuses⟩
      exact ⟨_, _, _, (hlast hsplit hrefuses).2⟩
  · rw [hresult] at h
    cases h

/-- No query is refused, and an image lies in several filesets. -/
theorem of_conflict (h : l.Sound service log) (hconflict : Conflict l failure)
    (hresult : outcome.result = .error failure) (hlog : outcome.log = l.log) :
    outcome.Explained service log := by
  obtain ⟨i, hi, hshared, rfl⟩ := hconflict
  have hunrefused : service.Unrefused log outcome.log := hlog ▸ h.unrefused
  refine ⟨fun {failure} hfail => ?_, refused_iff_of_unrefused hunrefused (by simp [hresult]),
    fun {_ _ _ _} hsplit hrefuses => absurd hrefuses (hunrefused _ _ _ _ hsplit),
    fun {image filesets} hfail => ?_⟩
  · rw [hresult] at hfail
    cases hfail
    exact .inr ⟨_, _, rfl⟩
  · rw [hresult] at hfail
    cases hfail
    rw [Cache.unshared_iff_size_le_one, Nat.not_le] at hshared
    refine ⟨hi, TargetSet.ascending _, hshared, fun F hF => ?_⟩
    obtain ⟨hiF, hFk⟩ := TargetSet.mem_ofKind.mp hF
    obtain ⟨template, ids, htemplate, hgave, hid⟩ :=
      h.founded.exists_answer ((h.founded.aligned F i).mp hiF)
    rw [h.schema, hFk, hi] at htemplate
    refine ⟨hFk, template, ids, Schema.mem_templates_of_template? htemplate, ?_, hlog ▸ hgave, hid⟩
    cases htemplate
    rfl

end Outcome.Explained

/-- Whatever the service answers, a run succeeds or fails for one of two reasons, and its log
bears out which. -/
theorem run_explained (service : QueryService) (operations : List Operation)
    (requests : List Request) (log : QueryLog) :
    (run service operations requests log).Explained service log := by
  have hfresh : Lookups.Sound service log ⟨.fresh, log⟩ := .fresh
  unfold run
  split
  · rename_i requests' cache log' hprepare
    exact .of_ok rfl (prepare_sound hprepare hfresh).unrefused
  · rename_i failure cache log' hprepare
    obtain ⟨done, operation, rest, between, n, -, hdone, hfail⟩ := prepare_eq_error hprepare
    rcases prepareFor_eq_error (prepare_sound hdone hfresh) hfail with
      ⟨m, hnm, query, reason, hstep, rfl⟩ | ⟨reached, hcollected, hconflict⟩
    · have hm := (prepare_progress hdone).trans hnm
      obtain ⟨before, hbefore⟩ := hm.grows.log
      have hschema : m.cache.schema = .standard := hm.grows.schema
      obtain ⟨hlog, hiff⟩ := QueryService.Unrefused.refuses_iff_of_puts hschema hstep
      have hunrefused := QueryService.Unrefused.self.progress rfl hm
      rw [← hbefore] at hlog hiff hunrefused
      refine .of_refused rfl hlog hunrefused fun reason' => (hiff reason').trans ?_
      exact ⟨fun h => (Except.error.inj h).symm, fun h => h ▸ rfl⟩
    · exact .of_conflict hcollected.sound hconflict rfl rfl

/-- A store that refuses to say in which filesets an image is : the first such query is the last
one of the run, and the failure names it. -/
example :
    let service := (LinkStore.empty.loadDemonstration.failOn "image_fileset").service
    let outcome := run service [.delete, .chgrp]
      [.deleteTarget ⟨.dataset, 11⟩, .chgrpTarget (.image 105) 5] []
    outcome.log = [⟨"dataset_images", 11⟩, ⟨"image_fileset", 101⟩] ∧
      outcome.result =
        .error (.query "image_fileset" 101 "query image_fileset unavailable") := by
  decide +kernel

/-- An image in two filesets : no query is refused, and those for the images of both filesets
are answered. -/
example :
    let service := (LinkStore.empty
      |>.linkAll (.fileset 1) [.image 1, .image 2]
      |>.linkAll (.fileset 2) [.image 2, .image 3]).service
    let outcome := run service [.delete] [.deleteTarget (.image 2)] []
    outcome.log =
        [⟨"image_fileset", 2⟩, ⟨"fileset_images", 1⟩, ⟨"fileset_images", 2⟩] ∧
      outcome.result = .error (.multipleFilesets (.image 2) [.fileset 1, .fileset 2]) := by
  decide +kernel

end FilesetBatch
