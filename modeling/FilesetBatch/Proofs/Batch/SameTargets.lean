import FilesetBatch.Proofs.Batch.Failures
import FilesetBatch.Proofs.Batch.Rewritten

/-!
# Batches that name the same targets

A pass reads a batch only through the targets that its requests name for the operation : for
batches that name the same ones it puts the same queries, makes the same plans and ends in
the same state (`prepareFor_congr`). The rewritten batches name the same targets again, for
every operation for which the batches did, because the planned filesets take the place of
the targets that the plans drop (`mem_directTargets_onePass`). So two runs on such batches
stay in step from pass to pass, whatever the service answers (`run_congr`) : order and
repetition of the requests, their settings, and requests that name no target for a prepared
operation do not show in the queries, in a failure or in the counts.
-/

namespace FilesetBatch

variable {service : QueryService} {start : QueryLog} {ps : List Plan} {l l' : Lookups}
  {requests requests' batch : List Request} {operation other : Operation}
  {operations all : List Operation} {reached : TargetSet} {failure : Failure} {t : Target}

/-! ## The targets that a rewritten batch names -/

theorem mem_directTargets_onePass (hfits : ∀ p ∈ ps, p.Fits operation requests)
    (hapart : ps.Pairwise Plan.Apart) :
    t ∈ directTargets (onePass ps operation requests) operation ↔
      (∃ p ∈ ps, t = p.fileset) ∨
        t ∈ directTargets requests operation ∧ ∀ p ∈ ps, t ∉ p.suffixes := by
  constructor
  · intro ht
    obtain ⟨moved, hmoved, hmovedt⟩ := mem_directTargets.mp ht
    rcases mem_onePass hmoved with ⟨p, hp, hfileset⟩ | ⟨hmem, hkept⟩
    · exact .inl ⟨p, hp, Option.some.inj (hmovedt.symm.trans hfileset)⟩
    · exact .inr ⟨mem_directTargets.mpr ⟨moved, hmem, hmovedt⟩,
        fun p hp => (Plan.keeps_of_relevantTarget? hmovedt).mp (hkept p hp)⟩
  · rintro (⟨p, hp, rfl⟩ | ⟨ht, hkept⟩)
    · obtain ⟨before, moved, after, heq, hmoved, -⟩ := exists_split_onePass hfits hapart hp
      exact mem_directTargets.mpr ⟨moved, by simp [heq], hmoved⟩
    · obtain ⟨r, hr, hrt⟩ := mem_directTargets.mp ht
      refine mem_directTargets.mpr ⟨r, mem_onePass_of_kept hr fun p hp => ?_, hrt⟩
      exact (Plan.keeps_of_relevantTarget? hrt).mpr (hkept p hp)

theorem directTargets_onePass_of_ne (hne : other ≠ operation) :
    directTargets (onePass ps operation requests) other = directTargets requests other := by
  rw [directTargets, filterMap_relevantTarget?_onePass hne, directTargets]

/-! ## One pass -/

theorem collect_congr (service : QueryService)
    (h : directTargets requests operation = directTargets requests' operation) :
    collect service requests operation = collect service requests' operation := by
  rw [collect, h, collect]

/-- What a pass that succeeds has collected and planned. -/
theorem prepareFor_eq_ok_iff_onePass (h : l.Sound service start) :
    prepareFor service requests operation l = .ok batch l' ↔
      ∃ reached ps, collect service requests operation l = .ok reached l' ∧
        plans l'.cache reached = .ok ps ∧ batch = onePass ps operation requests := by
  rw [prepareFor_eq_ok_iff]
  refine exists_congr fun reached => exists_congr fun ps => and_congr_right fun hcollect =>
    and_congr_right fun hplans => ?_
  rw [substituteAll_plans (collect_spec h hcollect).sound.founded hcollect hplans]
  exact ⟨fun heq => (Except.ok.inj heq).symm, fun heq => congrArg _ heq.symm⟩

/-- A pass fails where it collects or where it plans. -/
theorem prepareFor_eq_error_iff (h : l.Sound service start) :
    prepareFor service requests operation l = .error failure l' ↔
      collect service requests operation l = .error failure l' ∨
        ∃ reached, collect service requests operation l = .ok reached l' ∧
          plans l'.cache reached = .error failure := by
  rw [prepareFor, LookupM.bind_eq_error_iff]
  refine or_congr_right (exists_congr fun reached => ?_)
  constructor
  · rintro ⟨m, hcollect, heq⟩
    rw [LookupM.get_bind, LookupM.bind_eq_error_iff] at heq
    rcases heq with hfailed | ⟨ps, n, hplanned, hsubstitute⟩
    · obtain ⟨hplans, rfl⟩ := LookupM.ofExcept_eq_error_iff.mp hfailed
      exact ⟨hcollect, hplans⟩
    · obtain ⟨hplans, rfl⟩ := LookupM.ofExcept_eq_ok_iff.mp hplanned
      obtain ⟨hnone, rfl⟩ := LookupM.ofExcept_eq_error_iff.mp hsubstitute
      rw [substituteAll_plans (collect_spec h hcollect).sound.founded hcollect hplans] at hnone
      cases hnone
  · rintro ⟨hcollect, hplans⟩
    refine ⟨l', hcollect, ?_⟩
    rw [LookupM.get_bind]
    exact LookupM.bind_eq_error_iff.mpr (.inl (LookupM.ofExcept_eq_error_iff.mpr ⟨hplans, rfl⟩))

/-- Passes over batches that name the same targets end alike, in the same state, and what
the batches name for any operation stays the same. -/
theorem prepareFor_congr (h : l.Sound service start)
    (hsame : directTargets requests operation = directTargets requests' operation) :
    (∃ failure l', prepareFor service requests operation l = .error failure l' ∧
        prepareFor service requests' operation l = .error failure l') ∨
      ∃ batch batch' l', prepareFor service requests operation l = .ok batch l' ∧
        prepareFor service requests' operation l = .ok batch' l' ∧
        ∀ other, directTargets requests other = directTargets requests' other →
          directTargets batch other = directTargets batch' other := by
  have hcollect' := collect_congr service hsame
  cases hfirst : prepareFor service requests operation l with
  | error failure l' =>
    rw [prepareFor_eq_error_iff h, hcollect', ← prepareFor_eq_error_iff h] at hfirst
    exact .inl ⟨failure, l', rfl, hfirst⟩
  | ok batch l' =>
    obtain ⟨reached, ps, hcollect, hplans, rfl⟩ := (prepareFor_eq_ok_iff_onePass h).mp hfirst
    refine .inr ⟨_, onePass ps operation requests', l', rfl,
      (prepareFor_eq_ok_iff_onePass h).mpr ⟨reached, ps, hcollect' ▸ hcollect, hplans, rfl⟩, ?_⟩
    intro other hother
    by_cases hne : other = operation
    · have hfounded := (collect_spec h hcollect).sound.founded
      have hplanned := plans_spec hfounded.aligned hplans
      have hapart := hplanned.apart hfounded
      have hfits : ∀ batch, directTargets batch operation = directTargets requests operation →
          ∀ p ∈ ps, p.Fits operation batch := fun batch hbatch => hplanned.fits hfounded
        fun ht => hbatch ▸ (mem_reached_iff hfounded hcollect).mp ht
      subst hne
      ext t
      rw [mem_directTargets_onePass (hfits _ rfl) hapart,
        mem_directTargets_onePass (hfits _ hsame.symm) hapart, hsame]
    · rw [directTargets_onePass_of_ne hne, directTargets_onePass_of_ne hne, hother]

/-! ## All passes -/

theorem prepare_congr (h : l.Sound service start) (hall : ∀ k ∈ operations, k ∈ all)
    (hsame : ∀ k ∈ all, directTargets requests k = directTargets requests' k) :
    (∃ failure l', prepare service operations requests l = .error failure l' ∧
        prepare service operations requests' l = .error failure l') ∨
      ∃ batch batch' l', prepare service operations requests l = .ok batch l' ∧
        prepare service operations requests' l = .ok batch' l' ∧
        ∀ k ∈ all, directTargets batch k = directTargets batch' k := by
  induction operations generalizing requests requests' l with
  | nil => exact .inr ⟨requests, requests', l, rfl, rfl, hsame⟩
  | cons operation operations ih =>
    simp only [prepare_cons, LookupM.bind_eq_error_iff, LookupM.bind_eq_ok_iff]
    rcases prepareFor_congr h (hsame operation (hall operation List.mem_cons_self)) with
      ⟨failure, l', hfail, hfail'⟩ | ⟨between, between', m, hpass, hpass', htargets⟩
    · exact .inl ⟨failure, l', .inl hfail, .inl hfail'⟩
    · rcases ih (prepareFor_sound hpass h) (fun k hk => hall k (List.mem_cons_of_mem operation hk))
        (fun k hk => htargets k (hsame k hk)) with
        ⟨failure, l', hfail, hfail'⟩ | ⟨batch, batch', l', hrest, hrest', hend⟩
      · exact .inl ⟨failure, l', .inr ⟨between, m, hpass, hfail⟩,
          .inr ⟨between', m, hpass', hfail'⟩⟩
      · exact .inr ⟨batch, batch', l', ⟨between, m, hpass, hrest⟩,
          ⟨between', m, hpass', hrest'⟩, hend⟩

/-- Runs on batches that name the same targets for each operation put the same queries in
the same order. They fail with the same failure, or both succeed, with the same counts and
with batches that name the same targets for each operation again. -/
theorem run_congr (service : QueryService) (log : QueryLog)
    (hsame : ∀ k ∈ operations, directTargets requests k = directTargets requests' k) :
    (run service operations requests log).log = (run service operations requests' log).log ∧
      ((∃ failure, (run service operations requests log).result = .error failure ∧
          (run service operations requests' log).result = .error failure) ∨
        ∃ prepared prepared', (run service operations requests log).result = .ok prepared ∧
          (run service operations requests' log).result = .ok prepared' ∧
          prepared.imageCount = prepared'.imageCount ∧
          prepared.containerCount = prepared'.containerCount ∧
          ∀ k ∈ operations,
            directTargets prepared.requests k = directTargets prepared'.requests k) := by
  have hfresh : Lookups.Sound service log ⟨.fresh, log⟩ := .fresh
  rcases prepare_congr hfresh (fun _ => id) hsame with
    ⟨failure, l', hfail, hfail'⟩ | ⟨batch, batch', l', hdone, hdone', htargets⟩
  · simp only [run, hfail, hfail']
    exact ⟨trivial, .inl ⟨failure, rfl, rfl⟩⟩
  · simp only [run, hdone, hdone']
    exact ⟨trivial, .inr ⟨_, _, rfl, rfl, rfl, rfl, htargets⟩⟩

/-- To delete dataset 11 and image 103 of the demonstration takes five queries, finds three
images in two containers and leaves a request for fileset 1001 and one for the dataset. The
same with a request repeated, with settings, in another order and among requests that delete
no known entity puts the same queries, has the same counts and deletes the same targets. -/
theorem run_congr_demonstration :
    let service := LinkStore.empty.loadDemonstration.service
    let requests := [.deleteTarget ⟨.dataset, 11⟩, .deleteTarget (.image 103)]
    let requests' := [.other "note", .delete "/Image" 103 (.set ∅ "reason" "old"),
      .chgrpTarget (.image 105) 5, .deleteTarget ⟨.dataset, 11⟩, .delete "/Roi" 3 ∅,
      .deleteTarget (.image 103)]
    let queries : QueryLog := [⟨"dataset_images", 11⟩, ⟨"image_fileset", 101⟩,
      ⟨"fileset_images", 1001⟩, ⟨"image_fileset", 102⟩, ⟨"image_fileset", 103⟩]
    (∀ k ∈ [Operation.delete], directTargets requests k = directTargets requests' k) ∧
      run service [.delete] requests [] =
        ⟨.ok ⟨[.deleteTarget (.fileset 1001), .deleteTarget ⟨.dataset, 11⟩], 3, 2⟩, queries⟩ ∧
      ∃ batch, run service [.delete] requests' [] = ⟨.ok ⟨batch, 3, 2⟩, queries⟩ ∧
        directTargets batch .delete = .ofList [.fileset 1001, ⟨.dataset, 11⟩] := by
  intro service requests requests' queries
  have hsame : ∀ k ∈ [Operation.delete], directTargets requests k = directTargets requests' k := by
    decide +kernel
  have hresult : (run service [.delete] requests []).result =
      .ok ⟨[.deleteTarget (.fileset 1001), .deleteTarget ⟨.dataset, 11⟩], 3, 2⟩ := by
    decide +kernel
  have hlog : (run service [.delete] requests []).log = queries := by decide +kernel
  obtain ⟨hsamelog, ⟨failure, hfail, -⟩ |
    ⟨first, ⟨batch, images, containers⟩, hfirst, hsecond, himages, hcontainers, htargets⟩⟩ :=
      run_congr service [] hsame
  · rw [hresult] at hfail
    nomatch hfail
  · obtain rfl := Except.ok.inj (hresult.symm.trans hfirst)
    obtain rfl : 3 = images := himages
    obtain rfl : 2 = containers := hcontainers
    refine ⟨hsame, by rw [← hresult, ← hlog], batch, by rw [← hsecond, ← hlog, hsamelog], ?_⟩
    rw [← htargets .delete List.mem_cons_self]
    decide +kernel

end FilesetBatch
