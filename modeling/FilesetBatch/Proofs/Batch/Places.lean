import FilesetBatch.Containment.LinkStore
import FilesetBatch.Proofs.Batch.Closure
import FilesetBatch.Proofs.Batch.OnePass
import FilesetBatch.Proofs.Batch.Plans

/-!
# Every plan has its place

The plans made for what a batch reaches do not meet. An image of a planned fileset lies in no
second one, nothing lies under an image, and nothing but its images under a fileset, so
neither a planned fileset nor an image of it lies above an image of another one
(`Planned.apart`). Each plan has a place : an image that is reached lies under the target of
a request, which therefore marks the place (`Planned.fits`).

So `substituteAll_plans` holds whatever the service answers : all that it takes is that what
is cached rests on answers along the hierarchy, and that is so after any number of calls of
`collect` (`Gathered.founded`), including those that failed.
-/

namespace FilesetBatch

variable {service : QueryService} {start : QueryLog} {requests : List Request}
  {operation : Operation} {reached : TargetSet} {considered : Target → Prop} {ps : List Plan}
  {l l' : Lookups} {p q : Plan}

namespace Planned

/-- What marks the place of a planned fileset is no planned fileset but this one, and no
image of another one. -/
theorem not_mem_prefixes (h : Planned l.cache reached considered ps)
    (hl : l.Founded service (· ∈ hierarchy) start) (hp : p ∈ ps) (hq : q ∈ ps)
    (hne : p.fileset ≠ q.fileset) : ∀ t ∈ p.suffixes, t ∉ q.prefixes := by
  obtain ⟨F, hF, ⟨i, hi, hiF⟩, -, rfl⟩ := h.mem_iff.mp hp
  obtain ⟨G, hG, -, -, rfl⟩ := h.mem_iff.mp hq
  intro t ht hprefix
  obtain ⟨m, hm, hpath⟩ := (Plan.mem_prefixes_ofMembers hl.aligned).mp hprefix
  have hmG : l.cache.Holds G m := hm
  have hmk : m.kind = .image := contained_of_fileset_edge (hl.edge hmG) hG
  -- whichever target `t` is, the image below it lies in both filesets
  have hmF : l.cache.Holds F m := by
    rcases Plan.mem_suffixes_ofMembers.mp ht with rfl | ht
    · rcases eq_or_above_of_path_from_fileset hl.edge hF hpath with rfl | hmF
      · rw [hF] at hmk
        cases hmk
      · exact hmF
    · have htk : t.kind = .image := contained_of_fileset_edge (hl.edge ht) hF
      exact eq_of_path_from_image hl.edge htk hpath ▸ ht
  have hunshared := (h.clean hi hF hiF m hmF).2
  exact hne (hunshared F G hF hG ((hl.aligned F m).mpr hmF) ((hl.aligned G m).mpr hmG))

theorem apart (h : Planned l.cache reached considered ps)
    (hl : l.Founded service (· ∈ hierarchy) start) : ps.Pairwise Plan.Apart :=
  h.distinct.imp_of_mem fun hp hq hne =>
    ⟨h.not_mem_prefixes hl hp hq hne, h.not_mem_prefixes hl hq hp hne.symm⟩

theorem fits (h : Planned l.cache reached (fun i => i ∈ reached ∧ i.kind = .image) ps)
    (hl : l.Founded service (· ∈ hierarchy) start)
    (hreached : ∀ {t}, t ∈ reached → ∃ d ∈ directTargets requests operation,
      Relation.ReflTransGen l.cache.Holds d t) : ∀ p ∈ ps, p.Fits operation requests := by
  intro p hp
  obtain ⟨F, hF, ⟨i, ⟨hi, -⟩, hiF⟩, -, rfl⟩ := h.mem_iff.mp hp
  refine ⟨fun t => Plan.mem_prefixes_of_mem_suffixes hl.aligned ⟨i, hiF⟩,
    Plan.mem_suffixes_ofMembers.mpr (.inl rfl), ?_⟩
  obtain ⟨d, hd, hpath⟩ := hreached hi
  obtain ⟨r, hr, hrd⟩ := mem_directTargets.mp hd
  refine ⟨r, hr, (Plan.marks_of_relevantTarget? hrd).mpr ?_⟩
  exact (Plan.mem_prefixes_ofMembers hl.aligned).mpr ⟨i, hiF, hpath⟩

end Planned

/-- The plans for what a batch reaches are carried out as in one pass. -/
theorem substituteAll_plans (hl : l'.Founded service (· ∈ hierarchy) start)
    (hcollect : collect service requests operation l = .ok reached l')
    (hplans : plans l'.cache reached = .ok ps) :
    substituteAll ps operation requests = .ok (onePass ps operation requests) := by
  have hplanned := plans_spec hl.aligned hplans
  have hfits := hplanned.fits hl fun ht => (mem_reached_iff hl hcollect).mp ht
  exact substituteAll_eq_onePass hfits (hplanned.apart hl)

/-! ## What calls of `collect` leave behind -/

/-- Only calls of `collect` have filled the cache, each for any requests and operation. -/
inductive Gathered (service : QueryService) (start : QueryLog) : Lookups → Prop
  | fresh : Gathered service start ⟨.fresh, start⟩
  | collected {requests : List Request} {operation : Operation} {reached : TargetSet}
      {l l' : Lookups} (before : Gathered service start l)
      (now : collect service requests operation l = .ok reached l') : Gathered service start l'
  | failed {requests : List Request} {operation : Operation} {failure : Failure}
      {l l' : Lookups} (before : Gathered service start l)
      (now : collect service requests operation l = .error failure l') :
      Gathered service start l'

theorem Gathered.founded (h : Gathered service start l) :
    l.Founded service (· ∈ hierarchy) start := by
  induction h with
  | fresh => exact .ofSchema .standard
  | collected _ now ih => exact ih.progress (collect_follows.ok now)
  | failed _ now ih =>
    obtain ⟨m, hm, ⟨query, reason, hstep, -⟩ | ⟨rfl, -⟩⟩ := collect_follows.error now
    · exact (ih.progress hm).puts hstep
    · exact ih.progress hm

/-- Whatever the service answers and whatever was collected before, the plans for what a
batch reaches are carried out without a failure, as in one pass over that batch. -/
theorem Gathered.substituteAll_eq (h : Gathered service start l)
    (hcollect : collect service requests operation l = .ok reached l')
    (hplans : plans l'.cache reached = .ok ps) :
    substituteAll ps operation requests = .ok (onePass ps operation requests) :=
  substituteAll_plans (h.collected hcollect).founded hcollect hplans

/-- The requests to delete both datasets and the screen of the demonstration. -/
def demonstrationBatch : List Request :=
  [.deleteTarget ⟨.dataset, 11⟩, .deleteTarget ⟨.dataset, 12⟩, .deleteTarget ⟨.screen, 2⟩]

/-- The plans for the two filesets that this batch reaches as a whole. -/
def demonstrationPlans : List Plan :=
  [⟨.fileset 1001,
      .ofList [.image 101, .image 102, .image 103, .fileset 1001, ⟨.dataset, 11⟩, ⟨.dataset, 12⟩],
      .ofList [.image 101, .image 102, .image 103, .fileset 1001]⟩,
    ⟨.fileset 1002,
      .ofList [.image 201, .image 202, .fileset 1002, ⟨.well, 211⟩, ⟨.well, 212⟩, ⟨.plate, 21⟩,
        ⟨.screen, 2⟩],
      .ofList [.image 201, .image 202, .fileset 1002]⟩]

/-- One fileset gets its request right before the first dataset, the other one right before
the screen. -/
theorem substituteAll_demonstration :
    substituteAll demonstrationPlans .delete demonstrationBatch =
      .ok [.deleteTarget (.fileset 1001), .deleteTarget ⟨.dataset, 11⟩,
        .deleteTarget ⟨.dataset, 12⟩, .deleteTarget (.fileset 1002),
        .deleteTarget ⟨.screen, 2⟩] := by
  have hplans : (match collect LinkStore.empty.loadDemonstration.service demonstrationBatch
      .delete ⟨.fresh, []⟩ with
    | .ok reached l => decide (plans l.cache reached = .ok demonstrationPlans)
    | .error _ _ => false) = true := by decide +kernel
  split at hplans
  · rename_i reached l hcollect
    have hsame := Gathered.substituteAll_eq .fresh hcollect (of_decide_eq_true hplans)
    exact hsame.trans (by decide +kernel)
  · cases hplans

end FilesetBatch
