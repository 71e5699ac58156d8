import FilesetBatch.Containment.LinkStore
import FilesetBatch.Proofs.Batch.PlanOrder
import FilesetBatch.Proofs.Containment.History

/-!
# Plans over any cache

Plans are made from what a cache holds, whichever look-ups filled it, under whichever schema,
and whether or not they failed. A cache behind look-ups is aligned, and that is all that
planning needs (`plans_afterEach`). It fails if a reached image stands in its way, and only
then : the image is in several filesets, or in one that holds something else than images or an
image of several filesets (`Cache.Obstructs`). Otherwise there is one plan for each fileset
that holds two images at least, all of them reached, and no other plan. The plans come in the
order of the smallest images and share none (`ExactPlans`).

Filesets are found by their images. One that holds no image is passed over, even if all that
it holds is reached (`fileset_of_datasets_is_passed_over`).
-/

namespace FilesetBatch

variable {cache : Cache} {reached s : TargetSet} {ps : List Plan} {p : Plan}
  {i m t F G : Target}

/-! ## Smallest members -/

namespace TargetSet

/-- The smallest member. -/
def smallest? (s : TargetSet) : Option Target :=
  s.toList.head?

theorem exists_smallest? (h : t ∈ s) : ∃ u ∈ s, s.smallest? = some u ∧ (u = t ∨ u < t) := by
  obtain ⟨us, hus⟩ := s
  cases us with
  | nil => cases h
  | cons u us =>
    refine ⟨u, List.mem_cons_self, rfl, ?_⟩
    rcases List.mem_cons.mp h with rfl | ht
    · exact .inl rfl
    · exact .inr ((List.pairwise_cons.mp hus).1 t ht)

theorem toList_eq_singleton_of_mem (hsize : s.size ≤ 1) (h : t ∈ s) : s.toList = [t] := by
  have hpos : 0 < s.toList.length := List.length_pos_of_mem h
  obtain ⟨u, hu⟩ := List.length_eq_one_iff.mp (Nat.le_antisymm hsize hpos)
  rw [mem_def, hu, List.mem_singleton] at h
  rw [hu, h]

end TargetSet

/-! ## What stands in the way of planning -/

namespace Cache

/-- The image is in several filesets, or in a single one that holds something else than
images or something that is in several filesets. -/
def Obstructs (cache : Cache) (image : Target) : Prop :=
  1 < (cache.containersOfKind image .fileset).size ∨
    ∃ F, (cache.containersOfKind image .fileset).toList = [F] ∧ ∃ m ∈ cache.contained F,
      m.kind ≠ .image ∨ 1 < (cache.containersOfKind m .fileset).size

theorem not_clean_iff : ¬ cache.Clean F ↔ ∃ m ∈ cache.contained F,
    m.kind ≠ .image ∨ 1 < (cache.containersOfKind m .fileset).size := by
  simp only [Clean, Holds, unshared_iff_size_le_one, not_forall, exists_prop, not_and_or, Nat.not_le]

theorem obstructs_iff (hcache : cache.Aligned) : cache.Obstructs i ↔
    ¬ (cache.Unshared i ∧ ∀ F, F.kind = .fileset → cache.Holds F i → cache.Clean F) := by
  rw [Obstructs, not_and_or, unshared_iff_size_le_one, Nat.not_le]
  refine or_congr_right' fun hone => ?_
  rw [Nat.not_lt] at hone
  simp only [← not_clean_iff, not_forall, exists_prop]
  constructor
  · rintro ⟨F, hF, hunclean⟩
    obtain ⟨hiF, hk⟩ := TargetSet.mem_ofKind.mp (TargetSet.mem_of_toList_eq_singleton hF)
    exact ⟨F, hk, (hcache F i).mp hiF, hunclean⟩
  · rintro ⟨F, hk, hiF, hunclean⟩
    have hF : F ∈ cache.containersOfKind i .fileset :=
      TargetSet.mem_ofKind.mpr ⟨(hcache F i).mpr hiF, hk⟩
    exact ⟨F, TargetSet.toList_eq_singleton_of_mem hone hF, hunclean⟩

end Cache

/-- Planning fails with an image that stands in its way, and with nothing else. -/
theorem plans_eq_error_iff (hcache : cache.Aligned) :
    (∃ failure, plans cache reached = .error failure) ↔
      ∃ i ∈ reached, i.kind = .image ∧ cache.Obstructs i := by
  have hfails : (∃ failure, plans cache reached = .error failure) ↔
      ¬ ∃ ps, plans cache reached = .ok ps := by
    cases plans cache reached <;> simp
  rw [hfails, exists_plans_iff hcache]
  simp only [not_forall, exists_prop, Cache.obstructs_iff hcache]

/-! ## The plans -/

theorem StartsBefore.smallest (h : StartsBefore cache.Holds F G) (hm : m ∈ cache.contained G) :
    ∃ i j, (cache.contained F).smallest? = some i ∧ (cache.contained G).smallest? = some j ∧
      i < j := by
  obtain ⟨t, ht, hbefore⟩ := h
  obtain ⟨i, -, hi, hit⟩ := TargetSet.exists_smallest? ht
  obtain ⟨j, hjG, hj, -⟩ := TargetSet.exists_smallest? hm
  refine ⟨i, j, hi, hj, ?_⟩
  rcases hit with rfl | hit
  · exact hbefore j hjG
  · exact Target.lt_trans hit (hbefore j hjG)

/-- The plans are those that the cache asks for, in this order. -/
structure ExactPlans (cache : Cache) (reached : TargetSet) (ps : List Plan) : Prop where
  /-- No two plans are for one fileset. -/
  once : (ps.map Plan.fileset).Nodup
  /-- Planned are the filesets that hold two images at least, all of them reached. -/
  mem_iff : ∀ F, F ∈ ps.map Plan.fileset ↔ F.kind = .fileset ∧
    2 ≤ (cache.contained F).size ∧ ∀ m ∈ cache.contained F, m.kind = .image ∧ m ∈ reached
  /-- The smallest images come in ascending order. -/
  ascending : ps.Pairwise fun p q => ∃ i j, (cache.contained p.fileset).smallest? = some i ∧
    (cache.contained q.fileset).smallest? = some j ∧ i < j
  /-- No image is in two of the filesets. -/
  disjoint : ps.Pairwise fun p q =>
    ∀ m ∈ cache.contained p.fileset, m ∉ cache.contained q.fileset
  /-- Dropped are the requests for the fileset and for what it holds. -/
  mem_suffixes_iff : ∀ p ∈ ps, ∀ t,
    t ∈ p.suffixes ↔ t = p.fileset ∨ t ∈ cache.contained p.fileset
  /-- The place is marked by what the fileset holds and by all that is above it. -/
  mem_prefixes_iff : ∀ p ∈ ps, ∀ t, t ∈ p.prefixes ↔ t ∈ cache.contained p.fileset ∨
    ∃ m ∈ cache.contained p.fileset, Relation.TransGen cache.Inside m t
  /-- What is dropped marks the place. -/
  suffixes_subset : ∀ p ∈ ps, ∀ t ∈ p.suffixes, t ∈ p.prefixes

/-- A plan is the one for a clean fileset that is reached as a whole. -/
theorem exists_fileset_of_mem_plans (hcache : cache.Aligned) (h : plans cache reached = .ok ps)
    (hp : p ∈ ps) : ∃ F, F.kind = .fileset ∧ cache.Clean F ∧ (∃ m, cache.Holds F m) ∧
      isWhole reached (cache.contained F) = true ∧ p = .ofMembers cache F (cache.contained F) := by
  have hplanned := plans_spec hcache h
  obtain ⟨F, hF, ⟨i, hi, hiF⟩, hwhole, rfl⟩ := hplanned.mem_iff.mp hp
  exact ⟨F, hF, hplanned.clean hi hF hiF, ⟨i, hiF⟩, hwhole, rfl⟩

theorem exactPlans_of_plans (hcache : cache.Aligned) (h : plans cache reached = .ok ps) :
    ExactPlans cache reached ps := by
  have hplanned := plans_spec hcache h
  have hshape := fun {p} => exists_fileset_of_mem_plans hcache h (p := p)
  refine ⟨List.pairwise_map.mpr hplanned.distinct, fun F => ⟨fun hF => ?_, ?_⟩, ?_, ?_,
    fun p hp t => ?_, fun p hp t => ?_, fun p hp t ht => ?_⟩
  · obtain ⟨p, hp, rfl⟩ := List.mem_map.mp hF
    obtain ⟨F, hFk, hclean, -, hwhole, rfl⟩ := hshape hp
    obtain ⟨hsize, hreached⟩ := isWhole_iff.mp hwhole
    exact ⟨hFk, hsize, fun m hm => ⟨(hclean m hm).1, hreached m hm⟩⟩
  · rintro ⟨hFk, hsize, hmembers⟩
    obtain ⟨m, hm, -⟩ := TargetSet.two_le_size_iff.mp hsize
    obtain ⟨hmk, hmreached⟩ := hmembers m hm
    have hwhole := isWhole_iff.mpr ⟨hsize, fun m hm => (hmembers m hm).2⟩
    exact List.mem_map.mpr
      ⟨_, hplanned.mem_iff.mpr ⟨F, hFk, ⟨m, ⟨hmreached, hmk⟩, hm⟩, hwhole, rfl⟩, rfl⟩
  · refine (pairwise_of_plans hcache h).imp_of_mem fun {p q} _ hq hpq => ?_
    obtain ⟨G, -, -, ⟨m, hm⟩, -, rfl⟩ := hshape hq
    exact hpq.smallest hm
  · -- an image of both filesets would be in two of them
    refine hplanned.distinct.imp_of_mem fun {p q} hp hq hne m hmp hmq => hne ?_
    obtain ⟨F, hFk, hclean, -, -, rfl⟩ := hshape hp
    obtain ⟨G, hGk, -, -, -, rfl⟩ := hshape hq
    exact (hclean m hmp).2 F G hFk hGk ((hcache F m).mpr hmp) ((hcache G m).mpr hmq)
  · obtain ⟨F, -, -, -, -, rfl⟩ := hshape hp
    exact Plan.mem_suffixes_ofMembers
  · obtain ⟨F, -, -, -, -, rfl⟩ := hshape hp
    rw [Plan.mem_prefixes_ofMembers hcache]
    simp only [Plan.fileset_ofMembers, Relation.reflTransGen_iff_eq_or_transGen, and_or_left,
      exists_or, ← hcache.transGen_inside_iff]
    simp
  · obtain ⟨F, -, -, hheld, -, rfl⟩ := hshape hp
    exact Plan.mem_prefixes_of_mem_suffixes hcache hheld ht

/-! ## Behind any row of look-ups -/

/-- Whatever was looked up, planning fails with a reached image that stands in its way, and
only then; otherwise the plans are those that the cache asks for. -/
theorem plans_afterEach (service : QueryService) (templates : List Template)
    (start : QueryLog) (lookups : List Lookup) (reached : TargetSet) :
    let cache := (afterEach service lookups ⟨.ofSchema (.ofTemplates templates), start⟩).cache
    ((∃ failure, plans cache reached = .error failure) ↔
        ∃ i ∈ reached, i.kind = .image ∧ cache.Obstructs i) ∧
      ((¬ ∃ i ∈ reached, i.kind = .image ∧ cache.Obstructs i) →
        ∃ ps, plans cache reached = .ok ps ∧ ExactPlans cache reached ps) := by
  intro cache
  have hcache : cache.Aligned :=
    (recorded_afterEach service (.ofTemplates templates) start lookups).founded.aligned
  have hfails : (∃ failure, plans cache reached = .error failure) ↔
      ∃ i ∈ reached, i.kind = .image ∧ cache.Obstructs i := plans_eq_error_iff hcache
  refine ⟨hfails, fun hfree => ?_⟩
  cases hplans : plans cache reached with
  | error failure => exact absurd (hfails.mp ⟨failure, hplans⟩) hfree
  | ok ps => exact ⟨ps, rfl, exactPlans_of_plans hcache hplans⟩

/-- Fileset 1 holds datasets 5 and 6. Both are reached, and no image stands in the way, but
there is no plan for the fileset. -/
theorem fileset_of_datasets_is_passed_over :
    let service := (LinkStore.empty.linkAll (.fileset 1) [⟨.dataset, 5⟩, ⟨.dataset, 6⟩]).service
    let templates := Template.standard ++ [⟨"fileset_datasets", .fileset, .dataset, .contained,
      "SELECT dataset FROM filesetdataset WHERE fileset = $1"⟩]
    let cache := (afterEach service [.contents .dataset (.fileset 1)]
      ⟨.ofSchema (.ofTemplates templates), []⟩).cache
    let reached := TargetSet.ofList [⟨.dataset, 5⟩, ⟨.dataset, 6⟩]
    (¬ ∃ i ∈ reached, i.kind = .image ∧ cache.Obstructs i) ∧
      2 ≤ (cache.contained (.fileset 1)).size ∧
      (∀ m ∈ cache.contained (.fileset 1), m ∈ reached) ∧ plans cache reached = .ok [] := by
  intro service templates cache reached
  have himages : ∀ i ∈ reached.toList, i.kind ≠ .image := by decide +kernel
  have hreached : ∀ m ∈ (cache.contained (.fileset 1)).toList, m ∈ reached := by decide +kernel
  refine ⟨?_, by decide +kernel, hreached, by rfl⟩
  rintro ⟨i, hi, hik, -⟩
  exact himages i hi hik

end FilesetBatch
