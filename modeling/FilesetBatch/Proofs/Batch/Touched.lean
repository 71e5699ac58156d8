import FilesetBatch.Proofs.Batch.Failures
import FilesetBatch.Proofs.Batch.SameTargets

/-!
# A pass, told without its cache

Let a relation say what each entity contains, along the edges of the hierarchy, and let the
cache hold just that wherever contents were looked up (`Lookups.Shows`). Then the cache can
be left out of what a pass does. It reaches what its requests touch along the relation
(`Collected.mem_reached_iff_touches`), it plans for filesets of which the requests touch all
images, two at least, and that were looked up (`mem_plans_iff`), and what marks the place of
such a fileset among the reached targets is what lies above an image of it
(`mem_prefixes_iff`).

Behind the pass the requests touch what they touched before and the planned filesets besides
(`touches_onePass_iff`), and each planned fileset is treated as a whole
(`treatsWhole_onePass`). A pass all of whose filesets are treated as a whole already leaves
the batch as it is (`onePass_eq_self`).
-/

namespace FilesetBatch

variable {Above : Target → Target → Prop} {service : QueryService} {start : QueryLog}
  {requests requests' : List Request} {operation other : Operation} {reached : TargetSet}
  {ps : List Plan} {p q : Plan} {l l' : Lookups} {c d i t x F G : Target}

/-- Wherever contents were looked up, the cache holds what the relation says. -/
structure Lookups.Shows (l : Lookups) (Above : Target → Target → Prop) : Prop where
  edge : ∀ {c x}, Above c x → ⟨c.kind, x.kind⟩ ∈ hierarchy
  holds_iff : ∀ {c x}, (x.kind, c) ∈ l.cache.contentsAsked → (l.cache.Holds c x ↔ Above c x)

theorem Lookups.Founded.above (h : l.Founded service (· ∈ hierarchy) start)
    (hshows : l.Shows Above) (hx : l.cache.Holds c x) : Above c x :=
  (hshows.holds_iff (h.asked hx)).mp hx

/-- The contents of a fileset are images, which one look-up finds. -/
theorem Lookups.Shows.holds_iff_of_fileset (hshows : l.Shows Above)
    (h : l.Founded service (· ∈ hierarchy) start) (hF : F.kind = .fileset)
    (hasked : (.image, F) ∈ l.cache.contentsAsked) : l.cache.Holds F x ↔ Above F x := by
  refine ⟨h.above hshows, fun hx => (hshows.holds_iff ?_).mpr hx⟩
  have hxk : x.kind = .image := contained_of_fileset_edge (hshows.edge hx) hF
  rwa [hxk]

/-! ## What is reached -/

namespace Collected

variable (h : Collected service start (directTargets requests operation) l reached l')
  (hshows : l'.Shows Above)

include h hshows

theorem holds_of_above (hd : d ∈ reached) (hx : Above d x) : l'.cache.Holds d x :=
  (hshows.holds_iff (h.contents hd (hshows.edge hx))).mpr hx

/-- A chain from a reached target is cached. -/
theorem path_of_above (hd : d ∈ reached) (hpath : Relation.ReflTransGen Above d x) :
    Relation.ReflTransGen l'.cache.Holds d x := by
  induction hpath with
  | refl => exact .refl
  | tail _ hstep ih =>
    obtain ⟨r, hr, hrd⟩ := h.reached_iff.mp hd
    exact ih.tail (h.holds_of_above hshows (h.reached_iff.mpr ⟨r, hr, hrd.trans ih⟩) hstep)

/-- The reached targets are those that the requests touch. -/
theorem mem_reached_iff_touches : x ∈ reached ↔ Touches Above requests operation x := by
  rw [h.reached_iff]
  constructor
  · rintro ⟨d, hd, hpath⟩
    exact ⟨d, hd, Relation.ReflTransGen.mono (fun _ _ => h.sound.founded.above hshows) _ _ hpath⟩
  · rintro ⟨d, hd, hpath⟩
    exact ⟨d, hd, h.path_of_above hshows (h.reached_iff.mpr ⟨d, hd, .refl⟩) hpath⟩

end Collected

/-! ## Which filesets are planned -/

/-- A fileset with several images, all of which the requests touch. -/
structure Complete (Above : Target → Target → Prop) (requests : List Request)
    (operation : Operation) (F : Target) : Prop where
  kind : F.kind = .fileset
  several : ∃ i j, i ≠ j ∧ Above F i ∧ Above F j
  touched : ∀ i, Above F i → Touches Above requests operation i

/-- Which filesets are complete depends on which of their images are touched. -/
theorem complete_congr (htouches : ∀ i, Above F i →
    (Touches Above requests' operation i ↔ Touches Above requests operation i)) :
    Complete Above requests' operation F ↔ Complete Above requests operation F := by
  constructor
  · rintro ⟨hk, hseveral, htouched⟩
    exact ⟨hk, hseveral, fun i hi => (htouches i hi).mp (htouched i hi)⟩
  · rintro ⟨hk, hseveral, htouched⟩
    exact ⟨hk, hseveral, fun i hi => (htouches i hi).mpr (htouched i hi)⟩

/-- The requests touch something that the fileset contains. -/
def Involves (Above : Target → Target → Prop) (requests : List Request)
    (operation : Operation) (F : Target) : Prop :=
  ∃ i, Above F i ∧ Touches Above requests operation i

/-- So does which of them are involved. -/
theorem involves_congr (htouches : ∀ i, Above F i →
    (Touches Above requests' operation i ↔ Touches Above requests operation i)) :
    Involves Above requests' operation F ↔ Involves Above requests operation F :=
  exists_congr fun i => and_congr_right (htouches i)

section

variable (hcollected : Collected service start (directTargets requests operation) l reached l')
  (hplanned : Planned l'.cache reached (fun i => i ∈ reached ∧ i.kind = .image) ps)

include hcollected hplanned

theorem fits_of_planned : ∀ p ∈ ps, p.Fits operation requests :=
  hplanned.fits hcollected.sound.founded fun ht => hcollected.reached_iff.mp ht

theorem apart_of_planned : ps.Pairwise Plan.Apart :=
  hplanned.apart hcollected.sound.founded

variable (hshows : l'.Shows Above)

include hshows

theorem mem_plans_iff : p ∈ ps ↔ ∃ F, Complete Above requests operation F ∧
    (.image, F) ∈ l'.cache.contentsAsked ∧ p = .ofMembers l'.cache F (l'.cache.contained F) := by
  have hfounded := hcollected.sound.founded
  rw [hplanned.mem_iff]
  refine exists_congr fun F => ?_
  constructor
  · rintro ⟨hF, ⟨i, ⟨-, hik⟩, hiF⟩, hwhole, rfl⟩
    have hasked := hfounded.asked hiF
    rw [hik] at hasked
    have hholds : ∀ x, l'.cache.Holds F x ↔ Above F x := fun x =>
      hshows.holds_iff_of_fileset hfounded hF hasked
    obtain ⟨hsize, hreached⟩ := isWhole_iff.mp hwhole
    obtain ⟨j, hj, k, hk, hne⟩ := TargetSet.two_le_size_iff.mp hsize
    refine ⟨⟨hF, ⟨j, k, hne, (hholds j).mp hj, (hholds k).mp hk⟩, fun x hx => ?_⟩, hasked, rfl⟩
    exact (hcollected.mem_reached_iff_touches hshows).mp (hreached x ((hholds x).mpr hx))
  · rintro ⟨hcomplete, hasked, rfl⟩
    have hholds : ∀ x, l'.cache.Holds F x ↔ Above F x := fun x =>
      hshows.holds_iff_of_fileset hfounded hcomplete.kind hasked
    have hreached : ∀ x, Above F x → x ∈ reached := fun x hx =>
      (hcollected.mem_reached_iff_touches hshows).mpr (hcomplete.touched x hx)
    obtain ⟨i, j, hne, hi, hj⟩ := hcomplete.several
    have hik : i.kind = .image := contained_of_fileset_edge (hshows.edge hi) hcomplete.kind
    refine ⟨hcomplete.kind, ⟨i, ⟨hreached i hi, hik⟩, (hholds i).mpr hi⟩,
      isWhole_iff.mpr ⟨?_, fun x hx => hreached x ((hholds x).mp hx)⟩, rfl⟩
    exact TargetSet.two_le_size_iff.mpr ⟨i, (hholds i).mpr hi, j, (hholds j).mpr hj, hne⟩

theorem complete_of_mem (hp : p ∈ ps) : Complete Above requests operation p.fileset := by
  obtain ⟨F, hcomplete, -, rfl⟩ := (mem_plans_iff hcollected hplanned hshows).mp hp
  exact hcomplete

theorem asked_of_mem (hp : p ∈ ps) : (.image, p.fileset) ∈ l'.cache.contentsAsked := by
  obtain ⟨F, -, hasked, rfl⟩ := (mem_plans_iff hcollected hplanned hshows).mp hp
  exact hasked

theorem exists_mem_plans_iff : (∃ p ∈ ps, F = p.fileset) ↔
    Complete Above requests operation F ∧ (.image, F) ∈ l'.cache.contentsAsked := by
  constructor
  · rintro ⟨p, hp, rfl⟩
    exact ⟨complete_of_mem hcollected hplanned hshows hp,
      asked_of_mem hcollected hplanned hshows hp⟩
  · rintro ⟨hcomplete, hasked⟩
    exact ⟨_, (mem_plans_iff hcollected hplanned hshows).mpr ⟨F, hcomplete, hasked, rfl⟩, rfl⟩

theorem holds_fileset_iff (hp : p ∈ ps) :
    l'.cache.Holds p.fileset x ↔ Above p.fileset x := by
  have hcomplete := complete_of_mem hcollected hplanned hshows hp
  exact hshows.holds_iff_of_fileset hcollected.sound.founded hcomplete.kind
    (asked_of_mem hcollected hplanned hshows hp)

/-! ## The targets of the plans -/

theorem mem_suffixes_iff (hp : p ∈ ps) :
    d ∈ p.suffixes ↔ d = p.fileset ∨ Above p.fileset d := by
  obtain ⟨F, -, -, rfl⟩ := (mem_plans_iff hcollected hplanned hshows).mp hp
  rw [Plan.mem_suffixes_ofMembers]
  exact or_congr_right (holds_fileset_iff hcollected hplanned hshows hp)

theorem exists_above_of_mem_prefixes (hp : p ∈ ps) (ht : t ∈ p.prefixes) :
    ∃ i, Above p.fileset i ∧ Relation.ReflTransGen Above t i := by
  have hfounded := hcollected.sound.founded
  obtain ⟨F, -, -, rfl⟩ := (mem_plans_iff hcollected hplanned hshows).mp hp
  obtain ⟨i, hi, hpath⟩ := (Plan.mem_prefixes_ofMembers hfounded.aligned).mp ht
  exact ⟨i, hfounded.above hshows hi,
    Relation.ReflTransGen.mono (fun _ _ => hfounded.above hshows) _ _ hpath⟩

/-- Among the reached targets and the planned filesets, those that lie above an image of a
planned fileset mark its place. -/
theorem mem_prefixes_iff (hp : p ∈ ps) (ht : t ∈ reached ∨ ∃ q ∈ ps, t = q.fileset) :
    t ∈ p.prefixes ↔ ∃ i, Above p.fileset i ∧ Relation.ReflTransGen Above t i := by
  refine ⟨exists_above_of_mem_prefixes hcollected hplanned hshows hp, ?_⟩
  rintro ⟨i, hi, hpath⟩
  have hcached : Relation.ReflTransGen l'.cache.Holds t i := by
    rcases ht with ht | ⟨q, hq, rfl⟩
    · exact hcollected.path_of_above hshows ht hpath
    · have hqk := (complete_of_mem hcollected hplanned hshows hq).kind
      rcases eq_or_above_of_path_from_fileset hshows.edge hqk hpath with rfl | hqi
      · exact .refl
      · exact .single ((holds_fileset_iff hcollected hplanned hshows hq).mpr hqi)
  have hi := (holds_fileset_iff hcollected hplanned hshows hp).mpr hi
  obtain ⟨F, -, -, rfl⟩ := (mem_plans_iff hcollected hplanned hshows).mp hp
  exact (Plan.mem_prefixes_ofMembers hcollected.sound.founded.aligned).mpr ⟨i, hi, hcached⟩

/-! ## Behind the pass -/

/-- Behind a pass, the requests touch what they touched before, and those for its operation
the planned filesets besides. -/
theorem touches_onePass_iff : Touches Above (onePass ps operation requests) other t ↔
    Touches Above requests other t ∨ other = operation ∧ ∃ p ∈ ps, t = p.fileset := by
  by_cases hne : other = operation
  · subst hne
    have hfits := fits_of_planned hcollected hplanned
    have hapart := apart_of_planned hcollected hplanned
    by_cases ht : ∃ p ∈ ps, t = p.fileset
    · have hdirect := (mem_directTargets_onePass hfits hapart).mpr (.inl ht)
      exact ⟨fun _ => .inr ⟨rfl, ht⟩, fun _ => ⟨t, hdirect, .refl⟩⟩
    · simp only [ht, and_false, or_false]
      refine touches_onePass hfits hapart (fun p hp d hd => ?_) (fun p hp u hpath => ?_)
        fun p hp heq => ht ⟨p, hp, heq⟩
      · rcases (mem_suffixes_iff hcollected hplanned hshows hp).mp hd with rfl | hd
        · exact .refl
        · exact .single hd
      · have hcomplete := complete_of_mem hcollected hplanned hshows hp
        exact (eq_or_above_of_path_from_fileset hshows.edge hcomplete.kind hpath).imp_right
          (hcomplete.touched u)
  · simp only [Touches, directTargets_onePass_of_ne hne, hne, false_and, or_false]

end

/-- The operation has one request for this fileset, none for an image of it, and none before
it that touches an image of it. -/
def TreatsWhole (Above : Target → Target → Prop) (requests : List Request)
    (operation : Operation) (F : Target) : Prop :=
  ∃ before after, requests.filterMap (fun r => r.relevantTarget? operation) =
      before ++ F :: after ∧
    (∀ t ∈ before ++ after, t ≠ F ∧ ¬ Above F t) ∧
    ∀ t ∈ before, ∀ i, Above F i → ¬ Relation.ReflTransGen Above t i

section

variable (hcollected : Collected service start (directTargets requests operation) l reached l')
  (hplanned : Planned l'.cache reached (fun i => i ∈ reached ∧ i.kind = .image) ps)
  (hshows : l'.Shows Above)

include hcollected hplanned hshows

theorem treatsWhole_onePass (hp : p ∈ ps) :
    TreatsWhole Above (onePass ps operation requests) operation p.fileset := by
  have hfits := fits_of_planned hcollected hplanned
  have hapart := apart_of_planned hcollected hplanned
  obtain ⟨before, moved, after, heq, hmoved, hbefore, hafter⟩ :=
    exists_split_onePass hfits hapart hp
  -- neither side has a request that the plan drops
  have hkept : ∀ a ∈ before ++ after, p.keeps operation a = true := by
    intro a ha
    rcases List.mem_append.mp ha with ha | ha
    · exact (hfits p hp).keeps_of_not_marks (hbefore a ha)
    · exact hafter a ha
  refine ⟨before.filterMap fun r => r.relevantTarget? operation,
    after.filterMap fun r => r.relevantTarget? operation, ?_, fun t ht => ?_, fun t ht => ?_⟩
  · simp [heq, hmoved]
  · rw [← List.filterMap_append] at ht
    obtain ⟨a, ha, hat⟩ := List.mem_filterMap.mp ht
    have hnot := (Plan.keeps_of_relevantTarget? hat).mp (hkept a ha)
    rwa [mem_suffixes_iff hcollected hplanned hshows hp, not_or] at hnot
  · obtain ⟨a, ha, hat⟩ := List.mem_filterMap.mp ht
    intro i hi hpath
    have hdirect : t ∈ directTargets (onePass ps operation requests) operation :=
      mem_directTargets.mpr ⟨a, by simp [heq, ha], hat⟩
    have hknown : t ∈ reached ∨ ∃ q ∈ ps, t = q.fileset := by
      rcases (mem_directTargets_onePass hfits hapart).mp hdirect with hq | ⟨ht, -⟩
      · exact .inr hq
      · exact .inl (hcollected.reached_iff.mpr ⟨t, ht, .refl⟩)
    have hprefix := (mem_prefixes_iff hcollected hplanned hshows hp hknown).mpr ⟨i, hi, hpath⟩
    have hmarks := hbefore a ha
    rw [(Plan.marks_of_relevantTarget? hat).mpr hprefix] at hmarks
    cases hmarks

/-- A plan for a fileset that is treated as a whole changes nothing. -/
theorem substitute_eq_self (hp : p ∈ ps)
    (hwhole : TreatsWhole Above requests operation p.fileset) :
    p.substitute operation requests = .ok requests := by
  have hfits := fits_of_planned hcollected hplanned p hp
  obtain ⟨beforeTargets, afterTargets, htargets, hnone, hfree⟩ := hwhole
  obtain ⟨front, back, rfl, hfront, hback⟩ := List.filterMap_eq_append_iff.mp htargets
  obtain ⟨gap, moved, after, rfl, hgap, hmoved, hafter⟩ := List.filterMap_eq_cons_iff.mp hback
  -- before the request for the fileset nothing marks its place, behind it nothing is dropped
  have hbefore : ∀ a ∈ front ++ gap, p.marks operation a = false := by
    intro a ha
    by_contra hmarks
    obtain ⟨t, ht, hat⟩ := Plan.exists_relevantTarget?_of_marks (by simpa using hmarks)
    rcases List.mem_append.mp ha with ha | ha
    · obtain ⟨i, hi, hpath⟩ := exists_above_of_mem_prefixes hcollected hplanned hshows hp ht
      exact hfree t (hfront ▸ List.mem_filterMap.mpr ⟨a, ha, hat⟩) i hi hpath
    · exact absurd (hat.symm.trans (hgap a ha)) (by simp)
  have hkeeps : ∀ a ∈ after, p.keeps operation a = true := by
    intro a ha
    by_contra hkeeps
    obtain ⟨t, ht, hat⟩ := Plan.exists_relevantTarget?_of_not_keeps (by simpa using hkeeps)
    have hmem : t ∈ afterTargets := hafter ▸ List.mem_filterMap.mpr ⟨a, ha, hat⟩
    obtain ⟨hne, hnot⟩ := hnone t (List.mem_append_right _ hmem)
    exact ((mem_suffixes_iff hcollected hplanned hshows hp).mp ht).elim hne hnot
  have hmarks : p.marks operation moved = true :=
    (Plan.marks_of_relevantTarget? hmoved).mpr (hfits.suffixes _ hfits.fileset)
  have hdropped : p.keeps operation moved = false := by
    rw [Bool.eq_false_iff, ne_eq, Plan.keeps_of_relevantTarget? hmoved]
    exact fun h => h hfits.fileset
  have hsplit := Plan.substitute_eq hfits.suffixes hbefore hmarks after
  rw [Request.retarget?_self hmoved, List.filter_cons_of_neg (by simp [hdropped]),
    List.filter_eq_self.mpr hkeeps] at hsplit
  simpa using hsplit

theorem onePass_eq_self (hwhole : ∀ p ∈ ps, TreatsWhole Above requests operation p.fileset) :
    onePass ps operation requests = requests := by
  have hall : ∀ qs : List Plan, (∀ q ∈ qs, q ∈ ps) →
      substituteAll qs operation requests = .ok requests := by
    intro qs hqs
    induction qs with
    | nil => rfl
    | cons q qs ih =>
      obtain ⟨hq, hqs⟩ := List.forall_mem_cons.mp hqs
      rw [substituteAll, List.foldlM_cons,
        substitute_eq_self hcollected hplanned hshows hq (hwhole q hq)]
      exact ih hqs
  have hsame := hall ps fun _ => id
  rw [substituteAll_eq_onePass (fits_of_planned hcollected hplanned)
    (apart_of_planned hcollected hplanned)] at hsame
  exact Except.ok.inj hsame

end

end FilesetBatch
