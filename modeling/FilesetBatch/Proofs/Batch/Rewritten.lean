import Mathlib.Data.List.Pairwise
import Mathlib.Logic.Relation
import FilesetBatch.Batch.Reached
import FilesetBatch.Proofs.Batch.OnePass

/-!
# What the one pass leaves of a batch

A request of the rewritten batch is one that all plans keep, or it is for the operation and
on a planned fileset (`mem_onePass`). So requests that all plans keep stay as they are and
where they are, as long as none of those that are put in is like them (`filter_onePass`),
and the requests for another operation stay in any case
(`filterMap_relevantTarget?_onePass`).

A planned fileset has its request at one place (`exists_split_onePass`) : nothing before it
marks the place of the plan, and nothing behind it is dropped by the plan. What the requests
touch is what they touched before (`touches_onePass`), because what a plan drops lies under
its fileset.
-/

namespace FilesetBatch

variable {ps ps' : List Plan} {p : Plan} {operation operation' : Operation}
  {requests : List Request} {r moved : Request} {t : Target} {i : Nat}

/-! ## The requests of the rewritten batch -/

theorem relevantTarget?_of_mem_putBefore (hr : (r, i) ∈ requests.zipIdx)
    (h : moved ∈ putBefore ps operation requests r i) : ∃ p ∈ ps,
      p.place? operation requests = some i ∧
        moved.relevantTarget? operation = some p.fileset := by
  obtain ⟨p, hp, hplace, hmoved⟩ := mem_putBefore.mp h
  refine ⟨p, hp, hplace, ?_⟩
  obtain ⟨hi, hmarks, -⟩ := List.findIdx?_eq_some_iff_getElem.mp hplace
  have hri : requests[i]? = some r := List.mk_mem_zipIdx_iff_getElem?.mp hr
  rw [List.getElem?_eq_getElem hi, Option.some.injEq] at hri
  rw [hri] at hmarks
  obtain ⟨t, -, ht⟩ := Plan.exists_relevantTarget?_of_marks hmarks
  rw [Request.relevantTarget?_of_retarget? hmoved,
    if_pos (Request.operation?_of_relevantTarget? ht)]

theorem mem_onePass (h : moved ∈ onePass ps operation requests) :
    (∃ p ∈ ps, moved.relevantTarget? operation = some p.fileset) ∨
      moved ∈ requests ∧ ∀ p ∈ ps, p.keeps operation moved = true := by
  rcases mem_onePassFrom h with ⟨r, j, hr, hput⟩ | hkept
  · obtain ⟨p, hp, -, hmoved⟩ := relevantTarget?_of_mem_putBefore hr hput
    exact .inl ⟨p, hp, hmoved⟩
  · exact .inr hkept

theorem filter_onePass {P : Request → Bool}
    (hput : ∀ p ∈ ps, ∀ moved, moved.relevantTarget? operation = some p.fileset → P moved = false)
    (hkept : ∀ r ∈ requests, P r = true → ∀ p ∈ ps, p.keeps operation r = true) :
    (onePass ps operation requests).filter P = requests.filter P := by
  have hone : ∀ x ∈ requests.zipIdx, (putBefore ps operation requests x.1 x.2 ++
      keptBy ps operation x.1).filter P = [x.1].filter P := by
    rintro ⟨r, j⟩ hr
    have hnone : (putBefore ps operation requests r j).filter P = [] := by
      refine List.filter_eq_nil_iff.mpr fun moved hmoved => ?_
      obtain ⟨p, hp, -, htarget⟩ := relevantTarget?_of_mem_putBefore hr hmoved
      simp [hput p hp moved htarget]
    have hsame : (keptBy ps operation r).filter P = [r].filter P := by
      rw [keptBy, List.filter_filter]
      refine List.filter_congr fun a ha => ?_
      rw [List.mem_singleton.mp ha]
      cases hP : P r with
      | false => rfl
      | true => simpa using hkept r (List.fst_mem_of_mem_zipIdx hr) hP
    rw [List.filter_append, hnone, List.nil_append, hsame]
  rw [onePass, List.filter_flatMap, List.flatMap_congr hone,
    flatMap_fst_zipIdx requests fun r => [r].filter P, ← List.filter_flatMap,
    List.flatMap_singleton']

theorem Plan.keeps_of_ne (hne : operation' ≠ operation)
    (hr : r.relevantTarget? operation' = some t) : p.keeps operation r = true := by
  by_contra hkeeps
  obtain ⟨u, -, hu⟩ := Plan.exists_relevantTarget?_of_not_keeps (by simpa using hkeeps)
  exact hne (Request.eq_of_relevantTarget? hr hu)

/-- The requests for another operation are left alone. -/
theorem filter_onePass_of_ne {P : Request → Bool} (hne : operation' ≠ operation)
    (hP : ∀ r, P r = true → ∃ t, r.relevantTarget? operation' = some t) :
    (onePass ps operation requests).filter P = requests.filter P := by
  refine filter_onePass (fun p _ moved hmoved => ?_) fun r _ hr p _ => ?_
  · by_contra hmovedP
    obtain ⟨t, ht⟩ := hP moved (by simpa using hmovedP)
    exact hne (Request.eq_of_relevantTarget? ht hmoved)
  · obtain ⟨t, ht⟩ := hP r hr
    exact Plan.keeps_of_ne hne ht

theorem filterMap_relevantTarget?_onePass (hne : operation' ≠ operation) :
    (onePass ps operation requests).filterMap (fun r => r.relevantTarget? operation') =
      requests.filterMap fun r => r.relevantTarget? operation' := by
  have hfilter : (onePass ps operation requests).filter
      (fun r => (r.relevantTarget? operation').isSome) =
        requests.filter fun r => (r.relevantTarget? operation').isSome :=
    filter_onePass_of_ne hne fun _ => Option.isSome_iff_exists.mp
  have hall : ∀ rs : List Request, rs.filterMap (fun r => r.relevantTarget? operation') =
      (rs.filter fun r => (r.relevantTarget? operation').isSome).filterMap
        fun r => r.relevantTarget? operation' := by
    intro rs
    rw [List.filterMap_filter]
    refine List.filterMap_congr fun r _ => ?_
    cases r.relevantTarget? operation' <;> simp
  rw [hall, hfilter, ← hall]

theorem mem_onePass_of_kept (hr : r ∈ requests) (hkept : ∀ p ∈ ps, p.keeps operation r = true) :
    r ∈ onePass ps operation requests := by
  obtain ⟨i, hi⟩ := List.getElem?_of_mem hr
  exact List.mem_flatMap.mpr ⟨(r, i), List.mk_mem_zipIdx_iff_getElem?.mpr hi,
    List.mem_append_right _ (mem_keptBy.mpr ⟨rfl, hkept⟩)⟩

/-! ## The request of a planned fileset -/

theorem putBefore_append : putBefore (ps ++ ps') operation requests r i =
    putBefore ps operation requests r i ++ putBefore ps' operation requests r i := by
  simp [putBefore]

/-- Away from the place of a plan, the pass leaves only what does not mark the place, and
requests of the batch that the plan keeps. -/
theorem not_marks_or_of_mem_onePassFrom {rest : List Request}
    (hfits : ∀ p ∈ ps, p.Fits operation requests) (hapart : ps.Pairwise Plan.Apart) (hp : p ∈ ps)
    (hplace : ∀ j, i ≤ j → j < i + rest.length → p.place? operation requests ≠ some j)
    (h : moved ∈ onePassFrom ps operation requests i rest) :
    p.marks operation moved = false ∨ moved ∈ rest ∧ p.keeps operation moved = true := by
  rcases mem_onePassFrom h with ⟨s, j, hs, hput⟩ | ⟨hmem, hkept⟩
  · refine .inl (marks_of_mem_putBefore (fun q hq hqj => ⟨?_, hfits q hq⟩) hput)
    refine hapart.forall hq hp ?_
    rintro rfl
    exact hplace j (List.le_snd_of_mem_zipIdx hs) (List.snd_lt_add_of_mem_zipIdx hs) hqj
  · exact .inr ⟨hmem, hkept p hp⟩

/-- A planned fileset has its request where nothing before it marks the place of the plan and
the plan drops nothing behind it. -/
theorem exists_split_onePass (hfits : ∀ p ∈ ps, p.Fits operation requests)
    (hapart : ps.Pairwise Plan.Apart) (hp : p ∈ ps) :
    ∃ before moved after, onePass ps operation requests = before ++ moved :: after ∧
      moved.relevantTarget? operation = some p.fileset ∧
      (∀ a ∈ before, p.marks operation a = false) ∧ ∀ a ∈ after, p.keeps operation a = true := by
  obtain ⟨before, r, after, rfl, hbefore, hr, hplace⟩ := (hfits p hp).exists_split
  obtain ⟨t, -, ht⟩ := Plan.exists_relevantTarget?_of_marks hr
  obtain ⟨moved, hmoved⟩ := Option.isSome_iff_exists.mp
    (Request.isSome_retarget?_of_relevantTarget? ht p.fileset)
  -- at the place itself, the plan stands between plans that are apart from it
  obtain ⟨front, back, hps⟩ := List.append_of_mem hp
  rw [hps] at hapart
  obtain ⟨-, hback, hfront⟩ := List.pairwise_append.mp hapart
  have hput : putBefore ps operation (before ++ r :: after) r before.length =
      putBefore front operation (before ++ r :: after) r before.length ++
        moved :: putBefore back operation (before ++ r :: after) r before.length := by
    rw [hps, putBefore_append]
    simp [putBefore, hplace, hmoved]
  have hfrontApart : ∀ q ∈ front, q.Apart p ∧ q.Fits operation (before ++ r :: after) :=
    fun q hq => ⟨hfront q hq p List.mem_cons_self, hfits q (by simp [hps, hq])⟩
  have hbackApart : ∀ q ∈ back, q.Apart p ∧ q.Fits operation (before ++ r :: after) :=
    fun q hq => ⟨Std.Symm.symm _ _ ((List.pairwise_cons.mp hback).1 q hq),
      hfits q (by simp [hps, hq])⟩
  rw [← hps] at hapart
  refine ⟨onePassFrom ps operation (before ++ r :: after) 0 before ++
    putBefore front operation (before ++ r :: after) r before.length, moved,
    putBefore back operation (before ++ r :: after) r before.length ++ keptBy ps operation r ++
      onePassFrom ps operation (before ++ r :: after) (before.length + 1) after,
    ?_, ?_, fun a ha => ?_, fun a ha => ?_⟩
  · rw [onePass_append_cons, hput]
    simp
  · rw [Request.relevantTarget?_of_retarget? hmoved,
      if_pos (Request.operation?_of_relevantTarget? ht)]
  · rcases List.mem_append.mp ha with ha | ha
    · refine (not_marks_or_of_mem_onePassFrom hfits hapart hp (fun j _ hj => ?_) ha).elim id
        fun ha => hbefore a ha.1
      rw [hplace, ne_eq, Option.some.injEq]
      omega
    · exact marks_of_mem_putBefore (fun q hq _ => hfrontApart q hq) ha
  · rcases List.mem_append.mp ha with ha | ha
    · rcases List.mem_append.mp ha with ha | ha
      · exact (hfits p hp).keeps_of_not_marks
          (marks_of_mem_putBefore (fun q hq _ => hbackApart q hq) ha)
      · obtain ⟨rfl, hkept⟩ := mem_keptBy.mp ha
        exact hkept p hp
    · refine (not_marks_or_of_mem_onePassFrom hfits hapart hp (fun j hj _ => ?_) ha).elim
        (hfits p hp).keeps_of_not_marks And.right
      rw [hplace, ne_eq, Option.some.injEq]
      omega

/-! ## What the requests touch -/

/-- A request for the operation is on an entity at or above this one. -/
def Touches (Above : Target → Target → Prop) (requests : List Request) (operation : Operation)
    (t : Target) : Prop :=
  ∃ d ∈ directTargets requests operation, Relation.ReflTransGen Above d t

variable {Above : Target → Target → Prop}

/-- Plans whose filesets take the place of what lies under them change nothing about what is
touched, but for the filesets themselves. -/
theorem touches_onePass (hfits : ∀ p ∈ ps, p.Fits operation requests)
    (hapart : ps.Pairwise Plan.Apart)
    (hdropped : ∀ p ∈ ps, ∀ d ∈ p.suffixes, Relation.ReflTransGen Above p.fileset d)
    (hunder : ∀ p ∈ ps, ∀ t, Relation.ReflTransGen Above p.fileset t →
      t = p.fileset ∨ Touches Above requests operation t) (ht : ∀ p ∈ ps, t ≠ p.fileset) :
    Touches Above (onePass ps operation requests) operation' t ↔
      Touches Above requests operation' t := by
  constructor
  · rintro ⟨d, hd, hpath⟩
    obtain ⟨moved, hmoved, hmovedd⟩ := mem_directTargets.mp hd
    rcases mem_onePass hmoved with ⟨p, hp, hfileset⟩ | ⟨hmoved, -⟩
    · obtain rfl := Request.eq_of_relevantTarget? hfileset hmovedd
      obtain rfl := Option.some.inj (hfileset.symm.trans hmovedd)
      exact (hunder p hp t hpath).resolve_left (ht p hp)
    · exact ⟨d, mem_directTargets.mpr ⟨moved, hmoved, hmovedd⟩, hpath⟩
  · rintro ⟨d, hd, hpath⟩
    obtain ⟨r, hr, hrd⟩ := mem_directTargets.mp hd
    by_cases hkept : ∀ p ∈ ps, p.keeps operation r = true
    · exact ⟨d, mem_directTargets.mpr ⟨r, mem_onePass_of_kept hr hkept, hrd⟩, hpath⟩
    · obtain ⟨p, hkept⟩ := not_forall.mp hkept
      obtain ⟨hp, hkeeps⟩ := not_forall.mp hkept
      obtain ⟨u, hu, hru⟩ := Plan.exists_relevantTarget?_of_not_keeps (by simpa using hkeeps)
      obtain rfl := Request.eq_of_relevantTarget? hru hrd
      obtain rfl := Option.some.inj (hru.symm.trans hrd)
      obtain ⟨before, moved, after, heq, hmoved, -⟩ := exists_split_onePass hfits hapart hp
      have hmem : moved ∈ onePass ps operation requests := by simp [heq]
      exact ⟨p.fileset, mem_directTargets.mpr ⟨moved, hmem, hmoved⟩,
        (hdropped p hp u hu).trans hpath⟩

end FilesetBatch
