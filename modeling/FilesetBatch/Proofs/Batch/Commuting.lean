import FilesetBatch.Proofs.Batch.OnePass

/-!
# Passes for different operations commute

A request is relevant to one operation at most. So the plans for one operation neither mark
nor drop the requests for another one, and what they put in is for their own operation. Two
passes for different operations may therefore change places, whatever their plans are
(`onePass_comm`).

The one pass counts positions, and these change when another pass puts requests in or drops
them. So it is seen here as a walk over the batch that carries the plans whose place is still
to come (`passOver`).

What a pass reads of a plan are the fileset and which requests of the batch are marked or
dropped. So it does not tell apart plans that agree in these (`onePass_congr`).
-/

namespace FilesetBatch

variable {ps qs ahead ahead' : List Plan} {p q : Plan} {operation other : Operation}
  {before rest requests xs : List Request} {r : Request}

/-! ## The pass as a walk -/

/-- Walk over a batch, with the plans whose place is still to come. -/
def passOver (plans : List Plan) (operation : Operation) :
    List Plan → List Request → List Request
  | _, [] => []
  | ahead, request :: rest =>
    (ahead.filter fun plan => plan.marks operation request).filterMap
        (fun plan => request.retarget? plan.fileset) ++
      keptBy plans operation request ++
      passOver plans operation (ahead.filter fun plan => !plan.marks operation request) rest

theorem Plan.place?_eq_some_length_iff :
    p.place? operation (before ++ r :: rest) = some before.length ↔
      (∀ a ∈ before, p.marks operation a = false) ∧ p.marks operation r = true := by
  rw [place?, List.findIdx?_append]
  cases hfound : before.findIdx? (p.marks operation) with
  | none =>
    have hbefore := List.findIdx?_eq_none_iff.mp hfound
    by_cases hr : p.marks operation r = true
    · simpa [List.findIdx?_cons, hr] using hbefore
    · rw [Option.none_or, List.findIdx?_cons, if_neg hr]
      refine iff_of_false (fun heq => ?_) fun h => hr h.2
      obtain ⟨i, hi, hlength⟩ := Option.map_eq_some_iff.mp heq
      obtain ⟨j, -, rfl⟩ := Option.map_eq_some_iff.mp hi
      omega
  | some i =>
    obtain ⟨hi, hmarks, -⟩ := List.findIdx?_eq_some_iff_getElem.mp hfound
    have hmem : before[i] ∈ before := List.getElem_mem hi
    simp only [Option.some_or, Option.some.injEq]
    constructor
    · rintro rfl
      exact absurd hi (Nat.lt_irrefl _)
    · rintro ⟨hbefore, -⟩
      exact absurd (hbefore _ hmem) (by simp [hmarks])

theorem onePassFrom_eq_passOver (before rest : List Request) :
    onePassFrom ps operation (before ++ rest) before.length rest =
      passOver ps operation (ps.filter fun p => before.all fun a => !p.marks operation a)
        rest := by
  induction rest generalizing before with
  | nil => rfl
  | cons r rest ih =>
    have hnext := ih (before ++ [r])
    rw [List.append_assoc, List.singleton_append, List.length_append, List.length_singleton]
      at hnext
    have hput : putBefore ps operation (before ++ r :: rest) r before.length =
        ((ps.filter fun p => before.all fun a => !p.marks operation a).filter
          fun p => p.marks operation r).filterMap fun p => r.retarget? p.fileset := by
      rw [putBefore, List.filter_filter]
      congr 1
      refine List.filter_congr fun p _ => ?_
      rw [Bool.eq_iff_iff, decide_eq_true_iff, Plan.place?_eq_some_length_iff]
      simp [and_comm]
    have hahead : (ps.filter fun p => before.all fun a => !p.marks operation a).filter
          (fun p => !p.marks operation r) =
        ps.filter fun p => (before ++ [r]).all fun a => !p.marks operation a := by
      rw [List.filter_filter]
      exact List.filter_congr fun p _ => by simp [Bool.and_comm]
    rw [passOver, hahead, ← hnext, ← hput]
    simp [onePassFrom]

theorem onePass_eq_passOver :
    onePass ps operation requests = passOver ps operation ps requests := by
  simpa [onePassFrom, onePass] using onePassFrom_eq_passOver [] requests

/-! ## Requests for another operation -/

theorem passOver_cons_of_irrelevant (h : r.relevantTarget? operation = none) :
    passOver ps operation ahead (r :: rest) = r :: passOver ps operation ahead rest := by
  have hmarks : ∀ p : Plan, p.marks operation r = false := fun p => by simp [Plan.marks, h]
  have hkeeps : ∀ p : Plan, p.keeps operation r = true := fun p => by simp [Plan.keeps, h]
  simp [passOver, keptBy, hmarks, hkeeps]

theorem passOver_append_of_irrelevant (h : ∀ r ∈ xs, r.relevantTarget? operation = none) :
    passOver ps operation ahead (xs ++ rest) = xs ++ passOver ps operation ahead rest := by
  induction xs with
  | nil => rfl
  | cons r xs ih =>
    obtain ⟨hr, hxs⟩ := List.forall_mem_cons.mp h
    rw [List.cons_append, passOver_cons_of_irrelevant hr, ih hxs, List.cons_append]

/-- What the walk makes of a request that is irrelevant to another operation is irrelevant to
that operation. -/
theorem exists_passOver_cons (hne : other ≠ operation) (h : r.relevantTarget? other = none) :
    ∃ xs ahead', (∀ a ∈ xs, a.relevantTarget? other = none) ∧
      ∀ rest, passOver ps operation ahead (r :: rest) =
        xs ++ passOver ps operation ahead' rest := by
  refine ⟨_, _, fun a ha => ?_, fun rest => rfl⟩
  rcases List.mem_append.mp ha with ha | ha
  · obtain ⟨p, hp, hmoved⟩ := List.mem_filterMap.mp ha
    obtain ⟨t, -, ht⟩ := Plan.exists_relevantTarget?_of_marks (List.mem_filter.mp hp).2
    rw [Request.relevantTarget?_of_retarget? hmoved, if_neg]
    rw [Request.operation?_of_relevantTarget? ht]
    exact fun heq => hne (Option.some.inj heq).symm
  · rwa [(mem_keptBy.mp ha).1]

theorem passOver_comm (hne : operation ≠ other) (requests : List Request) :
    passOver ps operation ahead (passOver qs other ahead' requests) =
      passOver qs other ahead' (passOver ps operation ahead requests) := by
  induction requests generalizing ahead ahead' with
  | nil => rfl
  | cons r rest ih =>
    by_cases hr : r.relevantTarget? operation = none
    · obtain ⟨xs, behind, hxs, hwalk⟩ := exists_passOver_cons hne hr
      rw [hwalk, passOver_append_of_irrelevant hxs, ih, passOver_cons_of_irrelevant hr, hwalk]
    · have hr : r.relevantTarget? other = none := by
        by_contra hother
        obtain ⟨t, ht⟩ := Option.ne_none_iff_exists'.mp hr
        obtain ⟨u, hu⟩ := Option.ne_none_iff_exists'.mp hother
        exact hne (Request.eq_of_relevantTarget? ht hu)
      obtain ⟨xs, behind, hxs, hwalk⟩ := exists_passOver_cons hne.symm hr
      rw [hwalk, passOver_append_of_irrelevant hxs, ← ih, passOver_cons_of_irrelevant hr, hwalk]

theorem onePass_comm (hne : operation ≠ other) :
    onePass ps operation (onePass qs other requests) =
      onePass qs other (onePass ps operation requests) := by
  simp only [onePass_eq_passOver]
  exact passOver_comm hne requests

/-! ## Plans that agree on a batch -/

namespace Plan

/-- The plans are for one fileset, and mark and keep the same requests of the batch. -/
structure Agree (operation : Operation) (requests : List Request) (p q : Plan) : Prop where
  fileset : p.fileset = q.fileset
  marks : ∀ r ∈ requests, p.marks operation r = q.marks operation r
  keeps : ∀ r ∈ requests, p.keeps operation r = q.keeps operation r

theorem Agree.place?_eq (h : Agree operation requests p q) :
    p.place? operation requests = q.place? operation requests := by
  have hmarks := h.marks
  rw [place?, place?]
  clear h
  induction requests with
  | nil => rfl
  | cons r rest ih =>
    obtain ⟨hr, hrest⟩ := List.forall_mem_cons.mp hmarks
    simp [List.findIdx?_cons, hr, ih hrest]

end Plan

theorem putBefore_congr {i : Nat} (h : List.Forall₂ (Plan.Agree operation requests) ps qs) :
    putBefore ps operation requests r i = putBefore qs operation requests r i := by
  induction h with
  | nil => rfl
  | @cons p q ps qs hpq _ ih =>
    simp only [putBefore, List.filter_cons, hpq.place?_eq] at ih ⊢
    split
    · rw [List.filterMap_cons, List.filterMap_cons, hpq.fileset, ih]
    · exact ih

theorem keptBy_congr (h : List.Forall₂ (Plan.Agree operation requests) ps qs)
    (hr : r ∈ requests) : keptBy ps operation r = keptBy qs operation r := by
  have hall : (ps.all fun p => p.keeps operation r) = qs.all fun q => q.keeps operation r := by
    induction h with
    | nil => rfl
    | cons hpq _ ih => rw [List.all_cons, List.all_cons, hpq.keeps r hr, ih]
  simp [keptBy, List.filter_cons, hall]

/-- A pass does not tell apart plans for the same filesets that agree on its batch. -/
theorem onePass_congr (hfilesets : ps.map Plan.fileset = qs.map Plan.fileset)
    (hagree : ∀ p ∈ ps, ∀ q ∈ qs, p.fileset = q.fileset → Plan.Agree operation requests p q) :
    onePass ps operation requests = onePass qs operation requests := by
  have hone : List.Forall₂ (Plan.Agree operation requests) ps qs := by
    induction ps generalizing qs with
    | nil =>
      rw [List.map_eq_nil_iff.mp hfilesets.symm]
      exact .nil
    | cons p ps ih =>
      obtain ⟨q, rest, rfl, hq, hrest⟩ := List.map_eq_cons_iff.mp hfilesets.symm
      refine .cons (hagree p (by simp) q (by simp) hq.symm) (ih hrest.symm fun p hp q hq => ?_)
      exact hagree p (List.mem_cons_of_mem _ hp) q (List.mem_cons_of_mem _ hq)
  refine List.flatMap_congr fun ⟨r, i⟩ hr => ?_
  dsimp only
  rw [putBefore_congr hone, keptBy_congr hone (List.fst_mem_of_mem_zipIdx hr)]

end FilesetBatch
