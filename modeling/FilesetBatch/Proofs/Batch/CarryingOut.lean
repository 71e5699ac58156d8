import FilesetBatch.Proofs.Batch.OnePass

/-!
# Carrying out any plan

A plan may come from anywhere : its prefixes and suffixes are any two sets of targets, and the
batch is any list of requests. What `Plan.carryOut` does is settled by two positions, the
place of the fileset's request (`Plan.place?`) and the first request that is dropped
(`Plan.dropped?`). If the place comes first, or is the request that is dropped, the plan is
carried out there. If the dropped request comes first, it is too early, and if there is
neither, the place is missing (`Plan.carryOut_cases`).

The batch is walked up to the first request that is one or the other (`exists_turn`).
`Plan.carryOut_fares` reads the cases as what is known of each outcome. Requests that the
operation passes over stay, all of them and in order. Plans that are carried out in place one
after another give the batch of `substituteAll` (`forM_carryOut_eq_ok_iff`).
-/

namespace FilesetBatch

variable {plan : Plan} {operation : Operation} {requests before after : List Request}
  {r moved : Request} {t : Target}

/-! ## What a request keeps and what is passed over -/

namespace Request

/-- The group to which a request moves its entity. -/
def groupId? : Request → Option Int
  | chgrp _ _ groupId _ => some groupId
  | delete .. | other _ => none

/-- The options of a request. -/
def options? : Request → Option Options
  | delete _ _ options | chgrp _ _ _ options => some options
  | other _ => none

/-- The second request is the first one on this target, with its settings. -/
structure Retargeted (r moved : Request) (target : Target) : Prop where
  target? : moved.target? = some target
  operation? : moved.operation? = r.operation?
  groupId? : moved.groupId? = r.groupId?
  options? : moved.options? = r.options?

theorem retargeted_of_retarget? (h : r.retarget? t = some moved) : r.Retargeted moved t where
  target? := target?_of_retarget? h
  operation? := operation?_of_retarget? h
  groupId? := by cases r <;> cases h <;> rfl
  options? := by cases r <;> cases h <;> rfl

/-- An operation passes over requests for something else and requests without a target. -/
theorem relevantTarget?_eq_none_iff : r.relevantTarget? operation = none ↔
    r.operation? ≠ some operation ∨ r.target? = none := by
  rw [relevantTarget?, ite_eq_right_iff, imp_iff_not_or]

end Request

namespace Plan

/-- The position of the first request that the plan drops. -/
def dropped? (plan : Plan) (operation : Operation) (requests : List Request) : Option Nat :=
  requests.findIdx? fun request => !plan.keeps operation request

/-! ## Up to the first request that matters -/

/-- Either no request marks the place or is dropped, or there is a first one that does or is. -/
theorem exists_turn (plan : Plan) (operation : Operation) (requests : List Request) :
    (∀ a ∈ requests, plan.marks operation a = false ∧ plan.keeps operation a = true) ∨
      ∃ before r after, requests = before ++ r :: after ∧
        (∀ a ∈ before, plan.marks operation a = false ∧ plan.keeps operation a = true) ∧
        (plan.marks operation r = true ∨
          plan.marks operation r = false ∧ plan.keeps operation r = false) := by
  cases hturn : requests.find? fun a => plan.marks operation a || !plan.keeps operation a with
  | none => exact .inl (by simpa using List.find?_eq_none.mp hturn)
  | some r =>
    obtain ⟨hr, before, after, rfl, hbefore⟩ := List.find?_eq_some_iff_append.mp hturn
    refine .inr ⟨before, r, after, rfl, by simpa using hbefore, ?_⟩
    cases hmarks : plan.marks operation r with
    | true => exact .inl rfl
    | false => exact .inr ⟨rfl, by simpa [hmarks] using hr⟩

/-- A request that does not mark the place and is not kept is too early in front. -/
theorem substitute_of_dropped (hmarks : plan.marks operation r = false)
    (hr : r.relevantTarget? operation = some t) (ht : t ∈ plan.suffixes) :
    plan.substitute operation (r :: after) = .error (.suffixTooEarly plan.fileset t) := by
  have htp : t ∉ plan.prefixes := by
    rw [← marks_of_relevantTarget? hr, hmarks]
    exact Bool.false_ne_true
  simp [substitute, hr, htp, ht]

/-- Whether a plan is carried out, and with what result, is settled by the place of the
fileset's request and by the first request that is dropped. -/
theorem carryOut_cases (plan : Plan) (operation : Operation) (requests : List Request) :
    (plan.place? operation requests = none ∧ plan.dropped? operation requests = none ∧
      plan.carryOut operation requests = .error (.placeMissing plan.fileset) requests) ∨
    (∃ s r t, plan.dropped? operation requests = some s ∧
      (∀ p, plan.place? operation requests = some p → s < p) ∧ requests[s]? = some r ∧
      r.relevantTarget? operation = some t ∧
      plan.carryOut operation requests = .error (.suffixTooEarly plan.fileset t) requests) ∨
    ∃ p r moved, plan.place? operation requests = some p ∧
      (∀ s, plan.dropped? operation requests = some s → p ≤ s) ∧ requests[p]? = some r ∧
      plan.marks operation r = true ∧ r.retarget? plan.fileset = some moved ∧
      plan.carryOut operation requests = .ok ()
        (requests.take p ++ moved :: (requests.drop p).filter (plan.keeps operation)) := by
  rcases plan.exists_turn operation requests with hall | ⟨before, r, after, rfl, hbefore, hr⟩
  · refine .inl ⟨?_, ?_, ?_⟩
    · exact List.findIdx?_eq_none_iff.mpr fun a ha => (hall a ha).1
    · exact List.findIdx?_eq_none_iff.mpr fun a ha => by simp [(hall a ha).2]
    · have happend := substitute_append (fun a ha => (hall a ha).1)
        (fun a ha => (hall a ha).2) []
      rw [List.append_nil] at happend
      rw [carryOut, happend]
      rfl
  have hmarks : ∀ a ∈ before, plan.marks operation a = false := fun a ha => (hbefore a ha).1
  have hkeeps : ∀ a ∈ before, (!plan.keeps operation a) = false := fun a ha => by
    simp [(hbefore a ha).2]
  have happend := substitute_append hmarks (fun a ha => (hbefore a ha).2) (r :: after)
  rcases hr with hr | ⟨hr, hdropped⟩
  · obtain ⟨t, -, hrt⟩ := exists_relevantTarget?_of_marks hr
    obtain ⟨moved, hmoved⟩ := Option.isSome_iff_exists.mp
      (Request.isSome_retarget?_of_relevantTarget? hrt plan.fileset)
    refine .inr (.inr ⟨before.length, r, moved, findIdx?_append_cons hmarks hr,
      fun s hs => length_le_of_findIdx?_append hkeeps hs, by simp, hr, hmoved, ?_⟩)
    rw [carryOut, happend, substitute_of_marks hr, hmoved]
    simp
  · obtain ⟨t, ht, hrt⟩ := exists_relevantTarget?_of_not_keeps hdropped
    refine .inr (.inl ⟨before.length, r, t, findIdx?_append_cons hkeeps (by simp [hdropped]),
      fun p hp => ?_, by simp, hrt, ?_⟩)
    · -- the place is behind this request, which does not mark it
      have hmarks' : ∀ a ∈ before ++ [r], plan.marks operation a = false :=
        List.forall_mem_append.mpr ⟨hmarks, by simpa using hr⟩
      rw [place?, List.append_cons] at hp
      exact Nat.lt_of_lt_of_le (by simp) (length_le_of_findIdx?_append hmarks' hp)
    · rw [carryOut, happend, substitute_of_dropped hr hrt ht]
      rfl

/-! ## The outcomes -/

/-- What carrying out a plan does to a batch. -/
structure Fares (plan : Plan) (operation : Operation) (requests : List Request) : Prop where
  /-- The first request that is dropped is too early exactly if no place comes before it and
  it is none itself. -/
  tooEarly_iff : ∀ F t, (∃ left, plan.carryOut operation requests =
      .error (.suffixTooEarly F t) left) ↔
    F = plan.fileset ∧ ∃ s r, plan.dropped? operation requests = some s ∧
      requests[s]? = some r ∧ r.relevantTarget? operation = some t ∧
      ∀ p, plan.place? operation requests = some p → s < p
  /-- The place is missing exactly if no request marks it and none is dropped. -/
  missing_iff : ∀ F, (∃ left, plan.carryOut operation requests =
      .error (.placeMissing F) left) ↔
    F = plan.fileset ∧ plan.place? operation requests = none ∧
      plan.dropped? operation requests = none
  /-- There is no other failure, and the batch stays as it was. -/
  failure : ∀ failure left, plan.carryOut operation requests = .error failure left →
    left = requests ∧ (failure = .placeMissing plan.fileset ∨
      ∃ t, failure = .suffixTooEarly plan.fileset t)
  /-- Otherwise the fileset's request is put in at its place, with the settings of the request
  there, and requests are dropped from there on. -/
  ok : ∀ p, plan.place? operation requests = some p →
    (∀ s, plan.dropped? operation requests = some s → p ≤ s) →
    ∃ r moved, requests[p]? = some r ∧ r.Retargeted moved plan.fileset ∧
      plan.carryOut operation requests = .ok ()
        (requests.take p ++ moved :: (requests.drop p).filter (plan.keeps operation))
  /-- The requests for something else and those without a target are all those from before. -/
  passed : ∀ left, plan.carryOut operation requests = .ok () left →
    (left.filter fun r => r.operation? ≠ some operation ∨ r.target? = none) =
      requests.filter fun r => r.operation? ≠ some operation ∨ r.target? = none

namespace Fares

variable {p s : Nat}

theorem of_missing (hplace : plan.place? operation requests = none)
    (hdropped : plan.dropped? operation requests = none)
    (heq : plan.carryOut operation requests = .error (.placeMissing plan.fileset) requests) :
    plan.Fares operation requests where
  tooEarly_iff F t := by simp [heq, hdropped]
  missing_iff F := by simp [heq, hplace, hdropped, eq_comm]
  failure failure left h := by
    rw [heq] at h
    cases h
    exact ⟨rfl, .inl rfl⟩
  ok p hp := by simp [hplace] at hp
  passed left h := by simp [heq] at h

theorem of_tooEarly (hdropped : plan.dropped? operation requests = some s)
    (hplace : ∀ p, plan.place? operation requests = some p → s < p)
    (hr : requests[s]? = some r) (hrt : r.relevantTarget? operation = some t)
    (heq : plan.carryOut operation requests =
      .error (.suffixTooEarly plan.fileset t) requests) : plan.Fares operation requests where
  tooEarly_iff F u := by
    constructor
    · rintro ⟨left, h⟩
      rw [heq] at h
      cases h
      exact ⟨rfl, s, r, hdropped, hr, hrt, hplace⟩
    · rintro ⟨rfl, s', r', hs', hr', hrt', -⟩
      obtain rfl := Option.some.inj (hdropped.symm.trans hs')
      obtain rfl := Option.some.inj (hr.symm.trans hr')
      obtain rfl := Option.some.inj (hrt.symm.trans hrt')
      exact ⟨requests, heq⟩
  missing_iff F := by simp [heq, hdropped]
  failure failure left h := by
    rw [heq] at h
    cases h
    exact ⟨rfl, .inr ⟨t, rfl⟩⟩
  ok p hp hfirst := absurd (hplace p hp) (Nat.not_lt.mpr (hfirst s hdropped))
  passed left h := by simp [heq] at h

theorem of_ok (hplace : plan.place? operation requests = some p)
    (hdropped : ∀ s, plan.dropped? operation requests = some s → p ≤ s)
    (hr : requests[p]? = some r) (hmarks : plan.marks operation r = true)
    (hmoved : r.retarget? plan.fileset = some moved)
    (heq : plan.carryOut operation requests = .ok ()
      (requests.take p ++ moved :: (requests.drop p).filter (plan.keeps operation))) :
    plan.Fares operation requests where
  tooEarly_iff F t := by
    constructor
    · rintro ⟨left, h⟩
      simp [heq] at h
    · rintro ⟨-, s, -, hs, -, -, hbefore⟩
      exact absurd (hbefore p hplace) (Nat.not_lt.mpr (hdropped s hs))
  missing_iff F := by simp [heq, hplace]
  failure failure left h := by simp [heq] at h
  ok p' hp' _ := by
    obtain rfl := Option.some.inj (hplace.symm.trans hp')
    exact ⟨r, moved, hr, Request.retargeted_of_retarget? hmoved, heq⟩
  passed left h := by
    rw [heq] at h
    cases h
    obtain ⟨t, -, hrt⟩ := exists_relevantTarget?_of_marks hmarks
    have hnew : moved.relevantTarget? operation ≠ none := by
      rw [Request.relevantTarget?_of_retarget? hmoved,
        if_pos (Request.operation?_of_relevantTarget? hrt)]
      exact Option.some_ne_none _
    simp only [← Request.relevantTarget?_eq_none_iff]
    rw [List.filter_append, List.filter_cons_of_neg (by simpa using hnew), List.filter_filter]
    conv_rhs => rw [← List.take_append_drop p requests, List.filter_append]
    refine congrArg _ (List.filter_congr fun a _ => ?_)
    cases ha : a.relevantTarget? operation <;> simp [keeps, ha]

end Fares

/-- Whatever the prefixes and suffixes of a plan are and whatever the batch, the place of the
fileset's request and the first request that is dropped settle how the plan fares. -/
theorem carryOut_fares (plan : Plan) (operation : Operation) (requests : List Request) :
    plan.Fares operation requests := by
  rcases plan.carryOut_cases operation requests with ⟨hplace, hdropped, heq⟩ |
    ⟨s, r, t, hdropped, hplace, hr, hrt, heq⟩ |
    ⟨p, r, moved, hplace, hdropped, hr, hmarks, hmoved, heq⟩
  · exact .of_missing hplace hdropped heq
  · exact .of_tooEarly hdropped hplace hr hrt heq
  · exact .of_ok hplace hdropped hr hmarks hmoved heq

end Plan

/-! ## One plan after another -/

/-- To carry out plans in place, one after another, is to carry them all out. -/
theorem forM_carryOut_eq_ok_iff {plans : List Plan} :
    (plans.forM fun plan => plan.carryOut operation) requests = .ok () after ↔
      substituteAll plans operation requests = .ok after := by
  induction plans generalizing requests with
  | nil => simp [substituteAll, List.forM, pure, EStateM.pure, Except.pure]
  | cons plan plans ih =>
    have hcons : ((plan :: plans).forM fun plan => plan.carryOut operation) =
        plan.carryOut operation >>= fun _ => plans.forM fun plan => plan.carryOut operation := rfl
    rw [hcons, substituteAll, List.foldlM_cons]
    cases hfirst : plan.substitute operation requests with
    | error failure => simp [bind, EStateM.bind, Plan.carryOut, hfirst, Except.bind]
    | ok between =>
      simpa [bind, EStateM.bind, Plan.carryOut, hfirst, Except.bind, substituteAll] using ih

end FilesetBatch
