import Mathlib.Data.List.Basic
import Mathlib.Data.List.Induction
import FilesetBatch.Batch.Substitution

/-!
# All plans in one pass

Plans are carried out one after another, each on the batch that the one before it left.
`onePass` goes through the batch once instead : right before a request come the requests for
those filesets whose plans have it as the first request for one of their prefixes, in the
order of the plans, and the request itself stays if every plan keeps it.

The two agree (`substituteAll_eq_onePass`) when each plan has a place in the batch and
drops only requests that mark its place (`Plan.Fits`), and no plan drops what marks the
place of another (`Plan.Apart`). The induction adds one plan at the end. What the earlier
plans put in does not mark its place (`marks_of_mem_putBefore`), and the request that does
mark it is still there (`keptBy_of_marks`).
-/

namespace FilesetBatch

variable {plans ps : List Plan} {plan p q : Plan} {operation : Operation}
  {requests before after : List Request} {r moved : Request} {t : Target} {i : Nat}

/-! ## The reference -/

namespace Plan

/-- Whether a request marks the place of the fileset's request. -/
def marks (plan : Plan) (operation : Operation) (request : Request) : Bool :=
  match request.relevantTarget? operation with
  | some target => target ∈ plan.prefixes
  | none => false

/-- The position of the first request that marks the place of the fileset's request. -/
def place? (plan : Plan) (operation : Operation) (requests : List Request) : Option Nat :=
  requests.findIdx? (plan.marks operation)

end Plan

/-- The requests for filesets that are put right before the request at this position. -/
def putBefore (plans : List Plan) (operation : Operation) (requests : List Request)
    (request : Request) (i : Nat) : List Request :=
  (plans.filter fun plan => plan.place? operation requests = some i).filterMap
    fun plan => request.retarget? plan.fileset

/-- The request, if all plans keep it. -/
def keptBy (plans : List Plan) (operation : Operation) (request : Request) : List Request :=
  [request].filter fun request => plans.all fun plan => plan.keeps operation request

/-- Carry out all plans in one pass over the batch. -/
def onePass (plans : List Plan) (operation : Operation) (requests : List Request) :
    List Request :=
  requests.zipIdx.flatMap fun (request, i) =>
    putBefore plans operation requests request i ++ keptBy plans operation request

/-! ## Marking and keeping -/

namespace Plan

theorem marks_of_relevantTarget? (h : r.relevantTarget? operation = some t) :
    plan.marks operation r = true ↔ t ∈ plan.prefixes := by
  simp [marks, h]

theorem keeps_of_relevantTarget? (h : r.relevantTarget? operation = some t) :
    plan.keeps operation r = true ↔ t ∉ plan.suffixes := by
  simp [keeps, h]

theorem exists_relevantTarget?_of_marks (h : plan.marks operation r = true) :
    ∃ t ∈ plan.prefixes, r.relevantTarget? operation = some t := by
  unfold marks at h
  split at h
  · rename_i t ht
    exact ⟨t, by simpa using h, ht⟩
  · cases h

theorem exists_relevantTarget?_of_not_keeps (h : plan.keeps operation r = false) :
    ∃ t ∈ plan.suffixes, r.relevantTarget? operation = some t := by
  unfold keeps at h
  split at h
  · rename_i t ht
    exact ⟨t, by simpa using h, ht⟩
  · cases h

/-- The plan has a place in the batch, and whatever it drops marks that place. -/
structure Fits (plan : Plan) (operation : Operation) (requests : List Request) : Prop where
  suffixes : ∀ t ∈ plan.suffixes, t ∈ plan.prefixes
  fileset : plan.fileset ∈ plan.suffixes
  place : ∃ r ∈ requests, plan.marks operation r = true

/-- Neither plan drops what marks the place of the other. -/
def Apart (p q : Plan) : Prop :=
  (∀ t ∈ p.suffixes, t ∉ q.prefixes) ∧ ∀ t ∈ q.suffixes, t ∉ p.prefixes

instance : Std.Symm Apart := ⟨fun _ _ h => ⟨h.2, h.1⟩⟩

/-- What does not mark the place is kept, if whatever is dropped marks it. -/
theorem keeps_of_not_marks (h : ∀ t ∈ plan.suffixes, t ∈ plan.prefixes)
    (hr : plan.marks operation r = false) : plan.keeps operation r = true := by
  by_contra hkeeps
  obtain ⟨t, ht, hrt⟩ := exists_relevantTarget?_of_not_keeps (by simpa using hkeeps)
  rw [(marks_of_relevantTarget? hrt).mpr (h t ht)] at hr
  cases hr

theorem Fits.keeps_of_not_marks (h : plan.Fits operation requests)
    (hr : plan.marks operation r = false) : plan.keeps operation r = true :=
  Plan.keeps_of_not_marks h.suffixes hr

/-- A request for another fileset does not mark the place of this one. -/
theorem marks_of_retarget? (h : t ∉ plan.prefixes) (hmoved : r.retarget? t = some moved) :
    plan.marks operation moved = false := by
  by_contra hmarks
  obtain ⟨u, hu, hmovedu⟩ := exists_relevantTarget?_of_marks (by simpa using hmarks)
  rw [Request.relevantTarget?_of_retarget? hmoved] at hmovedu
  split at hmovedu
  · cases hmovedu
    exact h hu
  · cases hmovedu

/-- Requests that neither mark the place nor are dropped stay in front. -/
theorem substitute_append (hmarks : ∀ a ∈ before, plan.marks operation a = false)
    (hkeeps : ∀ a ∈ before, plan.keeps operation a = true) (requests : List Request) :
    plan.substitute operation (before ++ requests) =
      (before ++ ·) <$> plan.substitute operation requests := by
  induction before with
  | nil => simp
  | cons a before ih =>
    have hrest := ih (fun b hb => hmarks b (List.mem_cons_of_mem a hb))
      fun b hb => hkeeps b (List.mem_cons_of_mem a hb)
    have ha := hmarks a List.mem_cons_self
    have ha' := hkeeps a List.mem_cons_self
    rw [List.cons_append, substitute, hrest]
    cases hat : a.relevantTarget? operation with
    | none => cases plan.substitute operation requests <;> rfl
    | some t =>
      have htp : t ∉ plan.prefixes := by
        rw [← marks_of_relevantTarget? hat, ha]
        exact Bool.false_ne_true
      have hts : t ∉ plan.suffixes := (keeps_of_relevantTarget? hat).mp ha'
      simp only [if_neg htp, if_neg hts]
      cases plan.substitute operation requests <;> rfl

/-- At its place, the request for the fileset is put in, and from there on requests are
dropped. -/
theorem substitute_of_marks (hr : plan.marks operation r = true) :
    plan.substitute operation (r :: after) =
      .ok ((r.retarget? plan.fileset).toList ++ (r :: after).filter (plan.keeps operation)) := by
  obtain ⟨t, ht, hrt⟩ := exists_relevantTarget?_of_marks hr
  simp [substitute, hrt, ht]

/-- A plan that is carried out splits the batch at its place. -/
theorem substitute_eq (hfits : ∀ t ∈ plan.suffixes, t ∈ plan.prefixes)
    (hbefore : ∀ a ∈ before, plan.marks operation a = false)
    (hr : plan.marks operation r = true) (after : List Request) :
    plan.substitute operation (before ++ r :: after) =
      .ok (before ++ (r.retarget? plan.fileset).toList ++
        (r :: after).filter (plan.keeps operation)) := by
  rw [substitute_append hbefore fun a ha => keeps_of_not_marks hfits (hbefore a ha),
    substitute_of_marks hr, List.append_assoc]
  rfl

end Plan

/-! ## One plan more -/

theorem mem_putBefore : moved ∈ putBefore plans operation requests r i ↔
    ∃ p ∈ plans, p.place? operation requests = some i ∧ r.retarget? p.fileset = some moved := by
  simp [putBefore, and_assoc]

/-- What is put in for plans apart from this one does not mark its place. -/
theorem marks_of_mem_putBefore (h : ∀ q ∈ ps, q.place? operation requests = some i →
    q.Apart p ∧ q.Fits operation requests) (hmoved : moved ∈ putBefore ps operation requests r i) :
    p.marks operation moved = false := by
  obtain ⟨q, hq, hplace, hmoved⟩ := mem_putBefore.mp hmoved
  obtain ⟨hapart, hfits⟩ := h q hq hplace
  exact Plan.marks_of_retarget? (hapart.1 q.fileset hfits.fileset) hmoved

theorem mem_keptBy : moved ∈ keptBy plans operation r ↔
    moved = r ∧ ∀ p ∈ plans, p.keeps operation r = true := by
  simp only [keptBy, List.mem_filter, List.mem_singleton, List.all_eq_true]
  exact and_congr_right fun h => by rw [h]

/-- A request that marks the place of a plan is kept by the plans apart from it. -/
theorem keptBy_of_marks (hapart : ∀ q ∈ ps, q.Apart p) (hr : p.marks operation r = true) :
    keptBy ps operation r = [r] := by
  obtain ⟨t, ht, hrt⟩ := Plan.exists_relevantTarget?_of_marks hr
  refine List.filter_eq_self.mpr fun a ha => List.all_eq_true.mpr fun q hq => ?_
  rw [List.mem_singleton.mp ha, Plan.keeps_of_relevantTarget? hrt]
  exact fun hts => (hapart q hq).1 t hts ht

theorem putBefore_append_singleton : putBefore (ps ++ [p]) operation requests r i =
    putBefore ps operation requests r i ++
      if p.place? operation requests = some i then (r.retarget? p.fileset).toList else [] := by
  rw [putBefore, List.filter_append, List.filterMap_append, putBefore]
  congr 1
  split <;> rename_i h <;> simp [h, List.filterMap_cons]
  cases r.retarget? p.fileset <;> rfl

theorem keptBy_append_singleton : keptBy (ps ++ [p]) operation r =
    (keptBy ps operation r).filter (p.keeps operation) := by
  simp [keptBy, List.filter_filter, Bool.and_comm]

/-- A pass that does not look at positions is one over the list. -/
theorem flatMap_fst_zipIdx {α β : Type} (xs : List α) (f : α → List β) :
    (xs.zipIdx.flatMap fun (x, _) => f x) = xs.flatMap f := by
  conv_rhs => rw [← List.zipIdx_map_fst 0 xs, List.flatMap_map]

theorem onePass_nil : onePass [] operation requests = requests := by
  simpa [onePass, putBefore, keptBy] using flatMap_fst_zipIdx requests fun r => [r]

/-- The part of the pass from a position of the batch on. -/
def onePassFrom (plans : List Plan) (operation : Operation) (requests : List Request) (i : Nat)
    (rest : List Request) : List Request :=
  (rest.zipIdx i).flatMap fun (request, i) =>
    putBefore plans operation requests request i ++ keptBy plans operation request

theorem onePass_append_cons : onePass plans operation (before ++ r :: after) =
    onePassFrom plans operation (before ++ r :: after) 0 before ++
      (putBefore plans operation (before ++ r :: after) r before.length ++
        keptBy plans operation r) ++
      onePassFrom plans operation (before ++ r :: after) (before.length + 1) after := by
  simp [onePass, onePassFrom, List.zipIdx_append]

/-- What the pass leaves was put in for a plan with its place there, or was there before and
is kept by all plans. -/
theorem mem_onePassFrom {rest : List Request}
    (h : moved ∈ onePassFrom plans operation requests i rest) :
    (∃ r j, (r, j) ∈ rest.zipIdx i ∧ moved ∈ putBefore plans operation requests r j) ∨
      moved ∈ rest ∧ ∀ p ∈ plans, p.keeps operation moved = true := by
  obtain ⟨⟨r, j⟩, hr, hmoved⟩ := List.mem_flatMap.mp h
  rcases List.mem_append.mp hmoved with hmoved | hmoved
  · exact .inl ⟨r, j, hr, hmoved⟩
  · obtain ⟨rfl, hkept⟩ := mem_keptBy.mp hmoved
    exact .inr ⟨List.fst_mem_of_mem_zipIdx hr, hkept⟩

/-- Away from its place, one plan more only drops requests. -/
theorem onePassFrom_append_singleton {rest : List Request}
    (hfits : p.Fits operation requests) (hapart : ∀ q ∈ ps, q.Apart p)
    (hps : ∀ q ∈ ps, q.Fits operation requests)
    (hplace : ∀ j, i ≤ j → j < i + rest.length → p.place? operation requests ≠ some j) :
    onePassFrom (ps ++ [p]) operation requests i rest =
      (onePassFrom ps operation requests i rest).filter (p.keeps operation) := by
  rw [onePassFrom, onePassFrom, List.filter_flatMap]
  refine List.flatMap_congr fun ⟨r, j⟩ hr => ?_
  have hj := hplace j (List.le_snd_of_mem_zipIdx hr) (List.snd_lt_add_of_mem_zipIdx hr)
  have hput : ∀ moved ∈ putBefore ps operation requests r j, p.keeps operation moved = true :=
    fun moved hmoved => hfits.keeps_of_not_marks
      (marks_of_mem_putBefore (fun q hq _ => ⟨hapart q hq, hps q hq⟩) hmoved)
  dsimp only
  rw [putBefore_append_singleton, if_neg hj, List.append_nil, keptBy_append_singleton,
    List.filter_append, List.filter_eq_self.mpr hput]

section

variable {α : Type} {test : α → Bool} {xs ys : List α} {x : α} {j : Nat}
  (hxs : ∀ a ∈ xs, test a = false)

include hxs

theorem findIdx?_append_cons (hx : test x = true) :
    (xs ++ x :: ys).findIdx? test = some xs.length := by
  rw [List.findIdx?_append, List.findIdx?_eq_none_iff.mpr hxs]
  simp [List.findIdx?_cons, hx]

theorem length_le_of_findIdx?_append (h : (xs ++ ys).findIdx? test = some j) : xs.length ≤ j := by
  rw [List.findIdx?_append, List.findIdx?_eq_none_iff.mpr hxs] at h
  obtain ⟨k, -, rfl⟩ := Option.map_eq_some_iff.mp h
  exact Nat.le_add_left _ _

end

/-- The batch is split at the place of a plan. -/
theorem Plan.Fits.exists_split (h : plan.Fits operation requests) :
    ∃ before r after, requests = before ++ r :: after ∧
      (∀ a ∈ before, plan.marks operation a = false) ∧ plan.marks operation r = true ∧
      plan.place? operation requests = some before.length := by
  obtain ⟨r, hr⟩ := Option.isSome_iff_exists.mp (List.find?_isSome.mpr h.place)
  obtain ⟨hmarks, before, after, rfl, hbefore⟩ := List.find?_eq_some_iff_append.mp hr
  have hbefore : ∀ a ∈ before, plan.marks operation a = false := by simpa using hbefore
  exact ⟨before, r, after, rfl, hbefore, hmarks, findIdx?_append_cons hbefore hmarks⟩

/-- Carrying out one plan more goes one plan further in the one pass. -/
theorem substitute_onePass (hfits : p.Fits operation requests) (hapart : ∀ q ∈ ps, q.Apart p)
    (hps : ∀ q ∈ ps, q.Fits operation requests) :
    p.substitute operation (onePass ps operation requests) =
      .ok (onePass (ps ++ [p]) operation requests) := by
  obtain ⟨before, r, after, rfl, hbefore, hr, hplace⟩ := hfits.exists_split
  -- nothing before the place marks it, and the request at the place is kept by the others
  have hunmarked : ∀ a ∈ onePassFrom ps operation (before ++ r :: after) 0 before ++
      putBefore ps operation (before ++ r :: after) r before.length,
      p.marks operation a = false := by
    intro a ha
    rcases List.mem_append.mp ha with ha | hput
    · rcases mem_onePassFrom ha with ⟨s, j, -, hput⟩ | ⟨ha, -⟩
      · exact marks_of_mem_putBefore (fun q hq _ => ⟨hapart q hq, hps q hq⟩) hput
      · exact hbefore a ha
    · exact marks_of_mem_putBefore (fun q hq _ => ⟨hapart q hq, hps q hq⟩) hput
  have hkept : keptBy ps operation r = [r] := keptBy_of_marks hapart hr
  have hstart : onePassFrom (ps ++ [p]) operation (before ++ r :: after) 0 before =
      onePassFrom ps operation (before ++ r :: after) 0 before := by
    rw [onePassFrom_append_singleton hfits hapart hps fun j _ hj => ?_]
    · exact List.filter_eq_self.mpr fun a ha =>
        hfits.keeps_of_not_marks (hunmarked a (List.mem_append_left _ ha))
    · rw [hplace]
      intro heq
      cases heq
      omega
  have hend : onePassFrom (ps ++ [p]) operation (before ++ r :: after) (before.length + 1) after =
      (onePassFrom ps operation (before ++ r :: after) (before.length + 1) after).filter
        (p.keeps operation) := by
    refine onePassFrom_append_singleton hfits hapart hps fun j hj _ => ?_
    rw [hplace]
    intro heq
    cases heq
    omega
  have hsplit := Plan.substitute_eq hfits.suffixes hunmarked hr
    (onePassFrom ps operation (before ++ r :: after) (before.length + 1) after)
  rw [onePass_append_cons, hkept, onePass_append_cons, hstart, hend, putBefore_append_singleton,
    if_pos hplace, keptBy_append_singleton, hkept]
  simpa [List.append_assoc, ← List.filter_append] using hsplit

theorem substituteAll_eq_onePass (hfits : ∀ p ∈ ps, p.Fits operation requests)
    (hapart : ps.Pairwise Plan.Apart) :
    substituteAll ps operation requests = .ok (onePass ps operation requests) := by
  induction ps using List.reverseRecOn with
  | nil => rw [onePass_nil]; rfl
  | append_singleton ps p ih =>
    have hps := fun q hq => hfits q (List.mem_append_left _ hq)
    obtain ⟨hpairwise, -, hlast⟩ := List.pairwise_append.mp hapart
    rw [substituteAll, List.foldlM_append, ← substituteAll, ih hps hpairwise]
    have := substitute_onePass (hfits p (by simp)) (fun q hq => hlast q hq p (by simp)) hps
    simp [bind, Except.bind, this, pure, Except.pure]

end FilesetBatch
