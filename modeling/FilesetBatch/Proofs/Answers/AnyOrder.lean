import Mathlib.Data.List.Perm.Basic
import FilesetBatch.Proofs.Answers.Agreement
import FilesetBatch.Proofs.Batch.Commuting
import FilesetBatch.Proofs.Batch.PlanOrder

/-!
# The operations of a run in any order

Over a coherent service, a pass that succeeds makes the same of a batch whatever its cache
holds (`prepareFor_eq_rewritten`). A larger cache lets more targets mark the place of a
planned fileset, but none that the requests name, and the planned filesets are the complete
ones in any case, in the order of their images.

So a run that succeeds rewrites its batch for one operation after another
(`prepare_eq_foldl`). Rewriting for different operations commutes (`rewritten_comm`), and
rewriting once more for an operation of the run changes nothing
(`Settled.rewritten_eq_self`). Therefore runs for the same operations, in any order and with
any repetition, leave the same batch (`prepare_eq_of_same_operations`), and so do runs for
one operation at a time, each with an empty cache (`runEach_eq`).
-/

namespace FilesetBatch

variable {Above : Target → Target → Prop} {answers : Answers} {service service' : QueryService}
  {start start' log log' : QueryLog} {requests batch batch' : List Request}
  {operation other k : Operation} {operations operations' : List Operation}
  {reached reached' : TargetSet} {ps qs : List Plan} {l l' m m' : Lookups} {F : Target}

/-! ## Two passes over one batch -/

section

variable (hl : Collected service start (directTargets requests operation) l reached l')
  (hplans : plans l'.cache reached = .ok ps) (hshows : l'.Shows Above)

include hl hplans hshows

/-- Plans come in the order of the smallest entities that the relation says they contain. -/
theorem pairwise_of_shows :
    ps.Pairwise fun p q => StartsBefore Above p.fileset q.fileset := by
  have haligned := hl.sound.founded.aligned
  have hplanned := plans_spec haligned hplans
  refine (pairwise_of_plans haligned hplans).imp_of_mem ?_
  rintro p q hp hq ⟨i, hi, hbefore⟩
  refine ⟨i, (holds_fileset_iff hl hplanned hshows hp).mp hi, fun x hx => hbefore x ?_⟩
  exact (holds_fileset_iff hl hplanned hshows hq).mpr hx

variable (hm : Collected service' start' (directTargets requests operation) m reached' m')
  (hplans' : plans m'.cache reached' = .ok qs) (hshows' : m'.Shows Above)

include hm hplans' hshows'

/-- Plans for one fileset agree on the requests of the batch. -/
theorem agree_of_shows : ∀ p ∈ ps, ∀ q ∈ qs, p.fileset = q.fileset →
    Plan.Agree operation requests p q := by
  intro p hp q hq hfileset
  have hplanned := plans_spec hl.sound.founded.aligned hplans
  have hplanned' := plans_spec hm.sound.founded.aligned hplans'
  have hdirect : ∀ {r t}, r ∈ requests → r.relevantTarget? operation = some t →
      t ∈ directTargets requests operation := fun hr ht => mem_directTargets.mpr ⟨_, hr, ht⟩
  refine ⟨hfileset, fun r hr => ?_, fun r hr => ?_⟩
  · cases ht : r.relevantTarget? operation with
    | none => simp [Plan.marks, ht]
    | some t =>
      rw [Bool.eq_iff_iff, Plan.marks_of_relevantTarget? ht, Plan.marks_of_relevantTarget? ht,
        mem_prefixes_iff hl hplanned hshows hp
          (.inl (hl.reached_iff.mpr ⟨t, hdirect hr ht, .refl⟩)),
        mem_prefixes_iff hm hplanned' hshows' hq
          (.inl (hm.reached_iff.mpr ⟨t, hdirect hr ht, .refl⟩)), hfileset]
  · cases ht : r.relevantTarget? operation with
    | none => simp [Plan.keeps, ht]
    | some t =>
      rw [Bool.eq_iff_iff, Plan.keeps_of_relevantTarget? ht, Plan.keeps_of_relevantTarget? ht,
        mem_suffixes_iff hl hplanned hshows hp, mem_suffixes_iff hm hplanned' hshows' hq,
        hfileset]

/-- Two passes over one batch that plan for the same filesets make the same of it. -/
theorem onePass_eq_of_shows (hsame : ∀ F, Complete Above requests operation F →
      ((.image, F) ∈ l'.cache.contentsAsked ↔ (.image, F) ∈ m'.cache.contentsAsked)) :
    onePass ps operation requests = onePass qs operation requests := by
  have hplanned := plans_spec hl.sound.founded.aligned hplans
  have hplanned' := plans_spec hm.sound.founded.aligned hplans'
  refine onePass_congr (filesets_eq (pairwise_of_shows hl hplans hshows)
    (pairwise_of_shows hm hplans' hshows') fun F => ?_)
    (agree_of_shows hl hplans hshows hm hplans' hshows')
  rw [exists_mem_plans_iff hl hplanned hshows, exists_mem_plans_iff hm hplanned' hshows']
  exact and_congr_right (hsame F)

end

/-! ## The pass as a function of the batch -/

/-- The plans of a pass over the batch with an empty cache. -/
def freshPlans (service : QueryService) (requests : List Request) (operation : Operation) :
    List Plan :=
  match collect service requests operation ⟨.fresh, []⟩ with
  | .ok reached lookups =>
    match plans lookups.cache reached with
    | .ok ps => ps
    | .error _ => []
  | .error _ _ => []

/-- What a pass with an empty cache makes of the batch. -/
def rewritten (service : QueryService) (requests : List Request) (operation : Operation) :
    List Request :=
  onePass (freshPlans service requests operation) operation requests

theorem freshPlans_rewritten_of_ne (hne : other ≠ operation) :
    freshPlans service (rewritten service requests operation) other =
      freshPlans service requests other := by
  have hsame : directTargets (rewritten service requests operation) other =
      directTargets requests other := directTargets_onePass_of_ne hne
  rw [freshPlans, collect_congr service hsame, freshPlans]

/-- Rewriting for one operation and for another one commutes. -/
theorem rewritten_comm : rewritten service (rewritten service requests operation) other =
    rewritten service (rewritten service requests other) operation := by
  by_cases hne : operation = other
  · rw [hne]
  · rw [rewritten, freshPlans_rewritten_of_ne (Ne.symm hne), rewritten, onePass_comm (Ne.symm hne)]
    rw [rewritten, freshPlans_rewritten_of_ne hne, rewritten]

theorem foldl_rewritten_of_perm (h : operations.Perm operations') (requests : List Request) :
    operations.foldl (rewritten service) requests =
      operations'.foldl (rewritten service) requests :=
  h.foldl_eq' (fun _ _ _ _ _ => rewritten_comm) requests

theorem foldl_rewritten_eq_self (h : ∀ k ∈ operations, rewritten service batch k = batch) :
    operations.foldl (rewritten service) batch = batch := by
  induction operations with
  | nil => rfl
  | cons operation operations ih =>
    obtain ⟨hfirst, hrest⟩ := List.forall_mem_cons.mp h
    rw [List.foldl_cons, hfirst, ih hrest]

section

variable (hcoherent : answers.Coherent)

include hcoherent

/-- Whatever was looked up before, a pass that succeeds makes of its batch what one with an
empty cache makes of it. -/
theorem prepareFor_eq_rewritten (h : l.Sound (.ofAnswers answers) start)
    (heq : prepareFor (.ofAnswers answers) requests operation l = .ok batch l') :
    batch = rewritten (.ofAnswers answers) requests operation := by
  have hpassed := passed_of_prepareFor h heq
  have hfresh : Lookups.Sound (.ofAnswers answers) [] ⟨.fresh, []⟩ := .fresh
  obtain ⟨again, m', hagain⟩ := exists_prepareFor_fresh_iff.mpr ⟨hpassed.replies,
    hpassed.parted.mono (fun hF hseeks =>
      hpassed.contentsAsked_iff.mpr (.inr ⟨edge_of_fileset hF rfl, hseeks⟩)) fun _ _ => id⟩
  have hpassed' := passed_of_prepareFor hfresh hagain
  obtain ⟨reached, ps, hcollect, hplans, rfl⟩ := (prepareFor_eq_ok_iff_onePass h).mp heq
  obtain ⟨reached', qs, hcollect', hplans', -⟩ :=
    (prepareFor_eq_ok_iff_onePass hfresh).mp hagain
  have hqs : freshPlans (.ofAnswers answers) requests operation = qs := by
    simp [freshPlans, hcollect', hplans']
  rw [rewritten, hqs]
  refine onePass_eq_of_shows (collect_spec h hcollect) hplans hpassed.sound.shows_tells
    (collect_spec hfresh hcollect') hplans' hpassed'.sound.shows_tells fun F hF => ?_
  -- both passes look up a complete fileset
  have hedge := edge_of_fileset hF.kind rfl
  have hseeks := hpassed.replies.seeks_of_complete hcoherent hF
  exact iff_of_true (hpassed.contentsAsked_iff.mpr (.inr ⟨hedge, hseeks⟩))
    (hpassed'.contentsAsked_iff.mpr (.inr ⟨hedge, hseeks⟩))

/-! ## All passes -/

/-- A run that succeeds rewrites its batch for one operation after another. -/
theorem prepare_eq_foldl (h : l.Sound (.ofAnswers answers) start)
    (heq : prepare (.ofAnswers answers) operations requests l = .ok batch l') :
    batch = operations.foldl (rewritten (.ofAnswers answers)) requests := by
  induction operations generalizing requests l with
  | nil =>
    obtain ⟨rfl, rfl⟩ := LookupM.pure_eq_ok_iff.mp heq
    rfl
  | cons operation operations ih =>
    rw [prepare_cons] at heq
    obtain ⟨between, n, hfirst, heq⟩ := LookupM.bind_eq_ok_iff.mp heq
    rw [ih (prepareFor_sound hfirst h) heq, prepareFor_eq_rewritten hcoherent h hfirst,
      List.foldl_cons]

/-- Rewriting a settled batch once more changes nothing. -/
theorem Settled.rewritten_eq_self (h : Settled answers start operations batch l)
    (hk : k ∈ operations) : rewritten (.ofAnswers answers) batch k = batch := by
  have hfresh : Lookups.Sound (.ofAnswers answers) [] ⟨.fresh, []⟩ := .fresh
  have hreplies := h.replies hk
  have hknown : ∀ {F}, answers.Seeks batch k F → KnownFor answers operations batch k F := by
    intro F hseeks
    obtain ⟨front, back, hsplit⟩ := List.append_of_mem hk
    exact ⟨front, ⟨back, by simp [hsplit]⟩, k, by simp, hseeks⟩
  obtain ⟨again, m', hagain⟩ := exists_prepareFor_fresh_iff.mpr
    ⟨hreplies, (h.parted k).mono (fun _ => hknown) fun _ _ => id⟩
  have hpassed := passed_of_prepareFor hfresh hagain
  rw [← prepareFor_eq_rewritten hcoherent hfresh hagain]
  exact hpassed.eq_of_treatsWhole fun hcomplete _ =>
    h.treatsWhole hcomplete (hknown (hreplies.seeks_of_complete hcoherent hcomplete))

/-- Runs for the same operations that succeed leave the same batch. -/
theorem prepare_eq_of_same_operations (hsame : ∀ k, k ∈ operations ↔ k ∈ operations')
    (heq : prepare (.ofAnswers answers) operations requests ⟨.fresh, log⟩ = .ok batch l)
    (heq' : prepare (.ofAnswers answers) operations' requests ⟨.fresh, log'⟩ = .ok batch' l') :
    batch = batch' := by
  have hstable : ∀ {operations log batch l},
      prepare (.ofAnswers answers) operations requests ⟨.fresh, log⟩ = .ok batch l →
        ∀ k ∈ operations, rewritten (.ofAnswers answers) batch k = batch := by
    intro operations log batch l hprepare k hk
    exact (settled_of_prepare hprepare).rewritten_eq_self hcoherent hk
  calc batch = operations'.foldl (rewritten (.ofAnswers answers)) batch :=
        (foldl_rewritten_eq_self fun k hk => hstable heq k ((hsame k).mpr hk)).symm
    _ = (operations ++ operations').foldl (rewritten (.ofAnswers answers)) requests := by
        rw [List.foldl_append, ← prepare_eq_foldl hcoherent .fresh heq]
    _ = (operations' ++ operations).foldl (rewritten (.ofAnswers answers)) requests :=
        foldl_rewritten_of_perm List.perm_append_comm requests
    _ = operations.foldl (rewritten (.ofAnswers answers)) batch' := by
        rw [List.foldl_append, ← prepare_eq_foldl hcoherent .fresh heq']
    _ = batch' := foldl_rewritten_eq_self fun k hk => hstable heq' k ((hsame k).mp hk)

end

/-! ## One operation at a time -/

/-- Run for one operation after another, each time with an empty cache. -/
def runEach (service : QueryService) :
    List Operation → List Request → QueryLog → Except Failure (List Request)
  | [], requests, _ => .ok requests
  | operation :: operations, requests, log =>
    match run service [operation] requests log with
    | ⟨.ok prepared, log⟩ => runEach service operations prepared.requests log
    | ⟨.error failure, _⟩ => .error failure

/-- If nothing is wrong with the operations, each succeeds on its own. -/
theorem runEach_eq (hcoherent : answers.Coherent) (h : Agreed answers requests operations)
    (log : QueryLog) : runEach (.ofAnswers answers) operations requests log =
      .ok (operations.foldl (rewritten (.ofAnswers answers)) requests) := by
  induction operations generalizing requests log with
  | nil => rfl
  | cons operation operations ih =>
    have hfresh : Lookups.Sound (.ofAnswers answers) log ⟨.fresh, log⟩ := .fresh
    have hone : Agreed answers requests [operation] :=
      h.mono fun k hk => List.mem_cons.mpr (.inl (List.mem_singleton.mp hk))
    obtain ⟨prepared, hrun⟩ := (exists_run_iff hcoherent).mpr hone
    obtain ⟨l, hprepare⟩ := prepare_of_run_eq_ok hrun
    have hpass := prepare_singleton ▸ hprepare
    have hpassed := passed_of_prepareFor hfresh hpass
    rw [runEach, run_of_prepare_eq_ok hprepare, List.foldl_cons,
      ← prepareFor_eq_rewritten hcoherent hfresh hpass]
    exact ih (hpassed.agreed_iff.mpr (h.mono fun k hk => List.mem_cons_of_mem operation hk)) _

end FilesetBatch
