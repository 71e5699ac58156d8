import FilesetBatch.Proofs.Answers.Told

/-!
# Runs over fixed answers do not see the log

A service with fixed answers does not look at the queries that were put to it before, and
nothing else reads the log either. So a computation that puts queries to such a service does
the same from a longer log, and adds the same queries to it (`LookupM.LogBlind`). In
particular a run ends alike after any queries (`run_ofAnswers_after`).
-/

namespace FilesetBatch

variable {answers : Answers} {α β : Type}

/-- The same cache, with these queries before those of the log. -/
def Lookups.behind (start : QueryLog) (l : Lookups) : Lookups :=
  ⟨l.cache, start ++ l.log⟩

namespace LookupM

/-- The same outcome, with these queries before those of the log. -/
def behind (start : QueryLog) :
    EStateM.Result Failure Lookups α → EStateM.Result Failure Lookups α
  | .ok a l => .ok a (l.behind start)
  | .error failure l => .error failure (l.behind start)

/-- What stands in the log before does not matter to the computation. -/
def LogBlind (program : LookupM α) : Prop :=
  ∀ start l, program (l.behind start) = behind start (program l)

namespace LogBlind

theorem pure (a : α) : (Pure.pure a : LookupM α).LogBlind :=
  fun _ _ => rfl

theorem ofExcept (x : Except Failure α) : (MonadExcept.ofExcept x : LookupM α).LogBlind := by
  cases x <;> exact fun _ _ => rfl

theorem bind {program : LookupM α} {next : α → LookupM β} (h : program.LogBlind)
    (hnext : ∀ a, (next a).LogBlind) : (program >>= next).LogBlind := by
  intro start l
  simp only [Bind.bind, EStateM.bind, h start l]
  cases program l with
  | ok a m => exact hnext a start m
  | error failure m => rfl

/-- A computation may look at the cache. -/
theorem get {next : Lookups → LookupM α} (hcache : ∀ start l, next (l.behind start) = next l)
    (hnext : ∀ l, (next l).LogBlind) : (MonadState.get >>= next).LogBlind := by
  intro start l
  exact (congrFun (hcache start l) _).trans (hnext l start l)

theorem forM {f : α → LookupM PUnit} (xs : List α) (h : ∀ x, (f x).LogBlind) :
    (xs.forM f).LogBlind := by
  induction xs with
  | nil => exact .pure _
  | cons x xs ih => exact .bind (h x) fun _ => ih

theorem foldlM {f : β → α → LookupM β} (xs : List α) (b : β) (h : ∀ b x, (f b x).LogBlind) :
    (xs.foldlM f b).LogBlind := by
  induction xs generalizing b with
  | nil => exact .pure b
  | cons x xs ih =>
    rw [List.foldlM_cons]
    exact .bind (h b x) ih

end LogBlind

end LookupM

/-! ## The steps of a run -/

open LookupM

theorem findTemplate_logBlind (given found : Kind) : (findTemplate given found).LogBlind :=
  .get (fun _ _ => rfl) fun _ => .ofExcept _

theorem updateCache_logBlind (update : Cache → Cache) : (updateCache update).LogBlind :=
  fun _ _ => rfl

theorem issue_logBlind (template : Template) (id : Int) :
    ((QueryService.ofAnswers answers).issue template id).LogBlind := by
  intro start l
  rw [issue_eq, issue_eq]
  simp only [QueryService.ofAnswers, Lookups.behind]
  cases answers template id <;> simp [behind, Lookups.behind]

theorem lookupContents_logBlind (kind : Kind) (c : Target) :
    (lookupContents (.ofAnswers answers) kind c).LogBlind := by
  refine .get (fun _ _ => rfl) fun l => ?_
  split
  · exact .pure _
  · exact .bind (findTemplate_logBlind _ _) fun template => .bind (updateCache_logBlind _)
      fun _ => .bind (issue_logBlind _ _) fun _ => updateCache_logBlind _

theorem lookupContainers_logBlind (kind : Kind) (x : Target) :
    (lookupContainers (.ofAnswers answers) kind x).LogBlind := by
  refine .get (fun _ _ => rfl) fun l => ?_
  split
  · exact .pure _
  · exact .bind (findTemplate_logBlind _ _) fun template => .bind (updateCache_logBlind _)
      fun _ => .bind (issue_logBlind _ _) fun ids => .forM ids fun _ => lookupContents_logBlind _ _

theorem collect_logBlind (requests : List Request) (operation : Operation) :
    (collect (.ofAnswers answers) requests operation).LogBlind := by
  have hfollow : ∀ reached edge, (follow (.ofAnswers answers) reached edge).LogBlind := by
    intro reached edge
    exact .foldlM _ _ fun _ _ => .bind (lookupContents_logBlind _ _) fun _ =>
      .get (fun _ _ => rfl) fun _ => .pure _
  exact .bind (.foldlM _ _ hfollow) fun _ => .bind
    (.forM _ fun _ => lookupContainers_logBlind _ _) fun _ => .pure _

theorem prepare_logBlind (operations : List Operation) (requests : List Request) :
    (prepare (.ofAnswers answers) operations requests).LogBlind :=
  .foldlM _ _ fun _ _ => .bind (collect_logBlind _ _) fun _ => .get (fun _ _ => rfl) fun _ =>
    .bind (.ofExcept _) fun _ => .ofExcept _

/-- After any queries a run ends alike, and adds the same queries to them. -/
theorem run_ofAnswers_after (operations : List Operation) (requests : List Request)
    (start : QueryLog) :
    let outcome := run (.ofAnswers answers) operations requests []
    run (.ofAnswers answers) operations requests start =
      ⟨outcome.result, start ++ outcome.log⟩ := by
  have hblind : (prepare (.ofAnswers answers) operations requests).LogBlind :=
    prepare_logBlind operations requests
  have h := hblind start ⟨.fresh, []⟩
  rw [Lookups.behind, List.append_nil] at h
  simp only [run, h]
  cases prepare (.ofAnswers answers) operations requests ⟨.fresh, []⟩ <;> rfl

end FilesetBatch
