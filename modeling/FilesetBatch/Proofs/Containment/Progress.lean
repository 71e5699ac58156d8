import Mathlib.Logic.Relation
import FilesetBatch.Containment.Lookup

/-!
# Computations that look containment up, query by query

Whatever look-ups a computation makes, what it leaves behind changes in one way only : a
query is put for a look-up that was not made before, the look-up is marked, and the numbers
of the answer are recorded (`Puts`). A look-up names an edge of containment, and `Puts` says
along which edges it is made, so that one relation serves for all look-ups and for those
along the hierarchy.

A computation that succeeds has put queries that were answered, one after another
(`Progress`). One that fails has done so up to its last query, which was refused
(`Refused`), or up to a look-up that no template is declared for (`Lacks`).
`LookupM.Follows` says this of a computation, and it is passed on by sequencing and by
loops; `lookupContents_follows` and `lookupContainers_follows` are the two starting points.
An invariant of all look-ups is proved for one query, by cases on `Puts`.
-/

namespace FilesetBatch

variable {service : QueryService} {along : Edge → Prop} {α β : Type}

/-! ## How a sequence of computations ends -/

namespace LookupM

variable {program : LookupM α} {next : α → LookupM β} {l l' : Lookups} {failure : Failure}

theorem pure_eq_ok_iff {a a' : α} :
    (pure a : LookupM α) l = .ok a' l' ↔ a = a' ∧ l = l' := by
  simp [pure, EStateM.pure]

theorem pure_ne_error {a : α} : (pure a : LookupM α) l ≠ .error failure l' := by
  simp [pure, EStateM.pure]

theorem bind_eq_ok_iff {b : β} :
    (program >>= next) l = .ok b l' ↔ ∃ a m, program l = .ok a m ∧ next a m = .ok b l' := by
  simp only [bind, EStateM.bind]
  cases program l with
  | ok a m => exact ⟨fun h => ⟨a, m, rfl, h⟩, by rintro ⟨_, _, ⟨⟩, h⟩; exact h⟩
  | error e m => simp

theorem bind_eq_error_iff :
    (program >>= next) l = .error failure l' ↔
      program l = .error failure l' ∨
        ∃ a m, program l = .ok a m ∧ next a m = .error failure l' := by
  simp only [bind, EStateM.bind]
  cases program l with
  | ok a m => exact ⟨fun h => .inr ⟨a, m, rfl, h⟩, by rintro (⟨⟨⟩⟩ | ⟨_, _, ⟨⟩, h⟩); exact h⟩
  | error e m => simp

theorem ofExcept_eq_ok_iff {x : Except Failure α} {a : α} :
    (MonadExcept.ofExcept x : LookupM α) l = .ok a l' ↔ x = .ok a ∧ l = l' := by
  cases x with
  | ok b => exact pure_eq_ok_iff.trans (by simp)
  | error e => exact ⟨nofun, fun h => nomatch h.1⟩

theorem ofExcept_eq_error_iff {x : Except Failure α} :
    (MonadExcept.ofExcept x : LookupM α) l = .error failure l' ↔
      x = .error failure ∧ l = l' := by
  cases x with
  | ok b => simp [MonadExcept.ofExcept, pure_ne_error]
  | error e =>
    constructor
    · rintro ⟨⟩
      exact ⟨rfl, rfl⟩
    · rintro ⟨⟨⟩, rfl⟩
      rfl

/-- Whenever the computation succeeds, what it finds and what it leaves are related. -/
def Leads (R : Lookups → Lookups → Prop) (program : LookupM α) : Prop :=
  ∀ ⦃l a l'⦄, program l = .ok a l' → R l l'

variable {R : Lookups → Lookups → Prop}

theorem Leads.pure (refl : ∀ l, R l l) (a : α) : (Pure.pure a : LookupM α).Leads R := by
  intro l a' l' h
  obtain ⟨-, rfl⟩ := pure_eq_ok_iff.mp h
  exact refl l

theorem Leads.bind (trans : ∀ {l m n}, R l m → R m n → R l n) (h : program.Leads R)
    (hnext : ∀ a, (next a).Leads R) : (program >>= next).Leads R := by
  intro l b l' heq
  obtain ⟨a, m, ha, hb⟩ := bind_eq_ok_iff.mp heq
  exact trans (h ha) (hnext a hb)

theorem Leads.forM (refl : ∀ l, R l l) (trans : ∀ {l m n}, R l m → R m n → R l n)
    {f : α → LookupM PUnit} (xs : List α) (h : ∀ x ∈ xs, (f x).Leads R) :
    (xs.forM f).Leads R := by
  induction xs with
  | nil => exact .pure refl _
  | cons x xs ih =>
    exact .bind trans (h x List.mem_cons_self)
      fun _ => ih fun y hy => h y (List.mem_cons_of_mem x hy)

theorem Leads.foldlM (refl : ∀ l, R l l) (trans : ∀ {l m n}, R l m → R m n → R l n)
    {f : β → α → LookupM β} (xs : List α) (b : β) (h : ∀ b, ∀ x ∈ xs, (f b x).Leads R) :
    (xs.foldlM f b).Leads R := by
  induction xs generalizing b with
  | nil => exact .pure refl b
  | cons x xs ih =>
    rw [List.foldlM_cons]
    exact .bind trans (h b x List.mem_cons_self)
      fun b' => ih b' fun b'' y hy => h b'' y (List.mem_cons_of_mem x hy)

/-- Whenever the computation succeeds, what held before holds afterwards. -/
def Keeps (P : Lookups → Prop) (program : LookupM α) : Prop :=
  program.Leads fun l l' => P l → P l'

variable {P : Lookups → Prop}

theorem Keeps.forM {f : α → LookupM PUnit} (xs : List α) (h : ∀ x ∈ xs, (f x).Keeps P) :
    (xs.forM f).Keeps P :=
  Leads.forM (R := fun l l' => P l → P l') (fun _ => id) (fun h h' => h' ∘ h) xs h

theorem Keeps.foldlM {f : β → α → LookupM β} (xs : List α) (b : β)
    (h : ∀ b, ∀ x ∈ xs, (f b x).Keeps P) : (xs.foldlM f b).Keeps P :=
  Leads.foldlM (R := fun l l' => P l → P l') (fun _ => id) (fun h h' => h' ∘ h) xs b h

/-- What a computation leaves behind, whether or not it succeeds. -/
def after (program : LookupM α) (l : Lookups) : Lookups :=
  match program l with
  | .ok _ l' => l'
  | .error _ l' => l'

theorem after_of_ok {a : α} (h : program l = .ok a l') : program.after l = l' := by
  rw [after, h]

theorem after_of_error (h : program l = .error failure l') : program.after l = l' := by
  rw [after, h]

theorem after_eq_of_eq {other : LookupM α} (h : program l = other l') :
    program.after l = other.after l' := by
  rw [after, h, after]

theorem after_bind : (program >>= next).after l =
    match program l with
    | .ok a m => (next a).after m
    | .error _ m => m := by
  simp only [after, bind, EStateM.bind]
  cases program l <;> rfl

/-- Whether or not the computation succeeds, what held before holds afterwards. -/
def Maintains (P : Lookups → Prop) (program : LookupM α) : Prop :=
  ∀ ⦃l⦄, P l → P (program.after l)

theorem Maintains.of_ok (h : program.Maintains P) {a : α} (hl : P l)
    (heq : program l = .ok a l') : P l' :=
  after_of_ok heq ▸ h hl

theorem Maintains.of_error (h : program.Maintains P) (hl : P l)
    (heq : program l = .error failure l') : P l' :=
  after_of_error heq ▸ h hl

theorem Maintains.pure (a : α) : (Pure.pure a : LookupM α).Maintains P :=
  fun _ => id

theorem Maintains.ofExcept (x : Except Failure α) :
    (MonadExcept.ofExcept x : LookupM α).Maintains P := by
  cases x <;> exact fun _ => id

theorem Maintains.bind (h : program.Maintains P) (hnext : ∀ a, (next a).Maintains P) :
    (program >>= next).Maintains P := by
  intro l hl
  rw [after_bind]
  cases hprogram : program l with
  | ok a m => exact hnext a (h.of_ok hl hprogram)
  | error failure m => exact h.of_error hl hprogram

theorem Maintains.forM {f : α → LookupM PUnit} (xs : List α)
    (h : ∀ x ∈ xs, (f x).Maintains P) : (xs.forM f).Maintains P := by
  induction xs with
  | nil => exact .pure _
  | cons x xs ih =>
    exact .bind (h x List.mem_cons_self) fun _ => ih fun y hy => h y (List.mem_cons_of_mem x hy)

theorem Maintains.foldlM {f : β → α → LookupM β} (xs : List α) (b : β)
    (h : ∀ b, ∀ x ∈ xs, (f b x).Maintains P) : (xs.foldlM f b).Maintains P := by
  induction xs generalizing b with
  | nil => exact .pure b
  | cons x xs ih =>
    rw [List.foldlM_cons]
    exact .bind (h b x List.mem_cons_self)
      fun b' => ih b' fun b'' y hy => h b'' y (List.mem_cons_of_mem x hy)

/-- A loop that succeeds has made each of its turns. -/
theorem exists_turn_of_forM (refl : ∀ l, R l l) (trans : ∀ {l m n}, R l m → R m n → R l n)
    {f : α → LookupM PUnit} {xs : List α} (h : ∀ x ∈ xs, (f x).Leads R) {u : PUnit}
    (heq : xs.forM f l = .ok u l') {x : α} (hx : x ∈ xs) :
    ∃ m m', f x m = .ok ⟨⟩ m' ∧ R m' l' := by
  induction xs generalizing l with
  | nil => cases hx
  | cons y ys ih =>
    obtain ⟨⟨⟩, m, hy, hys⟩ := bind_eq_ok_iff.mp heq
    have htail : ∀ z ∈ ys, (f z).Leads R := fun z hz => h z (List.mem_cons_of_mem y hz)
    rcases List.mem_cons.mp hx with rfl | hx
    · exact ⟨l, m, hy, Leads.forM refl trans ys htail hys⟩
    · exact ih htail hys hx

end LookupM

/-! ## One query -/

/-- What a service says to a query : numbers, or the reason of a failure. -/
abbrev Answer := Except String (List Int)

/-- The numbers of an answer; a failure has none. -/
def Answer.ids : Answer → List Int
  | .ok ids => ids
  | .error _ => []

/-- One query is put, for a look-up along an allowed edge that was not made before. The
look-up is marked, the query is logged, and the contents that were answered are recorded. -/
inductive Puts (service : QueryService) (along : Edge → Prop) :
    Lookups → Query → Answer → Lookups → Prop
  | contents {l : Lookups} {kind : Kind} {container : Target} {template : Template}
      {answer : Answer} (edge : along ⟨container.kind, kind⟩)
      (new : (kind, container) ∉ l.cache.contentsAsked)
      (declared : l.cache.schema.template? container.kind kind = some template)
      (answered : service.answer l.log template container.id = answer) :
      Puts service along l ⟨template.name, container.id⟩ answer
        ⟨(l.cache.markContents kind container).recordAll container kind answer.ids,
          l.log ++ [⟨template.name, container.id⟩]⟩
  | holders {l : Lookups} {kind : Kind} {contained : Target} {template : Template}
      {answer : Answer} (edge : along ⟨kind, contained.kind⟩)
      (new : (kind, contained) ∉ l.cache.holdersAsked)
      (declared : l.cache.schema.template? contained.kind kind = some template)
      (answered : service.answer l.log template contained.id = answer) :
      Puts service along l ⟨template.name, contained.id⟩ answer
        ⟨l.cache.markHolders kind contained, l.log ++ [⟨template.name, contained.id⟩]⟩

/-- Queries are put one after another, and all of them are answered. -/
def Progress (service : QueryService) (along : Edge → Prop) : Lookups → Lookups → Prop :=
  Relation.ReflTransGen fun l l' => ∃ query ids, Puts service along l query (.ok ids) l'

/-- A query is put and fails. -/
def Refused (service : QueryService) (along : Edge → Prop) (l : Lookups) (failure : Failure)
    (l' : Lookups) : Prop :=
  ∃ query reason, Puts service along l query (.error reason) l' ∧
    failure = .query query.template query.id reason

/-- A template for a step up or down an allowed edge is not declared. -/
def Lacks (along : Edge → Prop) (l : Lookups) (failure : Failure) : Prop :=
  ∃ given found, failure = .undeclaredEdge given found ∧
    l.cache.schema.template? given found = none ∧ (along ⟨given, found⟩ ∨ along ⟨found, given⟩)

theorem Progress.refl (l : Lookups) : Progress service along l l :=
  Relation.ReflTransGen.refl

theorem Progress.trans {l m n : Lookups} (h : Progress service along l m)
    (h' : Progress service along m n) : Progress service along l n :=
  Relation.ReflTransGen.trans h h'

/-! ## Computations that only put queries -/

/-- The computation changes what was looked up by queries only, and fails for nothing but a
refused query or a missing template. -/
structure LookupM.Follows (service : QueryService) (along : Edge → Prop)
    (program : LookupM α) : Prop where
  ok : program.Leads (Progress service along)
  error : ∀ ⦃l failure l'⦄, program l = .error failure l' → ∃ m, Progress service along l m ∧
    (Refused service along m failure l' ∨ l' = m ∧ Lacks along m failure)

namespace LookupM.Follows

variable {program : LookupM α} {next : α → LookupM β}

/-- To follow, a computation may be looked at from one state at a time. -/
theorem of_result (h : ∀ l, match program l with
    | .ok _ l' => Progress service along l l'
    | .error failure l' => ∃ m, Progress service along l m ∧
        (Refused service along m failure l' ∨ l' = m ∧ Lacks along m failure)) :
    program.Follows service along where
  ok l a l' heq := by simpa [heq] using h l
  error l failure l' heq := by simpa [heq] using h l

/-- What each query keeps, the computation keeps, whether or not it succeeds. -/
theorem maintains {P : Lookups → Prop} (h : program.Follows service along)
    (hstep : ∀ {l query answer l'}, Puts service along l query answer l' → P l → P l') :
    program.Maintains P := by
  have hprogress : ∀ {l l'}, Progress service along l l' → P l → P l' := by
    intro l l' hl hP
    induction hl with
    | refl => exact hP
    | tail _ hputs ih =>
      obtain ⟨query, ids, hputs⟩ := hputs
      exact hstep hputs ih
  intro l hl
  cases hprogram : program l with
  | ok a l' =>
    rw [LookupM.after_of_ok hprogram]
    exact hprogress (h.ok hprogram) hl
  | error failure l' =>
    rw [LookupM.after_of_error hprogram]
    obtain ⟨m, hm, ⟨query, reason, hputs, -⟩ | ⟨rfl, -⟩⟩ := h.error hprogram
    · exact hstep hputs (hprogress hm hl)
    · exact hprogress hm hl

theorem pure (a : α) : (Pure.pure a : LookupM α).Follows service along where
  ok := .pure Progress.refl a
  error _ _ _ h := absurd h pure_ne_error

theorem bind (h : program.Follows service along) (hnext : ∀ a, (next a).Follows service along) :
    (program >>= next).Follows service along where
  ok := .bind Progress.trans h.ok fun a => (hnext a).ok
  error l failure l' heq := by
    rcases bind_eq_error_iff.mp heq with heq | ⟨a, m, ha, heq⟩
    · exact h.error heq
    · obtain ⟨n, hn, hend⟩ := (hnext a).error heq
      exact ⟨n, (h.ok ha).trans hn, hend⟩

theorem forM {f : α → LookupM PUnit} (xs : List α) (h : ∀ x ∈ xs, (f x).Follows service along) :
    (xs.forM f).Follows service along := by
  induction xs with
  | nil => exact .pure _
  | cons x xs ih =>
    exact .bind (h x List.mem_cons_self) fun _ => ih fun y hy => h y (List.mem_cons_of_mem x hy)

theorem foldlM {f : β → α → LookupM β} (xs : List α) (b : β)
    (h : ∀ b, ∀ x ∈ xs, (f b x).Follows service along) :
    (xs.foldlM f b).Follows service along := by
  induction xs generalizing b with
  | nil => exact .pure b
  | cons x xs ih =>
    rw [List.foldlM_cons]
    exact .bind (h b x List.mem_cons_self)
      fun b' => ih b' fun b'' y hy => h b'' y (List.mem_cons_of_mem x hy)

end LookupM.Follows

/-! ## The two look-ups -/

section

variable {kind : Kind} {container contained : Target} {l l' : Lookups}

theorem lookupContents_follows (edge : along ⟨container.kind, kind⟩) :
    (lookupContents service kind container).Follows service along := by
  refine .of_result fun l => ?_
  by_cases new : (kind, container) ∈ l.cache.contentsAsked
  · rw [lookupContents_of_mem new]
    exact .refl l
  cases declared : l.cache.schema.template? container.kind kind with
  | none =>
    rw [lookupContents_of_undeclared new
      (Schema.template_eq_error_iff.mpr ⟨declared, rfl⟩)]
    exact ⟨l, .refl l, .inr ⟨rfl, _, _, rfl, declared, .inl edge⟩⟩
  | some template =>
    cases answered : service.answer l.log template container.id with
    | ok ids =>
      rw [lookupContents_of_answered new (Schema.template_eq_ok_iff.mpr declared) answered]
      exact .single ⟨_, _, .contents edge new declared answered⟩
    | error reason =>
      rw [lookupContents_of_failed new (Schema.template_eq_ok_iff.mpr declared) answered]
      exact ⟨l, .refl l, .inl ⟨_, _, .contents edge new declared answered, rfl⟩⟩

/-- The containers that are found are looked up along the very edge that was asked for. -/
theorem lookupContainers_follows (edge : along ⟨kind, contained.kind⟩) :
    (lookupContainers service kind contained).Follows service along := by
  refine .of_result fun l => ?_
  by_cases new : (kind, contained) ∈ l.cache.holdersAsked
  · rw [lookupContainers_of_mem new]
    exact .refl l
  cases declared : l.cache.schema.template? contained.kind kind with
  | none =>
    rw [lookupContainers_of_undeclared new
      (Schema.template_eq_error_iff.mpr ⟨declared, rfl⟩)]
    exact ⟨l, .refl l, .inr ⟨rfl, _, _, rfl, declared, .inr edge⟩⟩
  | some template =>
    cases answered : service.answer l.log template contained.id with
    | ok ids =>
      rw [lookupContainers_of_answered new (Schema.template_eq_ok_iff.mpr declared) answered]
      have step : Progress service along l ⟨l.cache.markHolders kind contained, _⟩ :=
        .single ⟨_, _, .holders edge new declared answered⟩
      have rest : (ids.forM fun id =>
          lookupContents service contained.kind ⟨kind, id⟩).Follows service along :=
        .forM ids fun id _ => lookupContents_follows edge
      split
      · rename_i heq
        exact step.trans (rest.ok heq)
      · rename_i heq
        obtain ⟨m, hm, hend⟩ := rest.error heq
        exact ⟨m, step.trans hm, hend⟩
    | error reason =>
      rw [lookupContainers_of_failed new (Schema.template_eq_ok_iff.mpr declared) answered]
      exact ⟨l, .refl l, .inl ⟨_, _, .holders edge new declared answered, rfl⟩⟩

end

end FilesetBatch
