import Mathlib.Data.List.Nodup
import FilesetBatch.Proofs.Containment.Knowledge

/-!
# States in which no query has failed

A run looks up along the hierarchy, with the standard templates, and ends with the first
query that fails. `Lookups.Sound` says what holds until then : no query behind `start` was
refused (`QueryService.Unrefused`), so what the cache holds for a look-up are the numbers
that its query was answered with (`Lookups.Sound.contents`), and whenever the containers of
an entity were looked up, so were the contents of each of them (`Lookups.Sound.settled`).
Both look-ups keep a state sound when they succeed.
-/

namespace FilesetBatch

variable {service : QueryService} {start log : QueryLog} {template : Template} {answer : Answer}
  {query : Query} {reason : String} {failure : Failure} {l l' m : Lookups} {kind : Kind}
  {c x : Target}

/-! ## The standard templates -/

theorem Schema.mem_templates_of_template? {schema : Schema} {given found : Kind}
    (h : schema.template? given found = some template) : template ∈ schema.templates :=
  List.mem_reverse.mp (List.mem_of_find?_eq_some h)

/-- Both steps along an edge of the hierarchy have a standard template. -/
theorem Schema.exists_standard_template : ∀ edge ∈ hierarchy,
    (∃ template, Schema.standard.template? edge.container edge.contained = some template ∧
      template.direction = .contained) ∧
    ∃ template, Schema.standard.template? edge.contained edge.container = some template ∧
      template.direction = .container := by
  simp only [hierarchy, List.forall_mem_cons]
  refine ⟨?_, ?_, ?_, ?_, ?_, ?_, ?_⟩
  case refine_7 => simp
  all_goals exact ⟨⟨_, rfl, rfl⟩, _, rfl, rfl⟩

theorem not_lacks_standard (h : l.cache.schema = .standard) :
    ¬ Lacks (· ∈ hierarchy) l failure := by
  rintro ⟨given, found, -, hnone, hedge⟩
  rw [h] at hnone
  rcases hedge with hedge | hedge
  · obtain ⟨⟨template, hsome, -⟩, -⟩ := Schema.exists_standard_template _ hedge
    exact absurd (hnone.symm.trans hsome) (by simp)
  · obtain ⟨-, template, hsome, -⟩ := Schema.exists_standard_template _ hedge
    exact absurd (hnone.symm.trans hsome) (by simp)

/-- A standard template is known by its name. -/
theorem Template.eq_of_name_eq : ∀ t ∈ Template.standard, ∀ t' ∈ Template.standard,
    t.name = t'.name → t = t' := by
  have hdistinct : (Template.standard.map Template.name).Nodup := by decide
  intro t ht t' ht' hname
  exact List.inj_on_of_nodup_map hdistinct ht ht' hname

/-! ## Refused queries -/

/-- Put after the queries of `log`, the query fails. -/
def QueryService.Refuses (service : QueryService) (log : QueryLog) (query : Query)
    (reason : String) : Prop :=
  ∃ template ∈ Template.standard, template.name = query.template ∧
    service.answer log template query.id = .error reason

/-- No query behind those of `start` failed. -/
def QueryService.Unrefused (service : QueryService) (start log : QueryLog) : Prop :=
  ∀ before query after reason, log = start ++ before ++ query :: after →
    ¬ service.Refuses (start ++ before) query reason

/-- A list with one more entry is split at that entry or within the list. -/
theorem eq_or_exists_of_append_singleton_eq {α : Type} {xs before after : List α} {y z : α}
    (h : xs ++ [y] = before ++ z :: after) :
    (before = xs ∧ z = y ∧ after = []) ∨ ∃ rest, xs = before ++ z :: rest := by
  rcases List.append_eq_append_iff.mp h with ⟨gap, rfl, hgap⟩ | ⟨gap, rfl, hgap⟩
  · rcases List.singleton_eq_append_iff.mp hgap with ⟨rfl, htail⟩ | ⟨-, htail⟩
    · obtain ⟨rfl, rfl⟩ := List.cons.inj htail
      exact .inl ⟨by simp, rfl, rfl⟩
    · cases htail
  · rcases List.cons_eq_append_iff.mp hgap with ⟨rfl, htail⟩ | ⟨rest, rfl, -⟩
    · obtain ⟨rfl, rfl⟩ := List.cons.inj htail
      exact .inl ⟨by simp, rfl, rfl⟩
    · exact .inr ⟨rest, rfl⟩

namespace QueryService.Unrefused

theorem self : service.Unrefused start start := by
  intro before query after reason h
  have := congrArg List.length h
  simp at this

/-- A query that is put is the only one it adds, and its template is known by its name. -/
theorem refuses_iff_of_puts {along : Edge → Prop} (hschema : l.cache.schema = .standard)
    (hstep : Puts service along l query answer l') :
    l'.log = l.log ++ [query] ∧
      ∀ reason, service.Refuses l.log query reason ↔ answer = .error reason := by
  have key : ∀ {given found : Kind} {template : Template} {id : Int},
      l.cache.schema.template? given found = some template →
      service.answer l.log template id = answer → ∀ reason,
        service.Refuses l.log ⟨template.name, id⟩ reason ↔ answer = .error reason := by
    intro given found template id declared answered reason
    rw [hschema] at declared
    have hmem := Schema.mem_templates_of_template? declared
    constructor
    · rintro ⟨template', hmem', hname, hanswer⟩
      obtain rfl := Template.eq_of_name_eq _ hmem' _ hmem hname
      exact answered.symm.trans hanswer
    · rintro rfl
      exact ⟨template, hmem, rfl, answered⟩
  cases hstep with
  | contents edge new declared answered => exact ⟨rfl, key declared answered⟩
  | holders edge new declared answered => exact ⟨rfl, key declared answered⟩

theorem progress {along : Edge → Prop} (h : service.Unrefused start l.log)
    (hschema : l.cache.schema = .standard) (hl : Progress service along l l') :
    service.Unrefused start l'.log := by
  induction hl with
  | refl => exact h
  | tail hm hstep ih =>
    obtain ⟨query, ids, hstep⟩ := hstep
    intro before query' after reason heq hrefuses
    have hschema' := (Progress.grows hm).schema.trans hschema
    obtain ⟨hlog, hiff⟩ := refuses_iff_of_puts hschema' hstep
    rw [hlog] at heq
    rcases eq_or_exists_of_append_singleton_eq heq with ⟨hbefore, rfl, rfl⟩ | ⟨rest, heq⟩
    · rw [hbefore] at hrefuses
      exact absurd ((hiff reason).mp hrefuses) (by simp)
    · exact ih _ _ _ _ heq hrefuses

end QueryService.Unrefused

/-! ## Sound states -/

/-- A state of a run along the hierarchy in which no query has failed and no look-up is under
way. -/
structure Lookups.Sound (service : QueryService) (start : QueryLog) (l : Lookups) : Prop where
  schema : l.cache.schema = .standard
  founded : l.Founded service (· ∈ hierarchy) start
  unrefused : service.Unrefused start l.log
  settled : ∀ {kind x}, (kind, x) ∈ l.cache.holdersAsked → ∃ template ids,
    Schema.standard.template? x.kind kind = some template ∧
      service.Gave start l.log template x.id (.ok ids) ∧
      ∀ id ∈ ids, (x.kind, ⟨kind, id⟩) ∈ l.cache.contentsAsked

namespace Lookups.Sound

theorem fresh : Lookups.Sound service start ⟨.fresh, start⟩ where
  schema := rfl
  founded := .ofSchema .standard
  unrefused := .self
  settled h := by simp at h

/-- Up to the containers that are being looked up, queries keep a state sound. -/
theorem of_progress (h : l.Sound service start) (hl : Progress service (· ∈ hierarchy) l l')
    (settled : ∀ {kind x}, (kind, x) ∈ l'.cache.holdersAsked → ∃ template ids,
      Schema.standard.template? x.kind kind = some template ∧
        service.Gave start l'.log template x.id (.ok ids) ∧
        ∀ id ∈ ids, (x.kind, ⟨kind, id⟩) ∈ l'.cache.contentsAsked) : l'.Sound service start where
  schema := hl.grows.schema.trans h.schema
  founded := h.founded.progress hl
  unrefused := h.unrefused.progress h.schema hl
  settled := settled

/-- What is settled stays so. -/
theorem settled_of_grows (h : l.Sound service start) (hl : l.Grows l')
    (hx : (kind, x) ∈ l.cache.holdersAsked) : ∃ template ids,
      Schema.standard.template? x.kind kind = some template ∧
        service.Gave start l'.log template x.id (.ok ids) ∧
        ∀ id ∈ ids, (x.kind, ⟨kind, id⟩) ∈ l'.cache.contentsAsked := by
  obtain ⟨template, ids, htemplate, hgave, hids⟩ := h.settled hx
  exact ⟨template, ids, htemplate, hgave.mono hl.log, fun id hid => hl.contentsAsked (hids id hid)⟩

/-- The contents that were looked up are the numbers that their query was answered with. -/
theorem contents (h : l.Sound service start) (hc : (kind, c) ∈ l.cache.contentsAsked) :
    ∃ template ids, Schema.standard.template? c.kind kind = some template ∧
      service.Gave start l.log template c.id (.ok ids) ∧
      ∀ x : Target, x.kind = kind → (l.cache.Holds c x ↔ x.id ∈ ids) := by
  obtain ⟨-, template, answer, htemplate, ⟨before, after, hlog, hanswer⟩, hids⟩ :=
    h.founded.contents hc
  rw [h.schema] at htemplate
  cases answer with
  | ok ids => exact ⟨template, ids, htemplate, ⟨before, after, hlog, hanswer⟩, hids⟩
  | error reason =>
    have hmem := Schema.mem_templates_of_template? htemplate
    exact absurd ⟨template, hmem, rfl, hanswer⟩ (h.unrefused before _ after reason hlog)

end Lookups.Sound

/-! ## Look-ups that succeed -/

/-- A look-up of contents that succeeds was made before, or its query was answered. -/
theorem lookupContents_eq_ok_cases {u : Unit}
    (h : lookupContents service kind c l = .ok u l') :
    ((kind, c) ∈ l.cache.contentsAsked ∧ l' = l) ∨ ∃ template ids,
      (kind, c) ∉ l.cache.contentsAsked ∧
        l.cache.schema.template? c.kind kind = some template ∧
        service.answer l.log template c.id = .ok ids ∧
        l' = ⟨(l.cache.markContents kind c).recordAll c kind ids,
          l.log ++ [⟨template.name, c.id⟩]⟩ := by
  by_cases new : (kind, c) ∈ l.cache.contentsAsked
  · rw [lookupContents_of_mem new] at h
    cases h
    exact .inl ⟨new, rfl⟩
  cases declared : l.cache.schema.template c.kind kind with
  | error failure =>
    rw [lookupContents_of_undeclared new declared] at h
    cases h
  | ok template =>
    cases answered : service.answer l.log template c.id with
    | error reason =>
      rw [lookupContents_of_failed new declared answered] at h
      cases h
    | ok ids =>
      rw [lookupContents_of_answered new declared answered] at h
      cases h
      exact .inr ⟨template, ids, new, Schema.template_eq_ok_iff.mp declared, answered, rfl⟩

/-- A look-up of containers that succeeds was made before, or its query was answered and the
contents of each answered container were looked up. -/
theorem lookupContainers_eq_ok_cases {u : Unit}
    (h : lookupContainers service kind x l = .ok u l') :
    ((kind, x) ∈ l.cache.holdersAsked ∧ l' = l) ∨ ∃ template ids,
      (kind, x) ∉ l.cache.holdersAsked ∧
        l.cache.schema.template? x.kind kind = some template ∧
        service.answer l.log template x.id = .ok ids ∧
        (ids.forM fun id => lookupContents service x.kind ⟨kind, id⟩)
          ⟨l.cache.markHolders kind x, l.log ++ [⟨template.name, x.id⟩]⟩ = .ok u l' := by
  by_cases new : (kind, x) ∈ l.cache.holdersAsked
  · rw [lookupContainers_of_mem new] at h
    cases h
    exact .inl ⟨new, rfl⟩
  cases declared : l.cache.schema.template x.kind kind with
  | error failure =>
    rw [lookupContainers_of_undeclared new declared] at h
    cases h
  | ok template =>
    cases answered : service.answer l.log template x.id with
    | error reason =>
      rw [lookupContainers_of_failed new declared answered] at h
      cases h
    | ok ids =>
      rw [lookupContainers_of_answered new declared answered] at h
      exact .inr ⟨template, ids, new, Schema.template_eq_ok_iff.mp declared, answered, h⟩

theorem contentsAsked_of_lookupContents {u : Unit}
    (h : lookupContents service kind c l = .ok u l') : (kind, c) ∈ l'.cache.contentsAsked := by
  rcases lookupContents_eq_ok_cases h with ⟨hc, rfl⟩ | ⟨template, ids, -, -, -, rfl⟩
  · exact hc
  · simp

theorem holdersAsked_of_lookupContents {u : Unit}
    (h : lookupContents service kind c l = .ok u l') :
    l'.cache.holdersAsked = l.cache.holdersAsked := by
  rcases lookupContents_eq_ok_cases h with ⟨-, rfl⟩ | ⟨template, ids, -, -, -, rfl⟩
  · rfl
  · simp

/-- The only look-up of containers that is new is this one; behind it, contents are looked
up. -/
theorem eq_or_mem_of_lookupContainers {u : Unit} {kind' : Kind} {y : Target}
    (heq : lookupContainers service kind x l = .ok u l')
    (hy : (kind', y) ∈ l'.cache.holdersAsked) :
    (kind' = kind ∧ y = x) ∨ (kind', y) ∈ l.cache.holdersAsked := by
  rcases lookupContainers_eq_ok_cases heq with ⟨-, rfl⟩ | ⟨template, ids, -, -, -, hloop⟩
  · exact .inr hy
  have hsame : l'.cache.holdersAsked = l.cache.holdersAsked.insert (kind, x) :=
    LookupM.Keeps.forM (P := fun m => m.cache.holdersAsked = l.cache.holdersAsked.insert (kind, x))
      ids (fun _ _ _ _ _ hone h => (holdersAsked_of_lookupContents hone).trans h) hloop rfl
  rw [hsame] at hy
  simpa using hy

theorem lookupContents_sound (edge : ⟨c.kind, kind⟩ ∈ hierarchy) :
    (lookupContents service kind c).Keeps (Lookups.Sound service start) := by
  intro l u l' heq h
  have hl := (lookupContents_follows edge).ok heq
  refine h.of_progress hl fun {kind x} hx => h.settled_of_grows hl.grows ?_
  rwa [holdersAsked_of_lookupContents heq] at hx

theorem lookupContainers_sound (edge : ⟨kind, x.kind⟩ ∈ hierarchy) :
    (lookupContainers service kind x).Keeps (Lookups.Sound service start) := by
  intro l u l' heq h
  have hl := (lookupContainers_follows edge).ok heq
  rcases lookupContainers_eq_ok_cases heq with ⟨-, rfl⟩ |
    ⟨template, ids, new, declared, answered, hloop⟩
  · exact h
  have hgrows : ∀ id ∈ ids, (lookupContents service x.kind ⟨kind, id⟩).Leads Lookups.Grows :=
    fun id _ => (lookupContents_follows edge).grows
  have hloopGrows := LookupM.Leads.forM .refl .trans ids hgrows hloop
  refine h.of_progress hl fun {kind' x'} hx' => ?_
  rcases eq_or_mem_of_lookupContainers heq hx' with ⟨rfl, rfl⟩ | hold
  · rw [h.schema] at declared
    refine ⟨template, ids, declared, ?_, fun id hid => ?_⟩
    · exact (QueryService.gave_append_singleton h.founded.log answered).mono hloopGrows.log
    · obtain ⟨m, m', hturn, hm'⟩ := LookupM.exists_turn_of_forM .refl .trans hgrows hloop hid
      exact hm'.contentsAsked (contentsAsked_of_lookupContents hturn)
  · exact h.settled_of_grows hl.grows hold

theorem holdersAsked_of_lookupContainers {u : Unit} (edge : ⟨kind, x.kind⟩ ∈ hierarchy)
    (heq : lookupContainers service kind x l = .ok u l') : (kind, x) ∈ l'.cache.holdersAsked := by
  rcases lookupContainers_eq_ok_cases heq with ⟨hx, rfl⟩ | ⟨template, ids, -, -, -, hloop⟩
  · exact hx
  · have hgrows : ∀ id ∈ ids, (lookupContents service x.kind ⟨kind, id⟩).Leads Lookups.Grows :=
      fun id _ => (lookupContents_follows edge).grows
    exact (LookupM.Leads.forM .refl .trans ids hgrows hloop).holdersAsked (by simp)

end FilesetBatch
