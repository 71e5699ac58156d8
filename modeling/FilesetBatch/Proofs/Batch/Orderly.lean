import Mathlib.Data.List.Nodup
import FilesetBatch.Proofs.Batch.Failures
import FilesetBatch.Proofs.Containment.Ledger

/-!
# What every run keeps to

Whatever answers a run gets and however it ends, it puts no query twice
(`Lookups.Orderly.nodup`), and up the hierarchy it asks for nothing but the filesets of images
(`Lookups.Orderly.down_or_filesets`). Each look-up is made once, no look-up down the hierarchy
is one up the hierarchy, and a standard query tells for which look-up it was put
(`Schema.query?_standard_inj`).

`LookupM.maintains_prepare` reduces what a run keeps, whether or not it succeeds, to what its
two kinds of look-ups keep.
-/

namespace FilesetBatch

variable {service : QueryService} {start log : QueryLog} {requests : List Request}
  {operations : List Operation} {l : Lookups} {kind kind' : Kind} {c c' i x : Target}
  {query : Query} {queries : List Query} {template : Template}

/-! ## The query of a look-up -/

theorem Schema.query?_eq_some_iff {schema : Schema} : schema.query? (kind, c) = some query ↔
    ∃ template, schema.template? c.kind kind = some template ∧
      query = ⟨template.name, c.id⟩ := by
  rw [query?, Option.map_eq_some_iff]
  exact exists_congr fun _ => and_congr_right fun _ => eq_comm

/-- A standard query tells for which look-up it was put. -/
theorem Schema.query?_standard_inj (h : Schema.standard.query? (kind, c) = some query)
    (h' : Schema.standard.query? (kind', c') = some query) : kind = kind' ∧ c = c' := by
  obtain ⟨template, htemplate, rfl⟩ := Schema.query?_eq_some_iff.mp h
  obtain ⟨template', htemplate', hquery⟩ := Schema.query?_eq_some_iff.mp h'
  obtain ⟨hname, hid⟩ := Query.mk.inj hquery
  obtain rfl := Template.eq_of_name_eq _ (Schema.mem_templates_of_template? htemplate)
    _ (Schema.mem_templates_of_template? htemplate') hname
  have hkind : c.kind = c'.kind :=
    (Schema.given_of_template? htemplate).symm.trans (Schema.given_of_template? htemplate')
  exact ⟨(Schema.found_of_template? htemplate).symm.trans (Schema.found_of_template? htemplate'),
    Target.eq_mk_iff.mpr ⟨hkind, hid⟩⟩

theorem direction_of_down (hedge : ⟨c.kind, kind⟩ ∈ hierarchy)
    (htemplate : Schema.standard.template? c.kind kind = some template) :
    template.direction = .contained := by
  obtain ⟨⟨template', htemplate', hdown⟩, -⟩ := Schema.exists_standard_template _ hedge
  obtain rfl := Option.some.inj (htemplate.symm.trans htemplate')
  exact hdown

theorem direction_of_up (hedge : ⟨kind, x.kind⟩ ∈ hierarchy)
    (htemplate : Schema.standard.template? x.kind kind = some template) :
    template.direction = .container := by
  obtain ⟨-, template', htemplate', hup⟩ := Schema.exists_standard_template _ hedge
  obtain rfl := Option.some.inj (htemplate.symm.trans htemplate')
  exact hup

theorem name_of_filesets (htemplate : Schema.standard.template? .image .fileset = some template) :
    template.name = "image_fileset" := by
  obtain rfl : _ = template := Option.some.inj htemplate
  rfl

/-! ## What look-ups keep -/

/-- Up the hierarchy, only the filesets of images are looked up. -/
def Lookups.MarksFilesets (l : Lookups) : Prop :=
  ∀ ⦃kind x⦄, (kind, x) ∈ l.cache.holdersAsked → kind = .fileset ∧ x.kind = .image

/-- What holds at any time of a run, also after a query that failed. -/
structure Lookups.Orderly (service : QueryService) (start : QueryLog) (l : Lookups) : Prop where
  schema : l.cache.schema = .standard
  founded : l.Founded service (· ∈ hierarchy) start
  ledger : l.Ledger start
  marks : l.MarksFilesets

namespace LookupM

variable {P : Lookups → Prop}

theorem Maintains.get : (MonadState.get : LookupM Lookups).Maintains P :=
  fun _ => id

/-- What the look-ups of a run keep, the run keeps, whether or not it succeeds. -/
theorem maintains_prepare
    (hcontents : ∀ edge ∈ hierarchy, ∀ c : Target, c.kind = edge.container →
      (lookupContents service edge.contained c).Maintains P)
    (hholders : ∀ i : Target, i.kind = .image →
      (lookupContainers service .fileset i).Maintains P) :
    (prepare service operations requests).Maintains P := by
  have hfollow : ∀ reached, ∀ edge ∈ hierarchy, (follow service reached edge).Maintains P := by
    intro reached edge hedge
    refine .foldlM _ _ fun reached c hc => ?_
    have hkind : c.kind = edge.container := (TargetSet.mem_ofKind.mp hc).2
    exact .bind (hcontents edge hedge c hkind) fun _ => .bind .get fun _ => .pure _
  have hcollect : ∀ requests k, (collect service requests k).Maintains P := by
    intro requests k
    refine .bind (.foldlM _ _ hfollow) fun reached => .bind ?_ fun _ => .pure _
    exact .forM _ fun i hi => hholders i (TargetSet.mem_ofKind.mp hi).2
  refine .foldlM _ _ fun requests k _ => ?_
  exact .bind (hcollect requests k) fun _ => .bind .get fun _ =>
    .bind (.ofExcept _) fun _ => .ofExcept _

end LookupM

theorem holdersAsked_after_lookupContents :
    ((lookupContents service kind c).after l).cache.holdersAsked = l.cache.holdersAsked := by
  by_cases new : (kind, c) ∈ l.cache.contentsAsked
  · rw [LookupM.after_of_ok (lookupContents_of_mem new)]
  cases declared : l.cache.schema.template c.kind kind with
  | error failure => rw [LookupM.after_of_error (lookupContents_of_undeclared new declared)]
  | ok template =>
    cases answered : service.answer l.log template c.id with
    | ok ids =>
      rw [LookupM.after_of_ok (lookupContents_of_answered new declared answered)]
      simp
    | error reason =>
      rw [LookupM.after_of_error (lookupContents_of_failed new declared answered)]
      simp

theorem lookupContents_marksFilesets :
    (lookupContents service kind c).Maintains Lookups.MarksFilesets := by
  intro l hl kind x hx
  rw [holdersAsked_after_lookupContents] at hx
  exact hl hx

theorem lookupContainers_marksFilesets (hi : i.kind = .image) :
    (lookupContainers service .fileset i).Maintains Lookups.MarksFilesets := by
  intro l hl
  have hmarked : ∀ log, Lookups.MarksFilesets ⟨l.cache.markHolders .fileset i, log⟩ := by
    intro log kind x hx
    have hx : (kind = .fileset ∧ x = i) ∨ (kind, x) ∈ l.cache.holdersAsked := by simpa using hx
    rcases hx with ⟨rfl, rfl⟩ | hx
    · exact ⟨rfl, hi⟩
    · exact hl hx
  by_cases new : (.fileset, i) ∈ l.cache.holdersAsked
  · rwa [LookupM.after_of_ok (lookupContainers_of_mem new)]
  cases declared : l.cache.schema.template i.kind .fileset with
  | error failure => rwa [LookupM.after_of_error (lookupContainers_of_undeclared new declared)]
  | ok template =>
    cases answered : service.answer l.log template i.id with
    | ok ids =>
      rw [LookupM.after_eq_of_eq (lookupContainers_of_answered new declared answered)]
      exact LookupM.Maintains.forM ids (fun _ _ => lookupContents_marksFilesets) (hmarked _)
    | error reason =>
      rw [LookupM.after_of_error (lookupContainers_of_failed new declared answered)]
      exact hmarked _

namespace Lookups.Orderly

theorem fresh : Lookups.Orderly service start ⟨.fresh, start⟩ where
  schema := rfl
  founded := .ofSchema .standard
  ledger := .ofSchema .standard
  marks _ _ h := by simp at h

theorem of_follows {α : Type} {program : LookupM α} (h : program.Follows service (· ∈ hierarchy))
    (hmarks : program.Maintains Lookups.MarksFilesets) :
    program.Maintains (Lookups.Orderly service start) := by
  intro l hl
  have hrest := h.maintains (P := fun l => l.cache.schema = .standard ∧
      l.Founded service (· ∈ hierarchy) start ∧ l.Ledger start)
    (fun hputs hP => ⟨hputs.grows.schema.trans hP.1, hP.2.1.puts hputs, hP.2.2.puts hputs⟩)
    ⟨hl.schema, hl.founded, hl.ledger⟩
  exact ⟨hrest.1, hrest.2.1, hrest.2.2, hmarks hl.marks⟩

theorem prepare : (prepare service operations requests).Maintains
    (Lookups.Orderly service start) := by
  refine LookupM.maintains_prepare (fun edge hedge c hc => ?_) fun i hi => ?_
  · exact of_follows (lookupContents_follows (hc ▸ hedge)) lookupContents_marksFilesets
  · exact of_follows (lookupContainers_follows (edge_of_fileset rfl hi))
      (lookupContainers_marksFilesets hi)

section

variable (h : l.Orderly service start)

include h

theorem query?_of_contents (hc : (kind, c) ∈ l.cache.contentsAsked) : ∃ template,
    Schema.standard.template? c.kind kind = some template ∧
      template ∈ Template.standard ∧ template.direction = .contained ∧
      Schema.standard.query? (kind, c) = some ⟨template.name, c.id⟩ := by
  obtain ⟨hedge, template, -, htemplate, -⟩ := h.founded.contents hc
  rw [h.schema] at htemplate
  exact ⟨template, htemplate, Schema.mem_templates_of_template? htemplate,
    direction_of_down hedge htemplate, Schema.query?_eq_some_iff.mpr ⟨template, htemplate, rfl⟩⟩

theorem query?_of_holders (hx : (kind, x) ∈ l.cache.holdersAsked) : ∃ template,
    template ∈ Template.standard ∧ template.direction = .container ∧
      template.name = "image_fileset" ∧
      Schema.standard.query? (kind, x) = some ⟨template.name, x.id⟩ := by
  obtain ⟨hedge, template, -, htemplate, -⟩ := h.founded.holders hx
  rw [h.schema] at htemplate
  refine ⟨template, Schema.mem_templates_of_template? htemplate, direction_of_up hedge htemplate,
    ?_, Schema.query?_eq_some_iff.mpr ⟨template, htemplate, rfl⟩⟩
  obtain ⟨rfl, hi⟩ := h.marks hx
  rw [hi] at htemplate
  exact name_of_filesets htemplate

variable (hlog : l.log = start ++ queries)

include hlog

theorem perm : queries.Perm (l.cache.asked.filterMap Schema.standard.query?) :=
  h.schema ▸ h.ledger.issued hlog

theorem mem_queries_iff : query ∈ queries ↔
    ∃ kind c, ((kind, c) ∈ l.cache.contentsAsked ∨ (kind, c) ∈ l.cache.holdersAsked) ∧
      Schema.standard.query? (kind, c) = some query := by
  rw [(h.perm hlog).mem_iff, List.mem_filterMap]
  simp [Cache.asked]

/-- No query is put twice. -/
theorem nodup : queries.Nodup := by
  have hdisjoint : ∀ asked ∈ l.cache.contentsAsked, asked ∉ l.cache.holdersAsked := by
    rintro ⟨kind, c⟩ hc hx
    obtain ⟨rfl, -⟩ := h.marks hx
    exact contained_ne_fileset_of_edge (h.founded.contents hc).1 rfl
  have hmarks : l.cache.asked.Nodup :=
    List.nodup_append'.mpr ⟨l.cache.contentsAsked.nodup, l.cache.holdersAsked.nodup, hdisjoint⟩
  refine (h.perm hlog).nodup_iff.mpr (hmarks.filterMap ?_)
  rintro ⟨kind, c⟩ ⟨kind', c'⟩ query hquery hquery'
  obtain ⟨rfl, rfl⟩ := Schema.query?_standard_inj hquery hquery'
  rfl

/-- A query that leads up asks for the filesets of an image. -/
theorem down_or_filesets (hquery : query ∈ queries) : ∃ template ∈ Template.standard,
    template.name = query.template ∧
      (template.direction = .contained ∨ template.name = "image_fileset") := by
  obtain ⟨kind, c, hasked | hasked, hquery⟩ := (h.mem_queries_iff hlog).mp hquery
  · obtain ⟨template, -, hmem, hdown, hown⟩ := h.query?_of_contents hasked
    obtain rfl := Option.some.inj (hown.symm.trans hquery)
    exact ⟨template, hmem, rfl, .inl hdown⟩
  · obtain ⟨template, hmem, -, hname, hown⟩ := h.query?_of_holders hasked
    obtain rfl := Option.some.inj (hown.symm.trans hquery)
    exact ⟨template, hmem, rfl, .inr hname⟩

end

end Lookups.Orderly

theorem run_log : (run service operations requests log).log =
    ((prepare service operations requests).after ⟨.fresh, log⟩).log := by
  unfold run LookupM.after
  cases prepare service operations requests ⟨.fresh, log⟩ <;> rfl

end FilesetBatch
