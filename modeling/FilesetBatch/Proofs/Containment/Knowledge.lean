import Mathlib.Tactic.Tauto
import FilesetBatch.Proofs.Containment.Above
import FilesetBatch.Proofs.Containment.Progress

/-!
# What the cache knows, and from which answers

Every query that is put leaves the cache with more than before and takes nothing back
(`Lookups.Grows`); what a container holds of a kind does not change once that look-up is
marked. All that is cached rests on the answers in the log (`Lookups.Founded`) : a pair is
cached only under a look-up that was made, the look-up lies along an allowed edge, and what
the cache holds for it are exactly the numbers of the answer that its query got
(`QueryService.Gave`). These hold after any sequence of queries, failed ones included.
-/

namespace FilesetBatch

variable {service : QueryService} {along : Edge → Prop} {start log log' : QueryLog}
  {template : Template} {answer : Answer} {query : Query} {l l' m : Lookups}

/-! ## Answers in the log -/

/-- Behind the queries of `start`, the log has this query, and this is what it got. -/
def QueryService.Gave (service : QueryService) (start log : QueryLog) (template : Template)
    (id : Int) (answer : Answer) : Prop :=
  ∃ before after, log = start ++ before ++ ⟨template.name, id⟩ :: after ∧
    service.answer (start ++ before) template id = answer

namespace QueryService

variable {id : Int}

theorem Gave.mono (h : service.Gave start log template id answer) (hlog : log <+: log') :
    service.Gave start log' template id answer := by
  obtain ⟨before, after, rfl, hanswer⟩ := h
  obtain ⟨more, rfl⟩ := hlog
  exact ⟨before, after ++ more, by simp, hanswer⟩

theorem gave_append_singleton (hlog : start <+: log)
    (hanswer : service.answer log template id = answer) :
    service.Gave start (log ++ [⟨template.name, id⟩]) template id answer := by
  obtain ⟨before, rfl⟩ := hlog
  exact ⟨before, [], rfl, hanswer⟩

end QueryService

/-! ## Recording and marking -/

namespace Cache

variable {cache : Cache} {kind kind' : Kind} {ids : List Int} {c c' x x' : Target}

theorem holds_recordAll :
    (cache.recordAll c kind ids).Holds c' x ↔
      (c' = c ∧ x.kind = kind ∧ x.id ∈ ids) ∨ cache.Holds c' x := by
  unfold recordAll
  induction ids generalizing cache with
  | nil => simp
  | cons id ids ih =>
    rw [List.foldl_cons, ih, Holds, mem_contained_record, Holds,
      @Target.eq_mk_iff x, List.mem_cons]
    tauto

theorem inside_recordAll :
    (cache.recordAll c kind ids).Inside x c' ↔
      (c' = c ∧ x.kind = kind ∧ x.id ∈ ids) ∨ cache.Inside x c' := by
  unfold recordAll
  induction ids generalizing cache with
  | nil => simp
  | cons id ids ih =>
    rw [List.foldl_cons, ih, Inside, mem_containers_record, Inside,
      @Target.eq_mk_iff x, List.mem_cons]
    tauto

/-- Recording keeps the schema and the look-ups that were made. -/
theorem recordAll_rest :
    (cache.recordAll c kind ids).schema = cache.schema ∧
      (cache.recordAll c kind ids).contentsAsked = cache.contentsAsked ∧
      (cache.recordAll c kind ids).holdersAsked = cache.holdersAsked := by
  unfold recordAll
  induction ids generalizing cache with
  | nil => exact ⟨rfl, rfl, rfl⟩
  | cons id ids ih => exact ih

@[simp] theorem recordAll_schema : (cache.recordAll c kind ids).schema = cache.schema :=
  recordAll_rest.1

@[simp] theorem recordAll_contentsAsked :
    (cache.recordAll c kind ids).contentsAsked = cache.contentsAsked :=
  recordAll_rest.2.1

@[simp] theorem recordAll_holdersAsked :
    (cache.recordAll c kind ids).holdersAsked = cache.holdersAsked :=
  recordAll_rest.2.2

@[simp] theorem contentsAsked_fresh : fresh.contentsAsked = ∅ := rfl

@[simp] theorem holdersAsked_fresh : fresh.holdersAsked = ∅ := rfl

@[simp] theorem markContents_schema : (cache.markContents kind c).schema = cache.schema := rfl

@[simp] theorem markHolders_schema : (cache.markHolders kind x).schema = cache.schema := rfl

@[simp] theorem markContents_contentsAsked :
    (cache.markContents kind c).contentsAsked = cache.contentsAsked.insert (kind, c) := rfl

@[simp] theorem markContents_holdersAsked :
    (cache.markContents kind c).holdersAsked = cache.holdersAsked := rfl

@[simp] theorem markHolders_contentsAsked :
    (cache.markHolders kind x).contentsAsked = cache.contentsAsked := rfl

@[simp] theorem markHolders_holdersAsked :
    (cache.markHolders kind x).holdersAsked = cache.holdersAsked.insert (kind, x) := rfl

@[simp] theorem holds_markContents :
    (cache.markContents kind' c').Holds c x ↔ cache.Holds c x := Iff.rfl

@[simp] theorem inside_markContents :
    (cache.markContents kind' c').Inside x c ↔ cache.Inside x c := Iff.rfl

@[simp] theorem holds_markHolders :
    (cache.markHolders kind' x').Holds c x ↔ cache.Holds c x := Iff.rfl

@[simp] theorem inside_markHolders :
    (cache.markHolders kind' x').Inside x c ↔ cache.Inside x c := Iff.rfl

end Cache

/-! ## Growth -/

/-- Nothing that was looked up is lost, and the contents that were looked up stay as they
are. -/
structure Lookups.Grows (l l' : Lookups) : Prop where
  schema : l'.cache.schema = l.cache.schema
  log : l.log <+: l'.log
  contentsAsked : ∀ {asked}, asked ∈ l.cache.contentsAsked → asked ∈ l'.cache.contentsAsked
  holdersAsked : ∀ {asked}, asked ∈ l.cache.holdersAsked → asked ∈ l'.cache.holdersAsked
  holds : ∀ {c x}, l.cache.Holds c x → l'.cache.Holds c x
  stable : ∀ {c x}, (x.kind, c) ∈ l.cache.contentsAsked → l'.cache.Holds c x →
    l.cache.Holds c x

namespace Lookups.Grows

theorem refl (l : Lookups) : l.Grows l :=
  ⟨rfl, List.prefix_refl _, id, id, id, fun _ => id⟩

theorem trans (h : l.Grows m) (h' : m.Grows l') : l.Grows l' where
  schema := h'.schema.trans h.schema
  log := h.log.trans h'.log
  contentsAsked := h'.contentsAsked ∘ h.contentsAsked
  holdersAsked := h'.holdersAsked ∘ h.holdersAsked
  holds := h'.holds ∘ h.holds
  stable hasked := h.stable hasked ∘ h'.stable (h.contentsAsked hasked)

end Lookups.Grows

theorem Puts.grows (h : Puts service along l query answer l') : l.Grows l' := by
  cases h with
  | contents edge new declared answered =>
    refine ⟨by simp, List.prefix_append _ _, ?_, ?_, ?_, ?_⟩
    · simp +contextual
    · simp
    · intro c x hx
      exact Cache.holds_recordAll.mpr (.inr hx)
    · intro c x hasked hx
      rcases Cache.holds_recordAll.mp hx with ⟨rfl, rfl, -⟩ | hx
      · exact absurd hasked new
      · exact hx
  | holders edge new declared answered =>
    refine ⟨rfl, List.prefix_append _ _, ?_, ?_, ?_, ?_⟩ <;> simp +contextual

theorem Progress.grows (h : Progress service along l l') : l.Grows l' := by
  induction h with
  | refl => exact .refl l
  | tail _ hstep ih =>
    obtain ⟨query, ids, hstep⟩ := hstep
    exact ih.trans hstep.grows

theorem LookupM.Follows.grows {α : Type} {program : LookupM α}
    (h : program.Follows service along) : program.Leads Lookups.Grows :=
  fun _ _ _ heq => (h.ok heq).grows

/-! ## The answers behind the cache -/

/-- All that is cached rests on the answers that queries behind `start` got. -/
structure Lookups.Founded (service : QueryService) (along : Edge → Prop) (start : QueryLog)
    (l : Lookups) : Prop where
  log : start <+: l.log
  aligned : l.cache.Aligned
  asked : ∀ {c x}, l.cache.Holds c x → (x.kind, c) ∈ l.cache.contentsAsked
  contents : ∀ {kind c}, (kind, c) ∈ l.cache.contentsAsked → along ⟨c.kind, kind⟩ ∧
    ∃ template answer, l.cache.schema.template? c.kind kind = some template ∧
      service.Gave start l.log template c.id answer ∧
      ∀ x : Target, x.kind = kind → (l.cache.Holds c x ↔ x.id ∈ answer.ids)
  holders : ∀ {kind x}, (kind, x) ∈ l.cache.holdersAsked → along ⟨kind, x.kind⟩ ∧
    ∃ template answer, l.cache.schema.template? x.kind kind = some template ∧
      service.Gave start l.log template x.id answer

namespace Lookups.Founded

variable {c x : Target}

theorem ofSchema (schema : Schema) :
    Lookups.Founded service along start ⟨.ofSchema schema, start⟩ where
  log := List.prefix_refl start
  aligned := Cache.aligned_ofSchema schema
  asked h := by simp [Cache.Holds, Cache.ofSchema, Cache.contained] at h
  contents h := by simp [Cache.ofSchema] at h
  holders h := by simp [Cache.ofSchema] at h

/-- What holds something lies at the upper end of an allowed edge to it. -/
theorem edge (h : l.Founded service along start) (hx : l.cache.Holds c x) :
    along ⟨c.kind, x.kind⟩ :=
  (h.contents (h.asked hx)).1

/-- A cached pair was answered to the query for the contents of its container. -/
theorem exists_answer (h : l.Founded service along start) (hx : l.cache.Holds c x) :
    ∃ template ids, l.cache.schema.template? c.kind x.kind = some template ∧
      service.Gave start l.log template c.id (.ok ids) ∧ x.id ∈ ids := by
  obtain ⟨-, template, answer, htemplate, hgave, hids⟩ := h.contents (h.asked hx)
  have hid := (hids x rfl).mp hx
  cases answer with
  | ok ids => exact ⟨template, ids, htemplate, hgave, hid⟩
  | error reason => simp [Answer.ids] at hid

theorem puts (h : l.Founded service along start) (hstep : Puts service along l query answer l') :
    l'.Founded service along start := by
  have hgrows := hstep.grows
  -- what a marked look-up got and holds is not touched by a query for another one
  have kept : ∀ {kind c}, (kind, c) ∈ l.cache.contentsAsked → along ⟨c.kind, kind⟩ ∧
      ∃ template answer, l'.cache.schema.template? c.kind kind = some template ∧
        service.Gave start l'.log template c.id answer ∧
        ∀ x : Target, x.kind = kind → (l'.cache.Holds c x ↔ x.id ∈ answer.ids) := by
    intro kind c hasked
    obtain ⟨hedge, template, answer, htemplate, hgave, hids⟩ := h.contents hasked
    refine ⟨hedge, template, answer, hgrows.schema ▸ htemplate, hgave.mono hgrows.log, ?_⟩
    rintro x rfl
    rw [← hids x rfl]
    exact ⟨hgrows.stable hasked, hgrows.holds⟩
  have kept' : ∀ {kind x}, (kind, x) ∈ l.cache.holdersAsked → along ⟨kind, x.kind⟩ ∧
      ∃ template answer, l'.cache.schema.template? x.kind kind = some template ∧
        service.Gave start l'.log template x.id answer := by
    intro kind x hasked
    obtain ⟨hedge, template, answer, htemplate, hgave⟩ := h.holders hasked
    exact ⟨hedge, template, answer, hgrows.schema ▸ htemplate, hgave.mono hgrows.log⟩
  cases hstep with
  | @contents kind container template answer edge new declared answered =>
    have hnone : ∀ x : Target, x.kind = kind → ¬ l.cache.Holds container x := by
      rintro x rfl hx
      exact new (h.asked hx)
    refine ⟨h.log.trans hgrows.log, fun c x => ?_, fun {c x} hx => ?_, fun {kind' c} hc => ?_,
      fun {kind' x} hx => kept' (by simpa using hx)⟩
    · rw [Cache.inside_recordAll, Cache.holds_recordAll]
      exact or_congr_right (h.aligned c x)
    · rcases Cache.holds_recordAll.mp hx with ⟨rfl, rfl, -⟩ | hx
      · simp
      · exact hgrows.contentsAsked (h.asked hx)
    · have hc : (kind' = kind ∧ c = container) ∨ (kind', c) ∈ l.cache.contentsAsked := by
        simpa using hc
      rcases hc with ⟨rfl, rfl⟩ | hold
      · refine ⟨edge, template, answer, by simpa using declared,
          QueryService.gave_append_singleton h.log answered, fun x hx => ?_⟩
        rw [Cache.holds_recordAll]
        simp [hx, hnone x hx]
      · exact kept hold
  | @holders kind contained template answer edge new declared answered =>
    refine ⟨h.log.trans hgrows.log, h.aligned, h.asked, kept, fun {kind' x} hx => ?_⟩
    have hx : (kind' = kind ∧ x = contained) ∨ (kind', x) ∈ l.cache.holdersAsked := by
      simpa using hx
    rcases hx with ⟨rfl, rfl⟩ | hold
    · exact ⟨edge, template, answer, declared,
        QueryService.gave_append_singleton h.log answered⟩
    · exact kept' hold

theorem progress (h : l.Founded service along start) (hl : Progress service along l l') :
    l'.Founded service along start := by
  induction hl with
  | refl => exact h
  | tail _ hstep ih =>
    obtain ⟨query, ids, hstep⟩ := hstep
    exact ih.puts hstep

end Lookups.Founded

end FilesetBatch
