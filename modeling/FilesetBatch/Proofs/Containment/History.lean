import FilesetBatch.Proofs.Containment.Sound

/-!
# Histories of look-ups

Look-ups may be asked for in any order, of any kinds and targets, under any schema, and
after look-ups that failed (`afterEach`). The history of such look-ups lists the queries
that were put, each with the look-up that put it on its own account, its template and what
it got (`history`). A look-up of containers puts its own query and then leaves it to look-ups
of contents to put theirs.

A history is a course of new queries (`Course`) : each is put by a look-up that was not made
before, under a declared template, and the state behind it is the state before it with the
answer entered (`Sent.enter`). So what holds of cache and log is proved for one query
(`Lookups.Recorded.enter`) and follows for whole histories. `afterEach_reflects` says what
that is : the log is the history, no look-up puts its query twice, both indexes hold the same
pairs and nothing else, and the contents of one kind of a container are those that the query
for them was answered with, or none as long as it was not put or if it failed.
-/

namespace FilesetBatch

/-- A look-up that the cache can be asked for. -/
inductive Lookup
  /-- What the container contains of this kind. -/
  | contents (kind : Kind) (container : Target)
  /-- What contains the entity and is of this kind. -/
  | holders (kind : Kind) (contained : Target)
deriving DecidableEq

namespace Lookup

/-- The kind of the entities that are looked for. -/
def kind : Lookup → Kind
  | contents kind _ => kind
  | holders kind _ => kind

/-- The entity around which they are looked for. -/
def target : Lookup → Target
  | contents _ container => container
  | holders _ contained => contained

/-- Make the look-up. -/
def make (service : QueryService) : Lookup → LookupM Unit
  | contents kind container => lookupContents service kind container
  | holders kind contained => lookupContainers service kind contained

/-- The look-up was made before. -/
def Marked (cache : Cache) : Lookup → Prop
  | contents kind container => (kind, container) ∈ cache.contentsAsked
  | holders kind contained => (kind, contained) ∈ cache.holdersAsked

instance (cache : Cache) (lookup : Lookup) : Decidable (lookup.Marked cache) :=
  match lookup with
  | contents kind container => inferInstanceAs (Decidable ((kind, container) ∈ cache.contentsAsked))
  | holders kind contained => inferInstanceAs (Decidable ((kind, contained) ∈ cache.holdersAsked))

end Lookup

/-- A query that a look-up put on its own account, and what it got. -/
structure Sent where
  lookup : Lookup
  template : Template
  answer : Answer

namespace Sent

/-- The query as it is logged. -/
def query (sent : Sent) : Query :=
  ⟨sent.template.name, sent.lookup.target.id⟩

/-- Mark the look-up, log the query, and record what the answer says of contents. -/
def enter (sent : Sent) (l : Lookups) : Lookups where
  cache :=
    match sent.lookup with
    | .contents kind container =>
      (l.cache.markContents kind container).recordAll container kind sent.answer.ids
    | .holders kind contained => l.cache.markHolders kind contained
  log := l.log ++ [sent.query]

/-- The look-ups that are made next : the contents of each container in the answer. -/
def behind (sent : Sent) : List Lookup :=
  match sent.lookup with
  | .contents .. => []
  | .holders kind contained => sent.answer.ids.map fun id => .contents contained.kind ⟨kind, id⟩

end Sent

/-! ## Which queries are put -/

/-- The query that a look-up puts on its own account : none if it was made before or if no
template is declared for it. -/
def Lookup.own? (service : QueryService) (lookup : Lookup) (l : Lookups) : Option Sent :=
  if lookup.Marked l.cache then none
  else
    (l.cache.schema.template? lookup.target.kind lookup.kind).map fun template =>
      ⟨lookup, template, service.answer l.log template lookup.target.id⟩

/-- The queries of look-ups of contents that are made one after another, up to the first that
fails. -/
def sentUntilFailure (service : QueryService) : List Lookup → Lookups → List Sent
  | [], _ => []
  | lookup :: rest, l =>
    (lookup.own? service l).toList ++
      match lookup.make service l with
      | .ok _ l' => sentUntilFailure service rest l'
      | .error _ _ => []

/-- All queries that a look-up puts, its own one first. -/
def Lookup.sent (service : QueryService) (lookup : Lookup) (l : Lookups) : List Sent :=
  match lookup.own? service l with
  | some sent => sent :: sentUntilFailure service sent.behind (sent.enter l)
  | none => []

/-- What look-ups leave behind that are made one after another, whether or not they fail. -/
def afterEach (service : QueryService) (lookups : List Lookup) (l : Lookups) : Lookups :=
  lookups.foldl (fun l lookup => (lookup.make service).after l) l

/-- The queries that they put, in order. -/
def history (service : QueryService) : List Lookup → Lookups → List Sent
  | [], _ => []
  | lookup :: rest, l =>
    lookup.sent service l ++ history service rest ((lookup.make service).after l)

variable {service : QueryService} {schema : Schema} {start : QueryLog} {l l' m : Lookups}
  {lookup : Lookup} {lookups more : List Lookup} {sent : Sent} {sents sents' : List Sent}

theorem history_append : history service (lookups ++ more) l =
    history service lookups l ++ history service more (afterEach service lookups l) := by
  induction lookups generalizing l with
  | nil => rfl
  | cons lookup lookups ih => simp [history, ih, afterEach]

/-! ## Courses of queries -/

/-- From one state to another by these queries, each put by a look-up that was not made
before. -/
inductive Course (service : QueryService) : Lookups → List Sent → Lookups → Prop
  | done {l : Lookups} : Course service l [] l
  | put {l l' : Lookups} {sent : Sent} {sents : List Sent}
      (own : sent.lookup.own? service l = some sent) (rest : Course service (sent.enter l) sents l') :
      Course service l (sent :: sents) l'

theorem Course.append (h : Course service l sents m) (h' : Course service m sents' l') :
    Course service l (sents ++ sents') l' := by
  induction h with
  | done => exact h'
  | put own _ ih => exact .put own (ih h')

theorem Lookup.own?_eq_some_iff : lookup.own? service l = some sent ↔
    sent.lookup = lookup ∧ ¬ lookup.Marked l.cache ∧
      l.cache.schema.template? lookup.target.kind lookup.kind = some sent.template ∧
      service.answer l.log sent.template lookup.target.id = sent.answer := by
  unfold own?
  split
  · simp_all
  · rename_i hnew
    rw [Option.map_eq_some_iff]
    constructor
    · rintro ⟨template, htemplate, rfl⟩
      exact ⟨rfl, hnew, htemplate, rfl⟩
    · rintro ⟨rfl, -, htemplate, hanswer⟩
      exact ⟨sent.template, htemplate, by rw [hanswer]⟩

theorem Lookup.own?_of_marked (h : lookup.Marked l.cache) : lookup.own? service l = none :=
  if_pos h

theorem Lookup.own?_of_undeclared
    (h : l.cache.schema.template? lookup.target.kind lookup.kind = none) :
    lookup.own? service l = none := by
  unfold own?
  split
  · rfl
  · rw [h, Option.map_none]

/-- A look-up of contents puts no query but its own. -/
theorem course_contents (kind : Kind) (c : Target) (l : Lookups) :
    Course service l ((Lookup.contents kind c).own? service l).toList
      ((lookupContents service kind c).after l) := by
  by_cases new : (Lookup.contents kind c).Marked l.cache
  · rw [Lookup.own?_of_marked new, LookupM.after_of_ok (lookupContents_of_mem new)]
    exact .done
  cases declared : l.cache.schema.template? c.kind kind with
  | none =>
    rw [Lookup.own?_of_undeclared declared, LookupM.after_of_error
      (lookupContents_of_undeclared new (Schema.template_eq_error_iff.mpr ⟨declared, rfl⟩))]
    exact .done
  | some template =>
    have hfound := Schema.template_eq_ok_iff.mpr declared
    cases answered : service.answer l.log template c.id with
    | ok ids =>
      have hown : (Lookup.contents kind c).own? service l =
          some ⟨.contents kind c, template, .ok ids⟩ :=
        Lookup.own?_eq_some_iff.mpr ⟨rfl, new, declared, answered⟩
      rw [hown, LookupM.after_of_ok (lookupContents_of_answered new hfound answered)]
      exact .put hown .done
    | error reason =>
      have hown : (Lookup.contents kind c).own? service l =
          some ⟨.contents kind c, template, .error reason⟩ :=
        Lookup.own?_eq_some_iff.mpr ⟨rfl, new, declared, answered⟩
      rw [hown, LookupM.after_of_error (lookupContents_of_failed new hfound answered)]
      exact .put hown .done

theorem course_untilFailure (kind kind' : Kind) (ids : List Int) (l : Lookups) :
    Course service l
      (sentUntilFailure service (ids.map fun id => .contents kind ⟨kind', id⟩) l)
      ((ids.forM fun id => lookupContents service kind ⟨kind', id⟩).after l) := by
  induction ids generalizing l with
  | nil => exact .done
  | cons id ids ih =>
    have hfirst : Course service l _ _ := course_contents kind ⟨kind', id⟩ l
    have hcons : ((id :: ids).forM fun id => lookupContents service kind ⟨kind', id⟩) =
        lookupContents service kind ⟨kind', id⟩ >>= fun _ =>
          ids.forM fun id => lookupContents service kind ⟨kind', id⟩ := rfl
    rw [hcons, LookupM.after_bind, List.map_cons, sentUntilFailure]
    simp only [Lookup.make]
    cases hmake : lookupContents service kind ⟨kind', id⟩ l with
    | ok u m =>
      rw [LookupM.after_of_ok hmake] at hfirst
      exact hfirst.append (ih m)
    | error failure m =>
      rw [LookupM.after_of_error hmake] at hfirst
      rwa [List.append_nil]

theorem course_holders (kind : Kind) (x : Target) (l : Lookups) :
    Course service l ((Lookup.holders kind x).sent service l)
      ((lookupContainers service kind x).after l) := by
  unfold Lookup.sent
  by_cases new : (Lookup.holders kind x).Marked l.cache
  · rw [Lookup.own?_of_marked new, LookupM.after_of_ok (lookupContainers_of_mem new)]
    exact .done
  cases declared : l.cache.schema.template? x.kind kind with
  | none =>
    rw [Lookup.own?_of_undeclared declared, LookupM.after_of_error
      (lookupContainers_of_undeclared new (Schema.template_eq_error_iff.mpr ⟨declared, rfl⟩))]
    exact .done
  | some template =>
    have hfound := Schema.template_eq_ok_iff.mpr declared
    cases answered : service.answer l.log template x.id with
    | ok ids =>
      have hown : (Lookup.holders kind x).own? service l =
          some ⟨.holders kind x, template, .ok ids⟩ :=
        Lookup.own?_eq_some_iff.mpr ⟨rfl, new, declared, answered⟩
      rw [hown, LookupM.after_eq_of_eq (lookupContainers_of_answered new hfound answered)]
      exact .put hown (course_untilFailure x.kind kind ids _)
    | error reason =>
      have hown : (Lookup.holders kind x).own? service l =
          some ⟨.holders kind x, template, .error reason⟩ :=
        Lookup.own?_eq_some_iff.mpr ⟨rfl, new, declared, answered⟩
      rw [hown, LookupM.after_of_error (lookupContainers_of_failed new hfound answered)]
      exact .put hown .done

/-- Behind a look-up of contents there is no other look-up. -/
theorem Lookup.sent_contents (kind : Kind) (c : Target) (l : Lookups) :
    (contents kind c).sent service l = ((contents kind c).own? service l).toList := by
  unfold sent
  cases hown : (contents kind c).own? service l with
  | none => rfl
  | some sent =>
    have hbehind : sent.behind = [] := by rw [Sent.behind, (own?_eq_some_iff.mp hown).1]
    simp [hbehind, sentUntilFailure]

theorem course_make (lookup : Lookup) (l : Lookups) :
    Course service l (lookup.sent service l) ((lookup.make service).after l) := by
  cases lookup with
  | contents kind c =>
    rw [Lookup.sent_contents]
    exact course_contents kind c l
  | holders kind x => exact course_holders kind x l

/-- A history is a course to what the look-ups leave behind. -/
theorem course_history (service : QueryService) (lookups : List Lookup) (l : Lookups) :
    Course service l (history service lookups l) (afterEach service lookups l) := by
  induction lookups generalizing l with
  | nil => exact .done
  | cons lookup lookups ih => exact (course_make lookup l).append (ih _)

/-! ## What one more query changes -/

namespace Sent

theorem puts_enter (h : sent.lookup.own? service l = some sent) :
    Puts service (fun _ => True) l sent.query sent.answer (sent.enter l) := by
  obtain ⟨-, new, declared, answered⟩ := Lookup.own?_eq_some_iff.mp h
  obtain ⟨lookup, template, answer⟩ := sent
  cases lookup with
  | contents kind c => exact .contents trivial new declared answered
  | holders kind x => exact .holders trivial new declared answered

theorem marked_enter : lookup.Marked (sent.enter l).cache ↔
    lookup = sent.lookup ∨ lookup.Marked l.cache := by
  obtain ⟨own, template, answer⟩ := sent
  cases own <;> cases lookup <;> simp [enter, Lookup.Marked]

theorem holds_enter {c x : Target} : (sent.enter l).cache.Holds c x ↔
    (sent.lookup = .contents x.kind c ∧ x.id ∈ sent.answer.ids) ∨ l.cache.Holds c x := by
  obtain ⟨own, template, answer⟩ := sent
  cases own with
  | contents kind container =>
    rw [enter, Cache.holds_recordAll, Cache.holds_markContents, Lookup.contents.injEq]
    tauto
  | holders kind contained => simp [enter]

end Sent

/-! ## What cache and log tell of the history -/

/-- What holds once these queries were put, from an empty cache and the log `start` on. -/
structure Lookups.Recorded (service : QueryService) (schema : Schema) (start : QueryLog)
    (sents : List Sent) (l : Lookups) : Prop where
  schema_eq : l.cache.schema = schema
  founded : l.Founded service (fun _ => True) start
  log : l.log = start ++ sents.map Sent.query
  once : (sents.map Sent.lookup).Nodup
  marked_iff : ∀ {lookup : Lookup}, lookup.Marked l.cache ↔ lookup ∈ sents.map Sent.lookup
  holds_iff : ∀ {c x}, l.cache.Holds c x ↔
    ∃ sent ∈ sents, sent.lookup = .contents x.kind c ∧ x.id ∈ sent.answer.ids
  answered : ∀ {before sent after}, sents = before ++ sent :: after →
    schema.template? sent.lookup.target.kind sent.lookup.kind = some sent.template ∧
      service.answer (start ++ before.map Sent.query) sent.template sent.lookup.target.id =
        sent.answer

namespace Lookups.Recorded

theorem ofSchema (service : QueryService) (schema : Schema) (start : QueryLog) :
    Lookups.Recorded service schema start [] ⟨.ofSchema schema, start⟩ where
  schema_eq := rfl
  founded := .ofSchema schema
  log := by simp
  once := .nil
  marked_iff {lookup} := by cases lookup <;> simp [Lookup.Marked, Cache.ofSchema]
  holds_iff := by simp [Cache.Holds, Cache.ofSchema, Cache.contained]
  answered h := by simp at h

theorem enter (h : l.Recorded service schema start sents)
    (hown : sent.lookup.own? service l = some sent) :
    (sent.enter l).Recorded service schema start (sents ++ [sent]) := by
  obtain ⟨-, new, declared, answered⟩ := Lookup.own?_eq_some_iff.mp hown
  have hputs := Sent.puts_enter hown
  refine ⟨hputs.grows.schema.trans h.schema_eq, h.founded.puts hputs, ?_, ?_,
    fun {lookup} => ?_, fun {c x} => ?_, fun {before last after} hsplit => ?_⟩
  · simp [Sent.enter, h.log]
  · rw [h.marked_iff] at new
    rw [List.map_append, List.nodup_append_comm]
    exact List.nodup_cons.mpr ⟨new, h.once⟩
  · rw [Sent.marked_enter, h.marked_iff]
    simp [or_comm]
  · rw [Sent.holds_enter, h.holds_iff]
    simp [or_and_right, exists_or, or_comm]
  · rcases eq_or_exists_of_append_singleton_eq hsplit with ⟨rfl, rfl, -⟩ | ⟨rest, hrest⟩
    · rw [h.schema_eq] at declared
      exact ⟨declared, h.log ▸ answered⟩
    · exact h.answered hrest

theorem course (h : l.Recorded service schema start sents) (hl : Course service l sents' l') :
    l'.Recorded service schema start (sents ++ sents') := by
  induction hl generalizing sents with
  | done => rwa [List.append_nil]
  | put own _ ih =>
    rw [List.append_cons]
    exact ih (h.enter own)

end Lookups.Recorded

theorem recorded_afterEach (service : QueryService) (schema : Schema) (start : QueryLog)
    (lookups : List Lookup) :
    (afterEach service lookups ⟨.ofSchema schema, start⟩).Recorded service schema start
      (history service lookups ⟨.ofSchema schema, start⟩) :=
  (Lookups.Recorded.ofSchema service schema start).course (course_history service lookups _)

theorem Lookup.marked_or_undeclared_of_own?_eq_none (h : lookup.own? service l = none) :
    lookup.Marked l.cache ∨ l.cache.schema.template? lookup.target.kind lookup.kind = none := by
  unfold own? at h
  split at h
  · exact .inl (by assumption)
  · exact .inr (Option.map_eq_none_iff.mp h)

/-- A look-up that was asked for is in the history, unless no template is declared for it. -/
theorem mem_history_or_undeclared (start : QueryLog) (h : lookup ∈ lookups) :
    lookup ∈ (history service lookups ⟨.ofSchema schema, start⟩).map Sent.lookup ∨
      schema.template? lookup.target.kind lookup.kind = none := by
  obtain ⟨before, after, rfl⟩ := List.append_of_mem h
  have hrecorded := recorded_afterEach service schema start before
  rw [history_append, List.map_append, List.mem_append]
  cases hown : lookup.own? service (afterEach service before ⟨.ofSchema schema, start⟩) with
  | some sent =>
    refine .inl (.inr (List.mem_map.mpr ⟨sent, ?_, (Lookup.own?_eq_some_iff.mp hown).1⟩))
    simp [history, Lookup.sent, hown]
  | none =>
    rcases Lookup.marked_or_undeclared_of_own?_eq_none hown with hmarked | hundeclared
    · exact .inl (.inl (hrecorded.marked_iff.mp hmarked))
    · exact .inr (hrecorded.schema_eq ▸ hundeclared)

/-- Cache and log behind the queries `sents`, which were put from an empty cache and the log
`start` on, for these look-ups. -/
structure Lookups.Reflects (service : QueryService) (schema : Schema) (start : QueryLog)
    (lookups : List Lookup) (sents : List Sent) (l : Lookups) : Prop where
  /-- These queries and no others were put. -/
  log : l.log = start ++ sents.map Sent.query
  /-- Each was put under the template of its look-up, and got what the service answered then. -/
  answered : ∀ before sent after, sents = before ++ sent :: after →
    schema.template? sent.lookup.target.kind sent.lookup.kind = some sent.template ∧
      service.answer (start ++ before.map Sent.query) sent.template sent.lookup.target.id =
        sent.answer
  /-- No look-up puts its own query twice. -/
  once : (sents.map Sent.lookup).Nodup
  /-- Each look-up that was asked for has put its query, unless it has no template. -/
  asked : ∀ lookup ∈ lookups, lookup ∈ sents.map Sent.lookup ∨
    schema.template? lookup.target.kind lookup.kind = none
  /-- Each pair is found from both ends. -/
  mem_contained_iff : ∀ c x, x ∈ l.cache.contained c ↔ c ∈ l.cache.containers x
  /-- No container is listed that holds nothing, and each is counted once. -/
  containers : (∀ c ∈ l.cache.contents.keys, ∃ x, x ∈ l.cache.contained c) ∧
    ∃ ends : TargetSet, (∀ c, c ∈ ends ↔ ∃ x, x ∈ l.cache.contained c) ∧
      l.cache.containerCount = ends.size
  /-- No entity is listed that lies in nothing, and each is counted once. -/
  contained : (∀ x ∈ l.cache.holders.keys, ∃ c, c ∈ l.cache.containers x) ∧
    ∃ ends : TargetSet, (∀ x, x ∈ ends ↔ ∃ c, c ∈ l.cache.containers x) ∧
      l.cache.containedCount = ends.size
  /-- Until its contents of a kind are looked up, a container holds none. -/
  unasked : ∀ kind c, .contents kind c ∉ sents.map Sent.lookup →
    ∀ x ∈ l.cache.contained c, x.kind ≠ kind
  /-- From then on it holds those that were answered, none if the query failed. -/
  complete : ∀ sent ∈ sents, ∀ kind c, sent.lookup = .contents kind c →
    ∀ x : Target, x.kind = kind → (x ∈ l.cache.contained c ↔ x.id ∈ sent.answer.ids)

/-- After any look-ups, failed ones included, cache and log reflect the queries that were
put, and later look-ups only add to these. -/
theorem afterEach_reflects (service : QueryService) (templates : List Template)
    (start : QueryLog) (lookups more : List Lookup) :
    let fresh : Lookups := ⟨.ofSchema (.ofTemplates templates), start⟩
    (afterEach service lookups fresh).Reflects service (.ofTemplates templates) start lookups
        (history service lookups fresh) ∧
      history service lookups fresh <+: history service (lookups ++ more) fresh := by
  intro fresh
  have h := recorded_afterEach service (.ofTemplates templates) start lookups
  refine ⟨⟨h.log, fun _ _ _ => h.answered, h.once,
    fun lookup hlookup => mem_history_or_undeclared start hlookup,
    fun c x => (h.founded.aligned c x).symm,
    ⟨fun c => TargetIndex.mem_keys_iff.mp, TargetIndex.exists_used _⟩,
    ⟨fun x => TargetIndex.mem_keys_iff.mp, TargetIndex.exists_used _⟩,
    fun kind c hunasked x hx hkind => ?_, fun sent hsent kind c hlookup x hkind => ?_⟩, ?_⟩
  · obtain ⟨sent, hsent, hlookup, -⟩ := h.holds_iff.mp hx
    exact hunasked (List.mem_map.mpr ⟨sent, hsent, hkind ▸ hlookup⟩)
  · subst hkind
    refine h.holds_iff.trans ⟨?_, fun hid => ⟨sent, hsent, hlookup, hid⟩⟩
    rintro ⟨sent', hsent', hlookup', hid⟩
    -- only one query was put for this look-up
    obtain rfl := List.inj_on_of_nodup_map h.once hsent hsent' (hlookup.trans hlookup'.symm)
    exact hid
  · rw [history_append]
    exact List.prefix_append _ _

end FilesetBatch
