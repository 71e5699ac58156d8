import FilesetBatch.Containment.LinkStore
import FilesetBatch.Proofs.Answers.Passes
import FilesetBatch.Proofs.Batch.Orderly

/-!
# Which queries a run puts

A run that succeeds over fixed answers puts the queries that its first batch calls for and
no others (`Needs`), although its passes go over rewritten batches. A rewritten batch touches
what the first one touches and, besides, only filesets whose images were looked up before
(`Drawn`).

The counts of the run are read off its queries. Each kind has contents of one kind at most,
so the entities that contain something are those whose one query down was answered with
something (`containerCount_eq_countP`), and the contained ones are those that such answers
list (`containedCount_eq_size`). `run_queries` puts this together with what holds of runs
that fail as well.
-/

namespace FilesetBatch

variable {answers : Answers} {service : QueryService} {start log : QueryLog}
  {first requests batch batch' : List Request} {operation k : Operation}
  {operations done : List Operation} {l l' : Lookups} {kind : Kind} {c t x : Target}
  {query : Query} {queries : List Query} {template : Template}

/-! ## What the first batch calls for -/

/-- The entity is among those that an operation collects from the requests. -/
def Collects (answers : Answers) (requests : List Request) (operation : Operation)
    (t : Target) : Prop :=
  ∃ reached l, collect (.ofAnswers answers) requests operation ⟨.fresh, []⟩ = .ok reached l ∧
    t ∈ reached

/-- The queries that a batch calls for : down each edge from what is collected, for the
filesets of the collected images, and for the images of those filesets. -/
inductive Needs (answers : Answers) (operations : List Operation) (requests : List Request) :
    Query → Prop
  | contents {edge : Edge} {c : Target} {template : Template} {k : Operation}
      (follow : edge ∈ hierarchy) (kind : c.kind = edge.container)
      (declared : Schema.standard.template? edge.container edge.contained = some template)
      (mem : k ∈ operations) (collects : Collects answers requests k c) :
      Needs answers operations requests ⟨template.name, c.id⟩
  | filesets {i : Target} {k : Operation} (image : i.kind = .image) (mem : k ∈ operations)
      (collects : Collects answers requests k i) :
      Needs answers operations requests ⟨"image_fileset", i.id⟩
  | images {i F : Target} {k : Operation} (image : i.kind = .image) (fileset : F.kind = .fileset)
      (mem : k ∈ operations) (collects : Collects answers requests k i)
      (gives : answers.Gives i F) : Needs answers operations requests ⟨"fileset_images", F.id⟩

theorem collects_iff (hreplies : answers.Replies requests k) :
    Collects answers requests k t ↔ Touches answers.Tells requests k t := by
  have hfresh : Lookups.Sound (.ofAnswers answers) [] ⟨.fresh, []⟩ := .fresh
  constructor
  · rintro ⟨reached, l, hcollect, ht⟩
    exact (collect_spec hfresh hcollect).mem_reached_iff_told.mp ht
  · intro ht
    obtain ⟨reached, l, hcollect⟩ := exists_collect hfresh hreplies
    exact ⟨reached, l, hcollect, (collect_spec hfresh hcollect).mem_reached_iff_told.mpr ht⟩

/-- What passes for these operations look up, told by the batch before the first of them. -/
structure Drawn (answers : Answers) (first : List Request) (done : List Operation)
    (batch : List Request) (l : Lookups) : Prop where
  contentsAsked_iff : ∀ {kind c}, (kind, c) ∈ l.cache.contentsAsked ↔
    ⟨c.kind, kind⟩ ∈ hierarchy ∧ ∃ k ∈ done, answers.Seeks first k c
  holdersAsked_iff : ∀ {kind x}, (kind, x) ∈ l.cache.holdersAsked ↔
    kind = .fileset ∧ x.kind = .image ∧ ∃ k ∈ done, Touches answers.Tells first k x
  replies : ∀ k ∈ done, answers.Replies first k
  touches : ∀ {k t}, Touches answers.Tells first k t → Touches answers.Tells batch k t
  touched : ∀ {k t}, Touches answers.Tells batch k t → Touches answers.Tells first k t ∨
    t.kind = .fileset ∧ (.image, t) ∈ l.cache.contentsAsked

namespace Drawn

theorem fresh : Drawn answers first [] first ⟨.fresh, start⟩ where
  contentsAsked_iff := by simp
  holdersAsked_iff := by simp
  replies := by simp
  touches := id
  touched := .inl

section

variable (h : Drawn answers first done batch l)

include h

theorem touches_iff (ht : t.kind ≠ .fileset) :
    Touches answers.Tells batch k t ↔ Touches answers.Tells first k t :=
  ⟨fun htouches => (h.touched htouches).resolve_right fun hF => ht hF.1, h.touches⟩

theorem seeks (hseeks : answers.Seeks first k c) : answers.Seeks batch k c := by
  rcases hseeks with htouches | ⟨hF, i, hi, htouches, hgives⟩
  · exact .inl (h.touches htouches)
  · exact .inr ⟨hF, i, hi, h.touches htouches, hgives⟩

/-- A look-up that a rewritten batch adds was made before. -/
theorem seeks_or_asked (hedge : ⟨c.kind, kind⟩ ∈ hierarchy) (hseeks : answers.Seeks batch k c) :
    answers.Seeks first k c ∨ (kind, c) ∈ l.cache.contentsAsked := by
  rcases hseeks with htouches | ⟨hF, i, hi, htouches, hgives⟩
  · refine (h.touched htouches).imp .inl fun ⟨hF, hasked⟩ => ?_
    rwa [show kind = .image from contained_of_fileset_edge hedge hF]
  · exact .inl (.inr ⟨hF, i, hi, (h.touches_iff (by simp [hi])).mp htouches, hgives⟩)

end

theorem passed (h : Drawn answers first done batch l)
    (hpassed : Passed answers start batch operation l batch' l') :
    Drawn answers first (done ++ [operation]) batch' l' where
  contentsAsked_iff {kind c} := by
    rw [hpassed.contentsAsked_iff]
    constructor
    · rintro (hasked | ⟨hedge, hseeks⟩)
      · obtain ⟨hedge, k, hk, hseeks⟩ := h.contentsAsked_iff.mp hasked
        exact ⟨hedge, k, List.mem_append_left _ hk, hseeks⟩
      · rcases h.seeks_or_asked hedge hseeks with hseeks | hasked
        · exact ⟨hedge, operation, by simp, hseeks⟩
        · obtain ⟨-, k, hk, hseeks⟩ := h.contentsAsked_iff.mp hasked
          exact ⟨hedge, k, List.mem_append_left _ hk, hseeks⟩
    · rintro ⟨hedge, k, hk, hseeks⟩
      rcases List.mem_append.mp hk with hk | hk
      · exact .inl (h.contentsAsked_iff.mpr ⟨hedge, k, hk, hseeks⟩)
      · rw [List.mem_singleton.mp hk] at hseeks
        exact .inr ⟨hedge, h.seeks hseeks⟩
  holdersAsked_iff {kind x} := by
    rw [hpassed.holdersAsked_iff, h.holdersAsked_iff, ← and_or_left, ← and_or_left]
    refine and_congr_right fun _ => and_congr_right fun hx => ?_
    rw [h.touches_iff (by simp [hx])]
    simp [or_and_right, exists_or]
  replies k hk := by
    rcases List.mem_append.mp hk with hk | hk
    · exact h.replies k hk
    · rw [List.mem_singleton.mp hk]
      exact ⟨fun hedge hseeks => hpassed.replies.contents hedge (h.seeks hseeks),
        fun hi htouches => hpassed.replies.filesets hi (h.touches htouches)⟩
  touches htouches := hpassed.touches_iff.mpr (.inl (h.touches htouches))
  touched htouches := by
    have hgrown : ∀ {asked}, asked ∈ l.cache.contentsAsked → asked ∈ l'.cache.contentsAsked :=
      fun hasked => hpassed.contentsAsked_iff.mpr (.inl hasked)
    rcases hpassed.touches_iff.mp htouches with htouches | ⟨-, hcomplete, hasked⟩
    · exact (h.touched htouches).imp_right (And.imp_right hgrown)
    · exact .inr ⟨hcomplete.kind, hasked⟩

/-- The queries of the marked look-ups are those that the first batch calls for. -/
theorem needs_iff (h : Drawn answers first done batch l) : Needs answers done first query ↔
    ∃ kind c, ((kind, c) ∈ l.cache.contentsAsked ∨ (kind, c) ∈ l.cache.holdersAsked) ∧
      Schema.standard.query? (kind, c) = some query := by
  have hcollects : ∀ {k t}, k ∈ done →
      (Collects answers first k t ↔ Touches answers.Tells first k t) :=
    fun hk => collects_iff (h.replies _ hk)
  constructor
  · intro hneeds
    cases hneeds with
    | @contents edge c template k hedge hkind htemplate hk hc =>
      obtain ⟨container, contained⟩ := edge
      obtain rfl : c.kind = container := hkind
      have hasked := h.contentsAsked_iff.mpr ⟨hedge, k, hk, .inl ((hcollects hk).mp hc)⟩
      exact ⟨_, c, .inl hasked, Schema.query?_eq_some_iff.mpr ⟨template, htemplate, rfl⟩⟩
    | @filesets i k hi hk hc =>
      have hasked := h.holdersAsked_iff.mpr ⟨rfl, hi, k, hk, (hcollects hk).mp hc⟩
      exact ⟨_, i, .inr hasked, Schema.query?_eq_some_iff.mpr ⟨_, by rw [hi]; rfl, rfl⟩⟩
    | @images i F k hi hF hk hc hgives =>
      have hasked := h.contentsAsked_iff.mpr ⟨edge_of_fileset hF rfl, k, hk,
        .inr ⟨hF, i, hi, (hcollects hk).mp hc, hgives⟩⟩
      exact ⟨_, F, .inl hasked, Schema.query?_eq_some_iff.mpr ⟨_, by rw [hF]; rfl, rfl⟩⟩
  · rintro ⟨kind, c, hasked | hasked, hquery⟩
    · obtain ⟨template, htemplate, rfl⟩ := Schema.query?_eq_some_iff.mp hquery
      obtain ⟨hedge, k, hk, htouches | ⟨hF, i, hi, htouches, hgives⟩⟩ :=
        h.contentsAsked_iff.mp hasked
      · exact .contents hedge rfl htemplate hk ((hcollects hk).mpr htouches)
      · have hkind : kind = .image := contained_of_fileset_edge hedge hF
        rw [hF, hkind] at htemplate
        obtain rfl := Option.some.inj htemplate
        exact .images hi hF hk ((hcollects hk).mpr htouches) hgives
    · obtain ⟨template, htemplate, rfl⟩ := Schema.query?_eq_some_iff.mp hquery
      obtain ⟨rfl, hi, k, hk, htouches⟩ := h.holdersAsked_iff.mp hasked
      rw [hi] at htemplate
      rw [name_of_filesets htemplate]
      exact .filesets hi hk ((hcollects hk).mpr htouches)

end Drawn

/-! ## What the answers list -/

/-- From each kind leads one edge at most. -/
theorem eq_of_container_eq : ∀ edge ∈ hierarchy, ∀ edge' ∈ hierarchy,
    edge.container = edge'.container → edge = edge' := by
  decide

/-- The template of a query down the hierarchy. -/
def Query.down? (query : Query) : Option Template :=
  Template.standard.find? fun template =>
    template.name = query.template ∧ template.direction = .contained

theorem Query.down?_of_contained (hmem : template ∈ Template.standard)
    (hdown : template.direction = .contained) (id : Int) :
    (Query.mk template.name id).down? = some template := by
  unfold down?
  cases hfound : Template.standard.find? _ with
  | none => simpa [hdown] using List.find?_eq_none.mp hfound template hmem
  | some template' =>
    obtain ⟨hname, -⟩ : template'.name = template.name ∧ _ := by simpa using List.find?_some hfound
    rw [Template.eq_of_name_eq _ (List.mem_of_find?_eq_some hfound) _ hmem hname]

theorem Query.down?_of_container (hmem : template ∈ Template.standard)
    (hup : template.direction = .container) (id : Int) :
    (Query.mk template.name id).down? = none := by
  refine List.find?_eq_none.mpr fun template' hmem' hdown => ?_
  obtain ⟨hname, hdown⟩ : template'.name = template.name ∧ _ := by simpa using hdown
  rw [Template.eq_of_name_eq _ hmem' _ hmem hname, hup] at hdown
  cases hdown

/-- The entities in the answer to a query down the hierarchy. -/
def Answers.found (answers : Answers) (query : Query) : List Target :=
  match query.down? with
  | some template => (answers template query.id).ids.map fun id => ⟨template.found, id⟩
  | none => []

/-- The query of the look-up is answered with some entity of its kind. -/
def Answers.fills (answers : Answers) (asked : Kind × Target) : Bool :=
  ((Schema.standard.query? asked).map fun query => decide (answers.found query ≠ [])).getD false

/-! ## The counts -/

theorem Lookups.Orderly.found_of_holders (h : l.Orderly service start)
    (hx : (kind, x) ∈ l.cache.holdersAsked)
    (hquery : Schema.standard.query? (kind, x) = some query) : answers.found query = [] := by
  obtain ⟨template, hmem, hup, -, hown⟩ := h.query?_of_holders hx
  obtain rfl := Option.some.inj (hown.symm.trans hquery)
  simp [Answers.found, Query.down?_of_container hmem hup]

section

variable (h : l.Orderly (.ofAnswers answers) start) (hsound : l.Sound (.ofAnswers answers) start)

include h hsound

/-- The answer to the query for the contents of a container is what is cached of them. -/
theorem mem_found_iff (hc : (kind, c) ∈ l.cache.contentsAsked)
    (hquery : Schema.standard.query? (kind, c) = some query) :
    x ∈ answers.found query ↔ x.kind = kind ∧ l.cache.Holds c x := by
  obtain ⟨template, htemplate, hmem, hdown, hown⟩ := h.query?_of_contents hc
  obtain rfl := Option.some.inj (hown.symm.trans hquery)
  obtain ⟨template', ids, htemplate', ⟨before, after, -, hanswer⟩, hids⟩ := hsound.contents hc
  obtain rfl := Option.some.inj (htemplate.symm.trans htemplate')
  have hanswer : answers template c.id = .ok ids := hanswer
  simp only [Answers.found, Query.down?_of_contained hmem hdown, hanswer,
    Schema.found_of_template? htemplate, Answer.ids, List.mem_map]
  constructor
  · rintro ⟨id, hid, rfl⟩
    exact ⟨rfl, (hids _ rfl).mpr hid⟩
  · rintro ⟨hkind, hx⟩
    exact ⟨x.id, (hids x hkind).mp hx, (Target.eq_mk_iff.mpr ⟨hkind, rfl⟩).symm⟩

/-- The look-ups of contents that were answered with something are those of the containers
that hold something, each of which has contents of one kind only. -/
theorem containerCount_eq_countP_contentsAsked :
    l.cache.containerCount = l.cache.contentsAsked.toList.countP answers.fills := by
  have hfills : ∀ {kind c}, (kind, c) ∈ l.cache.contentsAsked →
      (answers.fills (kind, c) = true ↔ ∃ x : Target, x.kind = kind ∧ l.cache.Holds c x) := by
    intro kind c hasked
    obtain ⟨template, -, -, -, hquery⟩ := h.query?_of_contents hasked
    simp [← mem_found_iff h hsound hasked hquery, Answers.fills, hquery,
      List.eq_nil_iff_forall_not_mem]
  have hkinds : ∀ asked ∈ l.cache.contentsAsked, ∀ asked' ∈ l.cache.contentsAsked,
      asked.2 = asked'.2 → asked = asked' := by
    rintro ⟨kind, c⟩ hc ⟨kind', c'⟩ hc' rfl
    have hedge := eq_of_container_eq _ (h.founded.contents hc).1 _ (h.founded.contents hc').1 rfl
    rw [(Edge.mk.inj hedge).2]
  have hkeys : l.cache.contents.keys.Perm
      ((l.cache.contentsAsked.toList.filter answers.fills).map Prod.snd) := by
    refine (List.perm_ext_iff_of_nodup l.cache.contents.nodup_keys ?_).mpr fun c => ?_
    · exact (l.cache.contentsAsked.nodup.filter _).map_on fun asked hasked asked' hasked' =>
        hkinds asked (List.mem_of_mem_filter hasked) asked' (List.mem_of_mem_filter hasked')
    · refine TargetIndex.mem_keys_iff.trans (Iff.trans ?_ List.mem_map.symm)
      constructor
      · rintro ⟨x, hx⟩
        have hasked := h.founded.asked hx
        exact ⟨(x.kind, c), List.mem_filter.mpr ⟨hasked, (hfills hasked).mpr ⟨x, rfl, hx⟩⟩, rfl⟩
      · rintro ⟨⟨kind, c⟩, hmem, rfl⟩
        obtain ⟨hasked, hfilled⟩ := List.mem_filter.mp hmem
        obtain ⟨x, -, hx⟩ := (hfills hasked).mp hfilled
        exact ⟨x, hx⟩
  rw [List.countP_eq_length_filter]
  simpa [Cache.containerCount, TargetIndex.keys, TargetIndex.size] using hkeys.length_eq

variable (hlog : l.log = start ++ queries)

include hlog

/-- What the answers list is what is cached as contained. -/
theorem mem_flatMap_found_iff :
    x ∈ queries.flatMap answers.found ↔ ∃ c, l.cache.Holds c x := by
  rw [List.mem_flatMap]
  constructor
  · rintro ⟨query, hquery, hx⟩
    obtain ⟨kind, c, hasked | hasked, hquery⟩ := (h.mem_queries_iff hlog).mp hquery
    · exact ⟨c, ((mem_found_iff h hsound hasked hquery).mp hx).2⟩
    · simp [h.found_of_holders hasked hquery] at hx
  · rintro ⟨c, hx⟩
    have hasked := h.founded.asked hx
    obtain ⟨template, -, -, -, hquery⟩ := h.query?_of_contents hasked
    exact ⟨_, (h.mem_queries_iff hlog).mpr ⟨_, c, .inl hasked, hquery⟩,
      (mem_found_iff h hsound hasked hquery).mpr ⟨rfl, hx⟩⟩

theorem containedCount_eq_size :
    l.cache.containedCount = (TargetSet.ofList (queries.flatMap answers.found)).size := by
  refine TargetIndex.size_eq_size fun x => ?_
  rw [TargetSet.mem_ofList, mem_flatMap_found_iff h hsound hlog]
  exact exists_congr fun c => (h.founded.aligned c x).symm

theorem containerCount_eq_countP :
    l.cache.containerCount = queries.countP fun query => answers.found query ≠ [] := by
  have hup : l.cache.holdersAsked.toList.countP answers.fills = 0 := by
    refine List.countP_eq_zero.mpr ?_
    rintro ⟨kind, x⟩ hx
    obtain ⟨template, -, -, -, hquery⟩ := h.query?_of_holders hx
    simp [Answers.fills, hquery, h.found_of_holders hx hquery]
  rw [(h.perm hlog).countP_eq, List.countP_filterMap, Cache.asked, List.countP_append]
  change _ = l.cache.contentsAsked.toList.countP answers.fills +
    l.cache.holdersAsked.toList.countP answers.fills
  rw [hup, Nat.add_zero, containerCount_eq_countP_contentsAsked h hsound]

end

/-! ## The queries of a run -/

theorem drawn_of_prepare
    (heq : prepare (.ofAnswers answers) operations requests ⟨.fresh, log⟩ = .ok batch l) :
    Drawn answers requests operations batch l :=
  invariant_of_prepare Lookups.Sound.fresh Drawn.fresh Drawn.passed heq

/-- No query is put twice, and up the hierarchy only filesets of images are asked for. If the
run succeeds, its queries are those that its first batch calls for, and its counts are those
of the answers. -/
theorem run_queries (answers : Answers) (operations : List Operation) (requests : List Request)
    (log : QueryLog) :
    ∃ queries,
      (run (.ofAnswers answers) operations requests log).log = log ++ queries ∧
      queries.Nodup ∧
      (∀ query ∈ queries, ∃ template ∈ Template.standard, template.name = query.template ∧
        (template.direction = .contained ∨ template.name = "image_fileset")) ∧
      ∀ prepared, (run (.ofAnswers answers) operations requests log).result = .ok prepared →
        (∀ k ∈ operations, ∃ reached l,
          collect (.ofAnswers answers) requests k ⟨.fresh, []⟩ = .ok reached l) ∧
        (∀ query, query ∈ queries ↔ Needs answers operations requests query) ∧
        prepared.containerCount = (queries.countP fun query => answers.found query ≠ []) ∧
        prepared.imageCount = (TargetSet.ofList (queries.flatMap answers.found)).size := by
  have horderly : ((prepare (.ofAnswers answers) operations requests).after
      ⟨.fresh, log⟩).Orderly (.ofAnswers answers) log := Lookups.Orderly.prepare .fresh
  obtain ⟨queries, hlog⟩ := horderly.founded.log
  refine ⟨queries, run_log.trans hlog.symm, horderly.nodup hlog.symm,
    fun query => horderly.down_or_filesets hlog.symm, fun prepared hrun => ?_⟩
  obtain ⟨l, hprepare⟩ := prepare_of_run_eq_ok hrun
  rw [LookupM.after_of_ok hprepare] at horderly hlog
  have hsound : l.Sound (.ofAnswers answers) log := prepare_sound hprepare .fresh
  have hdrawn := drawn_of_prepare hprepare
  rw [run_of_prepare_eq_ok hprepare] at hrun
  rw [← Except.ok.inj hrun]
  refine ⟨fun k hk => exists_collect .fresh (hdrawn.replies k hk), fun query => ?_,
    containerCount_eq_countP horderly hsound hlog.symm,
    containedCount_eq_size horderly hsound hlog.symm⟩
  rw [horderly.mem_queries_iff hlog.symm, hdrawn.needs_iff]

/-- To delete dataset 11 and image 103 of the demonstration takes five queries, of which those
for the contents of the dataset and of the fileset find three images. -/
theorem run_queries_demonstration :
    let answers : Answers := LinkStore.empty.loadDemonstration.answer
    let requests := [.deleteTarget ⟨.dataset, 11⟩, .deleteTarget (.image 103)]
    let queries : List Query := [⟨"dataset_images", 11⟩, ⟨"image_fileset", 101⟩,
      ⟨"fileset_images", 1001⟩, ⟨"image_fileset", 102⟩, ⟨"image_fileset", 103⟩]
    let prepared : Prepared := ⟨[.deleteTarget (.fileset 1001), .deleteTarget ⟨.dataset, 11⟩], 3, 2⟩
    run (.ofAnswers answers) [.delete] requests [] = ⟨.ok prepared, queries⟩ ∧ queries.Nodup ∧
      (∀ query, query ∈ queries ↔ Needs answers [.delete] requests query) ∧
      (queries.countP fun query => answers.found query ≠ []) = 2 ∧
      (TargetSet.ofList (queries.flatMap answers.found)).size = 3 := by
  intro answers requests queries prepared
  have hresult : (run (.ofAnswers answers) [.delete] requests []).result = .ok prepared := by
    decide +kernel
  have hlog : (run (.ofAnswers answers) [.delete] requests []).log = queries := by
    decide +kernel
  obtain ⟨issued, hissued, hnodup, -, hrest⟩ := run_queries answers [.delete] requests []
  obtain rfl : queries = issued := hlog.symm.trans hissued
  obtain ⟨-, hneeds, hcontainers, himages⟩ := hrest prepared hresult
  exact ⟨by rw [← hresult, ← hlog], hnodup, hneeds, hcontainers.symm, himages.symm⟩

end FilesetBatch
