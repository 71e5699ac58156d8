import FilesetBatch.Proofs.Batch.Touched

/-!
# Services with fixed answers

A service whose answers are fixed (`Answers`) says once and for all what contains what :
`Answers.Tells` is what its answers down the hierarchy say. Its answers up the hierarchy may
say something else; a pass uses them only to find filesets to look up. What a sound state
holds of looked up contents is what the answers tell (`Lookups.Sound.shows_tells`).

Which look-ups a pass over a batch makes can be said by the answers alone. It looks up the
contents of the targets that the requests touch, the containers of the touched images, and
the contents of the filesets that are given for those (`Answers.Seeks`) :
`Collected.contentsAsked_iff` and `holdersAsked_iff_of_collect`. All that is reached is
collected if each of these queries is answered, and only then (`exists_collect_iff`).
-/

namespace FilesetBatch

/-- What a service with fixed answers says to a template and a number. -/
abbrev Answers := Template → Int → Answer

namespace Answers

/-- The query that leads from an entity to those of one kind is answered. -/
def Responds (answers : Answers) (given : Target) (found : Kind) : Prop :=
  ∃ template ids, Schema.standard.template? given.kind found = some template ∧
    answers template given.id = .ok ids

/-- The answer to the query from the first entity has the second one in it. -/
def Gives (answers : Answers) (given found : Target) : Prop :=
  ∃ template ids, Schema.standard.template? given.kind found.kind = some template ∧
    answers template given.id = .ok ids ∧ found.id ∈ ids

/-- The answers down the hierarchy say that the first entity contains the second. -/
def Tells (answers : Answers) (c x : Target) : Prop :=
  ⟨c.kind, x.kind⟩ ∈ hierarchy ∧ answers.Gives c x

/-- A pass over these requests looks up what this entity contains, unless it is an image. -/
def Seeks (answers : Answers) (requests : List Request) (operation : Operation)
    (c : Target) : Prop :=
  Touches answers.Tells requests operation c ∨
    c.kind = .fileset ∧ ∃ i, i.kind = .image ∧ Touches answers.Tells requests operation i ∧
      answers.Gives i c

/-- Each query that a pass over these requests needs is answered. -/
structure Replies (answers : Answers) (requests : List Request) (operation : Operation) :
    Prop where
  contents : ∀ {kind c}, ⟨c.kind, kind⟩ ∈ hierarchy → answers.Seeks requests operation c →
    answers.Responds c kind
  filesets : ∀ {i}, i.kind = .image → Touches answers.Tells requests operation i →
    answers.Responds i .fileset

end Answers

variable {answers : Answers} {start log : QueryLog} {requests : List Request}
  {operation : Operation} {reached : TargetSet} {l l' : Lookups} {kind : Kind}
  {c d i t x : Target}

theorem Answers.Gives.responds (h : answers.Gives c x) : answers.Responds c x.kind := by
  obtain ⟨template, ids, htemplate, hanswer, -⟩ := h
  exact ⟨template, ids, htemplate, hanswer⟩

theorem Touches.tail {Above : Target → Target → Prop} (h : Touches Above requests operation c)
    (hx : Above c x) : Touches Above requests operation x := by
  obtain ⟨d, hd, hpath⟩ := h
  exact ⟨d, hd, hpath.tail hx⟩

/-! ## What a sound state has been told -/

namespace Lookups.Sound

theorem shows_tells (h : l.Sound (.ofAnswers answers) start) : l.Shows answers.Tells where
  edge h := h.1
  holds_iff {c x} hasked := by
    obtain ⟨template, ids, htemplate, ⟨before, after, -, hanswer⟩, hids⟩ := h.contents hasked
    rw [hids x rfl]
    constructor
    · exact fun hid => ⟨(h.founded.contents hasked).1, template, ids, htemplate, hanswer, hid⟩
    · rintro ⟨-, template', ids', htemplate', hanswer', hid⟩
      obtain rfl := Option.some.inj (htemplate'.symm.trans htemplate)
      obtain rfl := Except.ok.inj (hanswer'.symm.trans hanswer)
      exact hid

theorem responds_of_contentsAsked (h : l.Sound (.ofAnswers answers) start)
    (hasked : (kind, c) ∈ l.cache.contentsAsked) : answers.Responds c kind := by
  obtain ⟨template, ids, htemplate, ⟨before, after, -, hanswer⟩, -⟩ := h.contents hasked
  exact ⟨template, ids, htemplate, hanswer⟩

theorem responds_of_holdersAsked (h : l.Sound (.ofAnswers answers) start)
    (hasked : (kind, x) ∈ l.cache.holdersAsked) : answers.Responds x kind := by
  obtain ⟨template, ids, htemplate, ⟨before, after, -, hanswer⟩, -⟩ := h.settled hasked
  exact ⟨template, ids, htemplate, hanswer⟩

/-- Once the containers of an entity were looked up, so were the contents of those given. -/
theorem contentsAsked_of_gives (h : l.Sound (.ofAnswers answers) start)
    (hasked : (c.kind, x) ∈ l.cache.holdersAsked) (hc : answers.Gives x c) :
    (x.kind, c) ∈ l.cache.contentsAsked := by
  obtain ⟨template, ids, htemplate, ⟨before, after, -, hanswer⟩, hids⟩ := h.settled hasked
  obtain ⟨template', ids', htemplate', hanswer', hid⟩ := hc
  obtain rfl := Option.some.inj (htemplate'.symm.trans htemplate)
  obtain rfl := Except.ok.inj (hanswer'.symm.trans hanswer)
  exact hids c.id hid

end Lookups.Sound

theorem QueryService.GaveContainer.gives
    (h : (QueryService.ofAnswers answers).GaveContainer start log x c) : answers.Gives x c := by
  obtain ⟨template, ids, htemplate, ⟨before, after, -, hanswer⟩, hid⟩ := h
  exact ⟨template, ids, htemplate, hanswer, hid⟩

/-! ## The look-ups of a pass -/

section

variable
  (h : Collected (.ofAnswers answers) start (directTargets requests operation) l reached l')

include h

theorem Collected.mem_reached_iff_told :
    x ∈ reached ↔ Touches answers.Tells requests operation x :=
  h.mem_reached_iff_touches h.sound.shows_tells

/-- The contents that are looked up besides are those that the pass seeks. -/
theorem Collected.contentsAsked_iff : (kind, c) ∈ l'.cache.contentsAsked ↔
    (kind, c) ∈ l.cache.contentsAsked ∨
      ⟨c.kind, kind⟩ ∈ hierarchy ∧ answers.Seeks requests operation c := by
  constructor
  · intro hasked
    have hedge := (h.sound.founded.contents hasked).1
    rcases h.asked hasked with hasked | hc | ⟨i, hi, hik, hc, hgave⟩
    · exact .inl hasked
    · exact .inr ⟨hedge, .inl (h.mem_reached_iff_told.mp hc)⟩
    · exact .inr ⟨hedge, .inr ⟨hc, i, hik, h.mem_reached_iff_told.mp hi, hgave.gives⟩⟩
  · rintro (hasked | ⟨hedge, htouches | ⟨hc, i, hik, htouches, hgives⟩⟩)
    · exact h.grows.contentsAsked hasked
    · exact h.contents (h.mem_reached_iff_told.mpr htouches) hedge
    · have hkind : kind = .image := contained_of_fileset_edge hedge hc
      have hasked := h.filesets (h.mem_reached_iff_told.mpr htouches) hik
      rw [← hc] at hasked
      rw [hkind, ← hik]
      exact h.sound.contentsAsked_of_gives hasked hgives

theorem Collected.replies : answers.Replies requests operation where
  contents hedge hc :=
    h.sound.responds_of_contentsAsked (h.contentsAsked_iff.mpr (.inr ⟨hedge, hc⟩))
  filesets hik htouches :=
    h.sound.responds_of_holdersAsked (h.filesets (h.mem_reached_iff_told.mpr htouches) hik)

end

/-- The containers that are looked up besides are the filesets of the touched images. -/
theorem holdersAsked_iff_of_collect (h : l.Sound (.ofAnswers answers) start)
    (heq : collect (.ofAnswers answers) requests operation l = .ok reached l') :
    (kind, x) ∈ l'.cache.holdersAsked ↔ (kind, x) ∈ l.cache.holdersAsked ∨
      kind = .fileset ∧ x.kind = .image ∧ Touches answers.Tells requests operation x := by
  have hcollected := collect_spec h heq
  constructor
  · intro hasked
    rcases holdersAsked_of_collect heq hasked with hasked | ⟨rfl, hx, hxk⟩
    · exact .inl hasked
    · exact .inr ⟨rfl, hxk, hcollected.mem_reached_iff_told.mp hx⟩
  · rintro (hasked | ⟨rfl, hxk, htouches⟩)
    · exact hcollected.grows.holdersAsked hasked
    · exact hcollected.filesets (hcollected.mem_reached_iff_told.mpr htouches) hxk

/-! ## When collecting succeeds -/

namespace LookupM

variable {α β : Type} {P : β → Lookups → Prop} {Q : Lookups → Prop}

/-- A loop succeeds if each of its turns does and keeps what the turns need. -/
theorem exists_ok_of_foldlM {f : β → α → LookupM β} {xs : List α} {b : β} (hb : P b l)
    (h : ∀ b l, P b l → ∀ x ∈ xs, ∃ b' l', f b x l = .ok b' l' ∧ P b' l') :
    ∃ b' l', xs.foldlM f b l = .ok b' l' ∧ P b' l' := by
  induction xs generalizing b l with
  | nil => exact ⟨b, l, rfl, hb⟩
  | cons x xs ih =>
    obtain ⟨between, m, hturn, hbetween⟩ := h b l hb x List.mem_cons_self
    obtain ⟨b', l', hrest, hend⟩ := ih hbetween fun b l hb y hy =>
      h b l hb y (List.mem_cons_of_mem x hy)
    refine ⟨b', l', ?_, hend⟩
    rw [List.foldlM_cons]
    exact bind_eq_ok_iff.mpr ⟨between, m, hturn, hrest⟩

theorem exists_ok_of_forM {f : α → LookupM PUnit} {xs : List α} (hl : Q l)
    (h : ∀ l, Q l → ∀ x ∈ xs, ∃ l', f x l = .ok ⟨⟩ l' ∧ Q l') :
    ∃ l', xs.forM f l = .ok ⟨⟩ l' ∧ Q l' := by
  induction xs generalizing l with
  | nil => exact ⟨l, rfl, hl⟩
  | cons x xs ih =>
    obtain ⟨m, hturn, hm⟩ := h l hl x List.mem_cons_self
    obtain ⟨l', hrest, hend⟩ := ih hm fun l hl y hy => h l hl y (List.mem_cons_of_mem x hy)
    exact ⟨l', bind_eq_ok_iff.mpr ⟨⟨⟩, m, hturn, hrest⟩, hend⟩

end LookupM

theorem exists_lookupContents (hschema : l.cache.schema = .standard)
    (hresponds : answers.Responds c kind) :
    ∃ l', lookupContents (.ofAnswers answers) kind c l = .ok () l' ∧
      l'.cache.schema = .standard := by
  have hok : ∃ l', lookupContents (.ofAnswers answers) kind c l = .ok () l' := by
    by_cases new : (kind, c) ∈ l.cache.contentsAsked
    · exact ⟨l, lookupContents_of_mem new⟩
    · obtain ⟨template, ids, htemplate, hanswer⟩ := hresponds
      rw [← hschema] at htemplate
      exact ⟨_, lookupContents_of_answered new (Schema.template_eq_ok_iff.mpr htemplate) hanswer⟩
  obtain ⟨l', heq⟩ := hok
  exact ⟨l', heq, (grows_of_lookupContents heq).schema.trans hschema⟩

theorem exists_lookupContainers (hschema : l.cache.schema = .standard)
    (hresponds : answers.Responds x kind)
    (hgiven : ∀ c, c.kind = kind → answers.Gives x c → answers.Responds c x.kind) :
    ∃ l', lookupContainers (.ofAnswers answers) kind x l = .ok () l' ∧
      l'.cache.schema = .standard := by
  by_cases new : (kind, x) ∈ l.cache.holdersAsked
  · exact ⟨l, lookupContainers_of_mem new, hschema⟩
  obtain ⟨template, ids, htemplate, hanswer⟩ := hresponds
  have hdeclared := htemplate
  rw [← hschema] at hdeclared
  rw [lookupContainers_of_answered new (Schema.template_eq_ok_iff.mpr hdeclared) hanswer]
  refine LookupM.exists_ok_of_forM (Q := fun m => m.cache.schema = .standard) hschema
    fun m hm id hid => exists_lookupContents hm ?_
  exact hgiven ⟨kind, id⟩ rfl ⟨template, ids, htemplate, hanswer, hid⟩

/-- As long as only touched targets are reached, each look-up of contents is answered. -/
theorem exists_followAll (h : l.Sound (.ofAnswers answers) start)
    (hreplies : answers.Replies requests operation) :
    ∃ reached l', hierarchy.foldlM (follow (.ofAnswers answers))
      (directTargets requests operation) l = .ok reached l' ∧
        l'.Sound (.ofAnswers answers) start ∧
        ∀ t ∈ reached, Touches answers.Tells requests operation t := by
  refine LookupM.exists_ok_of_foldlM (P := fun reached m => m.Sound (.ofAnswers answers) start ∧
    ∀ t ∈ reached, Touches answers.Tells requests operation t) ⟨h, fun t ht => ⟨t, ht, .refl⟩⟩
    fun reached m hm edge hedge => ?_
  rw [follow_eq]
  refine LookupM.exists_ok_of_foldlM hm fun between n hn c hc => ?_
  have hedge := mem_hierarchy_of_mem_ofKind hedge hc
  have htouches := hm.2 c (TargetSet.mem_ofKind.mp hc).1
  obtain ⟨n', heq, -⟩ :=
    exists_lookupContents hn.1.schema (hreplies.contents hedge (.inl htouches))
  have hn' := lookupContents_sound hedge heq hn.1
  refine ⟨_, n', expand_eq_ok_iff.mpr ⟨heq, rfl⟩, hn', fun t ht => ?_⟩
  rcases TargetSet.mem_union.mp ht with ht | ht
  · exact hn.2 t ht
  · exact htouches.tail (hn'.founded.above hn'.shows_tells (TargetSet.mem_ofKind.mp ht).1)

theorem exists_collect (h : l.Sound (.ofAnswers answers) start)
    (hreplies : answers.Replies requests operation) :
    ∃ reached l', collect (.ofAnswers answers) requests operation l = .ok reached l' := by
  obtain ⟨reached, m, hfollow, hm, htouched⟩ := exists_followAll h hreplies
  have hloop : ∃ l', ((reached.ofKind .image).toList.forM fun image =>
      lookupContainers (.ofAnswers answers) .fileset image) m = .ok () l' ∧
        l'.cache.schema = .standard := by
    refine LookupM.exists_ok_of_forM (Q := fun n => n.cache.schema = .standard) hm.schema
      fun n hn i hi => ?_
    obtain ⟨hi, hik⟩ := TargetSet.mem_ofKind.mp hi
    refine exists_lookupContainers hn (hreplies.filesets hik (htouched i hi)) fun c hc hgives => ?_
    exact hreplies.contents (edge_of_fileset hc hik)
      (.inr ⟨hc, i, hik, htouched i hi, hgives⟩)
  obtain ⟨l', hloop, -⟩ := hloop
  exact ⟨reached, l', collect_eq_ok_iff.mpr ⟨m, hfollow, hloop⟩⟩

/-- All that is reached is collected if each query that is needed is answered, and only then. -/
theorem exists_collect_iff (h : l.Sound (.ofAnswers answers) start) :
    (∃ reached l', collect (.ofAnswers answers) requests operation l = .ok reached l') ↔
      answers.Replies requests operation :=
  ⟨fun ⟨_, _, heq⟩ => (collect_spec h heq).replies, exists_collect h⟩

end FilesetBatch
