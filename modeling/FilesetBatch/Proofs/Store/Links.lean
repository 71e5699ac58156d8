import FilesetBatch.Containment.LinkStore
import FilesetBatch.Proofs.Batch.Touched

/-!
# Runs on a store of links

A store answers from its links, so what a sound state has cached are links along the
hierarchy, all of them for the contents that were looked up (`Lookups.Sound.shows`), and a
pass can be told by links. It reaches what its requests touch along them, it looks up every
fileset that is linked to a reached image (`Collected.asked_of_contains`), and it makes a
plan for exactly those filesets of which the requests touch all images, two at least
(`complete_of_mem_plans`, `exists_plan_of_complete`).
-/

namespace FilesetBatch

variable {store : LinkStore} {start log : QueryLog} {template : Template} {ids : List Int}
  {l l' : Lookups} {c d x i F : Target}
  {requests requests' : List Request} {operation operation' : Operation}
  {operations : List Operation} {reached : TargetSet} {ps : List Plan}

/-! ## Links along the hierarchy -/

/-- The store links the first entity to the second one, along an edge of the hierarchy. -/
def LinkStore.Contains (store : LinkStore) (c x : Target) : Prop :=
  ⟨c, x⟩ ∈ store.links ∧ ⟨c.kind, x.kind⟩ ∈ hierarchy

instance : Decidable (store.Contains c x) :=
  inferInstanceAs (Decidable (_ ∧ _))

theorem LinkStore.Contains.edge (h : store.Contains c x) : ⟨c.kind, x.kind⟩ ∈ hierarchy :=
  h.2

/-! ## Answers from links -/

theorem LinkStore.eq_of_answer_eq_ok {id : Int} (h : store.answer template id = .ok ids) :
    ids = (store.related template id).toList.map (·.id) := by
  unfold answer at h
  split at h
  · cases h
  · exact (Except.ok.inj h).symm

theorem mem_map_id_iff {s : TargetSet} (hs : ∀ y ∈ s, y.kind = x.kind) :
    x.id ∈ s.toList.map (·.id) ↔ x ∈ s := by
  rw [List.mem_map]
  constructor
  · rintro ⟨y, hy, hid⟩
    rwa [Target.eq_mk_iff.mpr ⟨(hs y hy).symm, hid.symm⟩]
  · exact fun hx => ⟨x, hx, rfl⟩

/-- A template down an edge is answered with what the store contains along it. -/
theorem mem_ids_iff_of_down (htemplate : Schema.standard.template? c.kind x.kind = some template)
    (hedge : ⟨c.kind, x.kind⟩ ∈ hierarchy) (hanswer : store.answer template c.id = .ok ids) :
    x.id ∈ ids ↔ store.Contains c x := by
  obtain ⟨⟨template', htemplate', hdown⟩, -⟩ := Schema.exists_standard_template _ hedge
  obtain rfl := Option.some.inj (htemplate.symm.trans htemplate')
  rw [LinkStore.eq_of_answer_eq_ok hanswer, LinkStore.related, hdown,
    Schema.given_of_template? htemplate, Schema.found_of_template? htemplate]
  rw [mem_map_id_iff fun y hy => (TargetSet.mem_ofKind.mp hy).2, TargetSet.mem_ofKind,
    LinkStore.mem_contents]
  exact ⟨fun h => ⟨h.1, hedge⟩, fun h => ⟨h.1, rfl⟩⟩

/-- A template up an edge is answered with what contains the entity along it. -/
theorem mem_ids_iff_of_up (htemplate : Schema.standard.template? x.kind c.kind = some template)
    (hedge : ⟨c.kind, x.kind⟩ ∈ hierarchy) (hanswer : store.answer template x.id = .ok ids) :
    c.id ∈ ids ↔ store.Contains c x := by
  obtain ⟨-, template', htemplate', hup⟩ := Schema.exists_standard_template _ hedge
  obtain rfl := Option.some.inj (htemplate.symm.trans htemplate')
  rw [LinkStore.eq_of_answer_eq_ok hanswer, LinkStore.related, hup,
    Schema.given_of_template? htemplate, Schema.found_of_template? htemplate]
  rw [mem_map_id_iff fun y hy => (TargetSet.mem_ofKind.mp hy).2, TargetSet.mem_ofKind,
    LinkStore.mem_holders]
  exact ⟨fun h => ⟨h.1, hedge⟩, fun h => ⟨h.1, rfl⟩⟩

/-! ## The cache of a sound state -/

namespace Lookups.Sound

/-- What was looked up is what the store contains. -/
theorem holds_iff (h : l.Sound store.service start)
    (hasked : (x.kind, c) ∈ l.cache.contentsAsked) :
    l.cache.Holds c x ↔ store.Contains c x := by
  have hedge := (h.founded.contents hasked).1
  obtain ⟨template, ids, htemplate, ⟨before, after, -, hanswer⟩, hids⟩ := h.contents hasked
  rw [hids x rfl]
  exact mem_ids_iff_of_down htemplate hedge hanswer

theorem contains_of_holds (h : l.Sound store.service start) (hx : l.cache.Holds c x) :
    store.Contains c x :=
  (h.holds_iff (h.founded.asked hx)).mp hx

theorem shows (h : l.Sound store.service start) : l.Shows store.Contains :=
  ⟨fun h => h.edge, h.holds_iff⟩

/-- Once the containers of an entity were looked up, so were the contents of all of them. -/
theorem asked_of_contains (h : l.Sound store.service start)
    (hasked : (c.kind, x) ∈ l.cache.holdersAsked) (hc : store.Contains c x) :
    (x.kind, c) ∈ l.cache.contentsAsked := by
  obtain ⟨template, ids, htemplate, ⟨before, after, -, hanswer⟩, hids⟩ := h.settled hasked
  exact hids c.id ((mem_ids_iff_of_up htemplate hc.edge hanswer).mpr hc)

end Lookups.Sound

theorem QueryService.GaveContainer.contains (h : store.service.GaveContainer start log x c)
    (hedge : ⟨c.kind, x.kind⟩ ∈ hierarchy) : store.Contains c x := by
  obtain ⟨template, ids, htemplate, ⟨before, after, -, hanswer⟩, hid⟩ := h
  exact (mem_ids_iff_of_up htemplate hedge hanswer).mp hid

/-! ## What a pass reaches -/

namespace Collected

/-- Every fileset of a reached image is looked up. -/
theorem asked_of_contains
    (h : Collected store.service start (directTargets requests operation) l reached l')
    (hi : i ∈ reached) (hF : F.kind = .fileset) (hFi : store.Contains F i) :
    (.image, F) ∈ l'.cache.contentsAsked := by
  have hik : i.kind = .image := contained_of_fileset_edge hFi.edge hF
  have hasked := h.filesets hi hik
  rw [← hF] at hasked
  rw [← hik]
  exact h.sound.asked_of_contains hasked hFi

/-- So the cache holds of it what the store contains. -/
theorem holds_iff_of_fileset
    (h : Collected store.service start (directTargets requests operation) l reached l')
    (hi : i ∈ reached) (hF : F.kind = .fileset) (hFi : store.Contains F i) :
    l'.cache.Holds F x ↔ store.Contains F x :=
  h.sound.shows.holds_iff_of_fileset h.sound.founded hF (h.asked_of_contains hi hF hFi)

end Collected

/-! ## Filesets that are reached as a whole -/

/-- A fileset with several linked images, all of which the requests touch. -/
def LinkStore.Complete (store : LinkStore) (requests : List Request) (operation : Operation)
    (F : Target) : Prop :=
  FilesetBatch.Complete store.Contains requests operation F

section

variable
  (hcollected : Collected store.service start (directTargets requests operation) l reached l')
  (hplanned : Planned l'.cache reached (fun i => i ∈ reached ∧ i.kind = .image) ps)

include hcollected hplanned

theorem complete_of_mem_plans {p : Plan} (hp : p ∈ ps) :
    store.Complete requests operation p.fileset ∧
      ∀ d, d ∈ p.suffixes ↔ d = p.fileset ∨ store.Contains p.fileset d :=
  ⟨complete_of_mem hcollected hplanned hcollected.sound.shows hp,
    fun _ => mem_suffixes_iff hcollected hplanned hcollected.sound.shows hp⟩

theorem exists_plan_of_complete (h : store.Complete requests operation F) :
    ∃ p ∈ ps, p.fileset = F := by
  obtain ⟨i, -, -, hi, -⟩ := h.several
  have hreached := (hcollected.mem_reached_iff_touches hcollected.sound.shows).mpr (h.touched i hi)
  exact ⟨_, (mem_plans_iff hcollected hplanned hcollected.sound.shows).mpr
    ⟨F, h, hcollected.asked_of_contains hreached h.kind hi, rfl⟩, rfl⟩

end

/-! ## Behind some passes -/

theorem prepareFor_touches_iff (h : l.Sound store.service start)
    (heq : prepareFor store.service requests operation l = .ok requests' l')
    (hx : x.kind ≠ .fileset) :
    Touches store.Contains requests' operation' x ↔
      Touches store.Contains requests operation' x := by
  obtain ⟨reached, ps, hcollected, hplanned, rfl⟩ := prepareFor_eq_ok h heq
  have hshows := hcollected.sound.shows
  rw [touches_onePass_iff hcollected hplanned hshows, or_iff_left]
  rintro ⟨-, p, hp, rfl⟩
  exact hx (complete_of_mem hcollected hplanned hshows hp).kind

theorem prepare_touches_iff (h : l.Sound store.service start)
    (heq : prepare store.service operations requests l = .ok requests' l')
    (hx : x.kind ≠ .fileset) :
    Touches store.Contains requests' operation' x ↔
      Touches store.Contains requests operation' x :=
  prepare_related (R := fun before behind => Touches store.Contains behind operation' x ↔
      Touches store.Contains before operation' x)
    (fun _ => Iff.rfl) (fun h h' => h'.trans h)
    (fun _ _ {_ _ _ _} hsound hpass => prepareFor_touches_iff hsound hpass hx) h heq

end FilesetBatch
