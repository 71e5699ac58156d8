import FilesetBatch.Containment.LinkStore
import FilesetBatch.Proofs.Containment.History

/-!
# In which direction containment is looked up

A look-up takes its target for one end of an edge from a container kind to a contained kind
(`Lookup.edge`). The standard schema has a template between two kinds if an edge of the
hierarchy leads from one to the other, whichever way (`Schema.exists_template?_standard_iff`),
and a look-up only asks for a template from the kind of its target to the kind it looks for.
So it may go against the direction of the edge (`Lookup.Reversed`) : it puts the query for
the containers of an entity, and what is answered is recorded as the contents of it.

`afterEach_directed` says what that means for the pairs behind any row of look-ups. They lie
along the hierarchy, and then in no circle, exactly as long as no look-up of contents against
the direction was answered with anything. A row without look-ups against the direction makes
none, because the look-ups of contents behind a look-up of containers take the same edge
(`exists_edge_of_mem_history`). With them, an entity may come to lie in what it contains
(`reversed_lookups_close_circle`).
-/

namespace FilesetBatch

/-! ## Kinds that are joined by an edge -/

/-- The same two kinds the other way round. -/
def Edge.reversed (edge : Edge) : Edge :=
  ⟨edge.contained, edge.container⟩

/-- An edge of the hierarchy leads from one of the two kinds to the other. -/
def Edge.Joins (edge : Edge) : Prop :=
  edge ∈ hierarchy ∨ edge.reversed ∈ hierarchy

/-- The edge along which a look-up is made, from the kind that it takes for a container. -/
def Lookup.edge : Lookup → Edge
  | contents kind container => ⟨container.kind, kind⟩
  | holders kind contained => ⟨kind, contained.kind⟩

/-- The look-up goes against the direction of an edge of the hierarchy. -/
def Lookup.Reversed (lookup : Lookup) : Prop :=
  lookup.edge.reversed ∈ hierarchy

instance (lookup : Lookup) : Decidable lookup.Reversed :=
  inferInstanceAs (Decidable (_ ∈ hierarchy))

variable {service : QueryService} {start : QueryLog} {l l' : Lookups} {given found : Kind}
  {lookup : Lookup} {lookups : List Lookup} {sent : Sent} {edge : Edge} {c x t : Target}

theorem not_mem_of_reversed_mem (h : edge.reversed ∈ hierarchy) : edge ∉ hierarchy := by
  have hone : ∀ e ∈ hierarchy, e.reversed ∉ hierarchy := by decide
  exact hone _ h

theorem Template.edge_mem_hierarchy : ∀ template ∈ Template.standard,
    template.edge ∈ hierarchy := by
  decide

/-- Between two kinds there is a standard template if an edge joins them, and only then. -/
theorem Schema.exists_template?_standard_iff :
    (∃ template, Schema.standard.template? given found = some template) ↔
      (Edge.mk given found).Joins := by
  constructor
  · rintro ⟨template, htemplate⟩
    have hedge := Template.edge_mem_hierarchy template (mem_templates_of_template? htemplate)
    rw [Template.edge, given_of_template? htemplate, found_of_template? htemplate] at hedge
    cases hdirection : template.direction with
    | contained => exact .inl (by simpa [hdirection] using hedge)
    | container => exact .inr (by simpa [hdirection, Edge.reversed] using hedge)
  · rintro (hdown | hup)
    · obtain ⟨⟨template, htemplate, -⟩, -⟩ := exists_standard_template _ hdown
      exact ⟨template, htemplate⟩
    · obtain ⟨-, template, htemplate, -⟩ := exists_standard_template _ hup
      exact ⟨template, htemplate⟩

/-- The template that a look-up asks for is one between the ends of its edge. -/
theorem Lookup.exists_template?_iff :
    (∃ template, Schema.standard.template? lookup.target.kind lookup.kind = some template) ↔
      lookup.edge.Joins := by
  cases lookup with
  | contents kind c => exact Schema.exists_template?_standard_iff
  | holders kind x => exact Schema.exists_template?_standard_iff.trans or_comm

/-! ## Single look-ups -/

namespace Lookup

theorem make_follows {along : Edge → Prop} (h : along lookup.edge) :
    (lookup.make service).Follows service along := by
  cases lookup with
  | contents kind c => exact lookupContents_follows h
  | holders kind x => exact lookupContainers_follows h

/-- A look-up for which no template is declared leaves no trace. -/
theorem make_of_undeclared (hnew : ¬ lookup.Marked l.cache)
    (hnone : l.cache.schema.template? lookup.target.kind lookup.kind = none) :
    lookup.make service l =
      .error (.undeclaredEdge lookup.target.kind lookup.kind) l := by
  have hfailure := Schema.template_eq_error_iff.mpr ⟨hnone, rfl⟩
  cases lookup with
  | contents kind c => exact lookupContents_of_undeclared hnew hfailure
  | holders kind x => exact lookupContainers_of_undeclared hnew hfailure

/-- A look-up between kinds that an edge joins never lacks a template, and neither does one
that it leads to. -/
theorem make_ne_undeclaredEdge (hschema : l.cache.schema = .standard)
    (h : lookup.edge.Joins) :
    lookup.make service l ≠ .error (.undeclaredEdge given found) l' := by
  intro hmake
  have hfollows : (lookup.make service).Follows service Edge.Joins := make_follows h
  obtain ⟨m, hm, ⟨query, reason, -, hrefused⟩ | ⟨-, given', found', -, hnone, hjoins⟩⟩ :=
    hfollows.error hmake
  · cases hrefused
  · rw [hm.grows.schema, hschema] at hnone
    have hjoined : (Edge.mk given' found').Joins := hjoins.elim id Or.symm
    obtain ⟨template, htemplate⟩ := Schema.exists_template?_standard_iff.mpr hjoined
    exact absurd (hnone.symm.trans htemplate) (by simp)

end Lookup

/-! ## The look-ups of a history -/

theorem edge_of_own? (h : lookup.own? service l = some sent) :
    sent.lookup.edge = lookup.edge := by
  rw [(Lookup.own?_eq_some_iff.mp h).1]

theorem exists_edge_of_mem_sentUntilFailure (h : sent ∈ sentUntilFailure service lookups l) :
    ∃ lookup ∈ lookups, sent.lookup.edge = lookup.edge := by
  induction lookups generalizing l with
  | nil => cases h
  | cons lookup lookups ih =>
    rw [sentUntilFailure, List.mem_append] at h
    rcases h with h | h
    · exact ⟨lookup, List.mem_cons_self, edge_of_own? (Option.mem_toList.mp h)⟩
    · split at h
      · obtain ⟨later, hlater, hedge⟩ := ih h
        exact ⟨later, List.mem_cons_of_mem lookup hlater, hedge⟩
      · cases h

theorem Sent.edge_of_mem_behind (h : lookup ∈ sent.behind) :
    lookup.edge = sent.lookup.edge := by
  obtain ⟨own, template, answer⟩ := sent
  cases own with
  | contents kind c => cases h
  | holders kind x =>
    obtain ⟨id, -, rfl⟩ := List.mem_map.mp h
    rfl

theorem edge_of_mem_sent (h : sent ∈ lookup.sent service l) :
    sent.lookup.edge = lookup.edge := by
  unfold Lookup.sent at h
  split at h
  · rename_i own hown
    rcases List.mem_cons.mp h with rfl | h
    · exact edge_of_own? hown
    · obtain ⟨next, hnext, hedge⟩ := exists_edge_of_mem_sentUntilFailure h
      exact (hedge.trans (Sent.edge_of_mem_behind hnext)).trans (edge_of_own? hown)
  · cases h

/-- Every query is put along the edge of a look-up that was asked for. -/
theorem exists_edge_of_mem_history (h : sent ∈ history service lookups l) :
    ∃ lookup ∈ lookups, sent.lookup.edge = lookup.edge := by
  induction lookups generalizing l with
  | nil => cases h
  | cons lookup lookups ih =>
    rcases List.mem_append.mp h with h | h
    · exact ⟨lookup, List.mem_cons_self, edge_of_mem_sent h⟩
    · obtain ⟨later, hlater, hedge⟩ := ih h
      exact ⟨later, List.mem_cons_of_mem lookup hlater, hedge⟩

/-! ## Circles -/

theorem rank_lt_of_edge : ∀ edge ∈ hierarchy, edge.contained.rank < edge.container.rank := by
  decide

/-- Chains of pairs along the hierarchy lead to smaller and smaller kinds. -/
theorem rank_lt_of_path {Above : Target → Target → Prop}
    (h : ∀ c x, Above c x → ⟨c.kind, x.kind⟩ ∈ hierarchy)
    (hpath : Relation.TransGen Above c x) : x.kind.rank < c.kind.rank := by
  induction hpath with
  | single hx => exact rank_lt_of_edge _ (h _ _ hx)
  | tail _ hx ih => exact Nat.lt_trans (rank_lt_of_edge _ (h _ _ hx)) ih

/-! ## Any row of look-ups -/

namespace Lookups.Recorded

variable {sents : List Sent} (h : l.Recorded service .standard start sents)

include h

/-- Whatever was looked up has a template, so an edge joins its kinds. -/
theorem joins (hsent : sent ∈ sents) : sent.lookup.edge.Joins := by
  obtain ⟨before, after, hsplit⟩ := List.append_of_mem hsent
  exact Lookup.exists_template?_iff.mp ⟨_, (h.answered hsplit).1⟩

/-- All pairs lie along the hierarchy, unless a look-up of contents against its direction was
answered with something. -/
theorem along_iff : (∀ c x, l.cache.Holds c x → ⟨c.kind, x.kind⟩ ∈ hierarchy) ↔
    ∀ sent ∈ sents, ∀ kind c, sent.lookup = .contents kind c → sent.lookup.Reversed →
      sent.answer.ids = [] := by
  constructor
  · intro halong sent hsent kind c hlookup hreversed
    refine List.eq_nil_iff_forall_not_mem.mpr fun id hid => ?_
    have hedge := halong c ⟨kind, id⟩ (h.holds_iff.mpr ⟨sent, hsent, hlookup, hid⟩)
    rw [Lookup.Reversed, hlookup] at hreversed
    exact not_mem_of_reversed_mem hreversed hedge
  · intro hnone c x hx
    obtain ⟨sent, hsent, hlookup, hid⟩ := h.holds_iff.mp hx
    have hedge := h.joins hsent
    rw [hlookup] at hedge
    refine hedge.resolve_right fun hreversed => ?_
    rw [hnone sent hsent x.kind c hlookup (by rwa [Lookup.Reversed, hlookup])] at hid
    cases hid

/-- A look-up between kinds that no edge joins was not made before. -/
theorem make_of_apart (hapart : ¬ lookup.edge.Joins) :
    lookup.make service l =
      .error (.undeclaredEdge lookup.target.kind lookup.kind) l := by
  refine Lookup.make_of_undeclared (fun hmarked => ?_) ?_
  · obtain ⟨sent, hsent, rfl⟩ := List.mem_map.mp (h.marked_iff.mp hmarked)
    exact hapart (h.joins hsent)
  · rw [h.schema_eq]
    exact Option.eq_none_iff_forall_ne_some.mpr fun template htemplate =>
      hapart (Lookup.exists_template?_iff.mp ⟨template, htemplate⟩)

end Lookups.Recorded

/-- What the direction of look-ups says of the pairs that they leave in a cache with the
standard templates. -/
structure Lookups.Directed (service : QueryService) (lookups : List Lookup)
    (sents : List Sent) (l : Lookups) : Prop where
  /-- An edge joins the kinds of each pair. -/
  joined : ∀ c x, x ∈ l.cache.contained c → (Edge.mk c.kind x.kind).Joins
  /-- All pairs lie along the hierarchy exactly as long as no look-up of contents against its
  direction was answered with anything. -/
  along_iff : (∀ c x, x ∈ l.cache.contained c → ⟨c.kind, x.kind⟩ ∈ hierarchy) ↔
    ∀ sent ∈ sents, ∀ kind c, sent.lookup = .contents kind c → sent.lookup.Reversed →
      sent.answer.ids = []
  /-- They do so where no look-up against the direction is asked for. -/
  forward : (∀ lookup ∈ lookups, ¬ lookup.Reversed) →
    ∀ c x, x ∈ l.cache.contained c → ⟨c.kind, x.kind⟩ ∈ hierarchy
  /-- Pairs along the hierarchy do not lie in a circle. -/
  acyclic : (∀ c x, x ∈ l.cache.contained c → ⟨c.kind, x.kind⟩ ∈ hierarchy) →
    ∀ t, ¬ Relation.TransGen l.cache.Holds t t
  /-- Between kinds that no edge joins, a look-up fails and leaves no trace. -/
  undeclared : ∀ lookup : Lookup, ¬ lookup.edge.Joins →
    lookup.make service l = .error (.undeclaredEdge lookup.target.kind lookup.kind) l
  /-- Against the direction of an edge, it does not fail for want of a template. -/
  reversed : ∀ lookup : Lookup, lookup.Reversed → ∀ given found l',
    lookup.make service l ≠ .error (.undeclaredEdge given found) l'

/-- Whatever is looked up with the standard templates, the pairs in the cache lie along the
hierarchy exactly as long as no look-up against its direction has found anything. -/
theorem afterEach_directed (service : QueryService) (start : QueryLog)
    (lookups : List Lookup) :
    (afterEach service lookups ⟨.fresh, start⟩).Directed service lookups
      (history service lookups ⟨.fresh, start⟩) := by
  have h := recorded_afterEach service .standard start lookups
  refine ⟨fun c x hx => ?_, h.along_iff, fun hforward => ?_,
    fun halong t hcircle => Nat.lt_irrefl _ (rank_lt_of_path halong hcircle),
    fun lookup => h.make_of_apart,
    fun lookup hreversed given found l' =>
      Lookup.make_ne_undeclaredEdge h.schema_eq (.inr hreversed)⟩
  · obtain ⟨sent, hsent, hlookup, -⟩ := h.holds_iff.mp hx
    have hedge := h.joins hsent
    rwa [hlookup] at hedge
  · -- no look-up that is made goes against the direction
    refine h.along_iff.mpr fun sent hsent _ _ _ hreversed => ?_
    obtain ⟨lookup, hlookup, hedge⟩ := exists_edge_of_mem_history hsent
    rw [Lookup.Reversed, hedge] at hreversed
    exact absurd hreversed (hforward lookup hlookup)

/-- Fileset 5 holds image 1. Looked up for the filesets that it contains, the image is said
to contain fileset 5, and the contents of the fileset close the circle. -/
theorem reversed_lookups_close_circle :
    let service := (LinkStore.empty.link (.fileset 5) (.image 1)).service
    let circle := afterEach service [.contents .fileset (.image 1), .contents .image (.fileset 5)]
      ⟨.fresh, []⟩
    lookupContents service .fileset (.image 1) ⟨.fresh, []⟩ =
        .ok () (afterEach service [.contents .fileset (.image 1)] ⟨.fresh, []⟩) ∧
      .fileset 5 ∈ circle.cache.contained (.image 1) ∧ ⟨.image, .fileset⟩ ∉ hierarchy ∧
      Relation.TransGen circle.cache.Holds (.image 1) (.image 1) := by
  intro service circle
  have hup : .fileset 5 ∈ circle.cache.contained (.image 1) := by decide +kernel
  have hdown : .image 1 ∈ circle.cache.contained (.fileset 5) := by decide +kernel
  exact ⟨rfl, hup, by decide, .tail (.single hup) hdown⟩

end FilesetBatch
