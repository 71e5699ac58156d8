import FilesetBatch.Batch.Reached
import FilesetBatch.Proofs.Containment.Sound

/-!
# What is reached is all that lies below

`collect` follows each edge of the hierarchy once. It adds only what a reached container
holds (`Followed.exists_path`), and it looks up the contents of every reached container
along every edge (`Followed.closed`) : a container that is reached at the end was reached
when its edge was followed, because no edge leads to a kind that an earlier edge, or the
edge itself, starts from (`Descending`). The fileset look-ups behind it add pairs of a
fileset and an image, and what they find of a fileset that was reached was found before.

`collect_spec` puts this together for a state in which no query has failed : the reached
targets are those that the cache, as it is afterwards, holds below the targets of the
requests through any chain of pairs (`Collected.reached_iff`).
-/

namespace FilesetBatch

variable {service : QueryService} {start : QueryLog} {edge : Edge} {edges : List Edge}
  {reached reached' : TargetSet} {containers : List Target} {l l' m : Lookups}
  {kind : Kind} {c t x : Target}

/-! ## One container -/

/-- Add what one container contains along an edge. -/
def expand (service : QueryService) (edge : Edge) (reached : TargetSet) (container : Target) :
    LookupM TargetSet := do
  lookupContents service edge.contained container
  let contents := (← get).cache.contained container
  return reached.union (contents.ofKind edge.contained)

theorem follow_eq (service : QueryService) (reached : TargetSet) (edge : Edge) :
    follow service reached edge =
      (reached.ofKind edge.container).toList.foldlM (expand service edge) reached :=
  rfl

theorem expand_eq_ok_iff :
    expand service edge reached c l = .ok reached' l' ↔
      lookupContents service edge.contained c l = .ok () l' ∧
        reached' = reached.union ((l'.cache.contained c).ofKind edge.contained) := by
  rw [expand, LookupM.bind_eq_ok_iff]
  constructor
  · rintro ⟨⟨⟩, m, hm, h⟩
    rw [LookupM.get_bind] at h
    obtain ⟨rfl, rfl⟩ := LookupM.pure_eq_ok_iff.mp h
    exact ⟨hm, rfl⟩
  · rintro ⟨hm, rfl⟩
    exact ⟨(), l', hm, rfl⟩

theorem expand_follows {along : Edge → Prop} (hedge : along ⟨c.kind, edge.contained⟩) :
    (expand service edge reached c).Follows service along :=
  .bind (lookupContents_follows hedge) fun _ => .of_result fun l => .refl l

/-! ## The containers of one edge -/

/-- What a loop over some containers of an edge does to the targets reached so far. -/
structure Expanded (edge : Edge) (containers : List Target) (reached : TargetSet) (l : Lookups)
    (reached' : TargetSet) (l' : Lookups) : Prop where
  grows : l.Grows l'
  subset : ∀ t ∈ reached, t ∈ reached'
  held : ∀ t ∈ reached', t ∈ reached ∨
    t.kind = edge.contained ∧ ∃ c ∈ containers, l'.cache.Holds c t
  closed : ∀ c ∈ containers, (edge.contained, c) ∈ l'.cache.contentsAsked ∧
    ∀ x, x.kind = edge.contained → l'.cache.Holds c x → x ∈ reached'
  asked : ∀ {kind c}, (kind, c) ∈ l'.cache.contentsAsked →
    (kind, c) ∈ l.cache.contentsAsked ∨ c ∈ containers
  holdersAsked : l'.cache.holdersAsked = l.cache.holdersAsked

theorem grows_of_lookupContents {u : Unit} (h : lookupContents service kind c l = .ok u l') :
    l.Grows l' := by
  have hfollows : (lookupContents service kind c).Follows service fun _ => True :=
    lookupContents_follows trivial
  exact hfollows.grows h

theorem asked_of_lookupContents {u : Unit} {kind' : Kind}
    (h : lookupContents service kind c l = .ok u l')
    (hx : (kind', x) ∈ l'.cache.contentsAsked) :
    (kind', x) ∈ l.cache.contentsAsked ∨ (kind' = kind ∧ x = c) := by
  rcases lookupContents_eq_ok_cases h with ⟨-, rfl⟩ | ⟨template, ids, -, -, -, rfl⟩
  · exact .inl hx
  · exact Or.symm (by simpa using hx)

theorem expanded_of_foldlM
    (h : containers.foldlM (expand service edge) reached l = .ok reached' l') :
    Expanded edge containers reached l reached' l' := by
  induction containers generalizing reached l with
  | nil =>
    obtain ⟨rfl, rfl⟩ := LookupM.pure_eq_ok_iff.mp h
    exact ⟨.refl l, fun _ => id, fun _ => .inl, by simp, .inl, rfl⟩
  | cons c containers ih =>
    rw [List.foldlM_cons, LookupM.bind_eq_ok_iff] at h
    obtain ⟨between, m, hc, h⟩ := h
    obtain ⟨hlookup, rfl⟩ := expand_eq_ok_iff.mp hc
    have hgrows : l.Grows m := grows_of_lookupContents hlookup
    have hrest := ih h
    have hasked := contentsAsked_of_lookupContents hlookup
    refine ⟨hgrows.trans hrest.grows, fun t ht => hrest.subset t (by simp [ht]), ?_, ?_, ?_,
      hrest.holdersAsked.trans (holdersAsked_of_lookupContents hlookup)⟩
    · intro t ht
      rcases hrest.held t ht with ht | ⟨hk, d, hd, hdt⟩
      · rcases TargetSet.mem_union.mp ht with ht | ht
        · exact .inl ht
        · obtain ⟨hct, hk⟩ := TargetSet.mem_ofKind.mp ht
          exact .inr ⟨hk, c, List.mem_cons_self, hrest.grows.holds hct⟩
      · exact .inr ⟨hk, d, List.mem_cons_of_mem c hd, hdt⟩
    · intro d hd
      rcases List.mem_cons.mp hd with rfl | hd
      · refine ⟨hrest.grows.contentsAsked hasked, fun x hx hdx => hrest.subset x ?_⟩
        rw [← hx] at hasked
        simpa [hx] using .inr (hrest.grows.stable hasked hdx)
      · exact hrest.closed d hd
    · intro kind d hd
      rcases hrest.asked hd with hd | hd
      · rcases asked_of_lookupContents hlookup hd with hd | ⟨-, rfl⟩
        · exact .inl hd
        · exact .inr List.mem_cons_self
      · exact .inr (List.mem_cons_of_mem c hd)

/-! ## The edges, one after another -/

/-- No edge leads to a kind from which an earlier edge, or the edge itself, starts. -/
def Descending (edges : List Edge) : Prop :=
  (∀ edge ∈ edges, edge.contained ≠ edge.container) ∧
    edges.Pairwise fun edge later => later.contained ≠ edge.container

theorem descending_hierarchy : Descending hierarchy := by
  unfold Descending
  decide

/-- What following some edges does to the targets reached so far. -/
structure Followed (edges : List Edge) (reached : TargetSet) (l : Lookups)
    (reached' : TargetSet) (l' : Lookups) : Prop where
  grows : l.Grows l'
  subset : ∀ t ∈ reached, t ∈ reached'
  exists_path : ∀ t ∈ reached', ∃ d ∈ reached, Relation.ReflTransGen l'.cache.Holds d t
  kind_of_new : ∀ t ∈ reached', t ∈ reached ∨ ∃ edge ∈ edges, t.kind = edge.contained
  closed : ∀ edge ∈ edges, ∀ c ∈ reached', c.kind = edge.container →
    (edge.contained, c) ∈ l'.cache.contentsAsked ∧
      ∀ x, x.kind = edge.contained → l'.cache.Holds c x → x ∈ reached'
  asked : ∀ {kind c}, (kind, c) ∈ l'.cache.contentsAsked →
    (kind, c) ∈ l.cache.contentsAsked ∨ c ∈ reached'
  holdersAsked : l'.cache.holdersAsked = l.cache.holdersAsked

theorem followed_of_foldlM (hedges : Descending edges)
    (h : edges.foldlM (follow service) reached l = .ok reached' l') :
    Followed edges reached l reached' l' := by
  induction edges generalizing reached l with
  | nil =>
    obtain ⟨rfl, rfl⟩ := LookupM.pure_eq_ok_iff.mp h
    exact ⟨.refl l, fun _ => id, fun t ht => ⟨t, ht, .refl⟩, fun _ => .inl, by simp, .inl, rfl⟩
  | cons edge edges ih =>
    rw [List.foldlM_cons, LookupM.bind_eq_ok_iff] at h
    obtain ⟨between, m, hm, h⟩ := h
    rw [follow_eq] at hm
    have hone := expanded_of_foldlM hm
    have hcontainers : ∀ {c}, c ∈ (reached.ofKind edge.container).toList ↔
        c ∈ reached ∧ c.kind = edge.container := TargetSet.mem_ofKind
    obtain ⟨hself, hlater⟩ := hedges
    have hrest := ih ⟨fun e he => hself e (List.mem_cons_of_mem edge he),
      (List.pairwise_cons.mp hlater).2⟩ h
    -- a container of this edge that is reached at the end was reached when it was followed
    have hbefore : ∀ c ∈ reached', c.kind = edge.container → c ∈ reached := by
      intro c hc hk
      rcases hrest.kind_of_new c hc with hc | ⟨later, hl, hlk⟩
      · rcases hone.held c hc with hc | ⟨hk', -⟩
        · exact hc
        · exact absurd (hk'.symm.trans hk) (hself edge List.mem_cons_self)
      · exact absurd (hlk.symm.trans hk) ((List.pairwise_cons.mp hlater).1 later hl)
    refine ⟨hone.grows.trans hrest.grows, fun t ht => hrest.subset t (hone.subset t ht),
      ?_, ?_, ?_, ?_, hrest.holdersAsked.trans hone.holdersAsked⟩
    · intro t ht
      obtain ⟨d, hd, hpath⟩ := hrest.exists_path t ht
      rcases hone.held d hd with hd | ⟨-, c, hc, hcd⟩
      · exact ⟨d, hd, hpath⟩
      · exact ⟨c, (hcontainers.mp hc).1, .head (hrest.grows.holds hcd) hpath⟩
    · intro t ht
      rcases hrest.kind_of_new t ht with ht | ⟨later, hl, hk⟩
      · rcases hone.held t ht with ht | ⟨hk, -⟩
        · exact .inl ht
        · exact .inr ⟨edge, List.mem_cons_self, hk⟩
      · exact .inr ⟨later, List.mem_cons_of_mem edge hl, hk⟩
    · intro e he c hc hk
      rcases List.mem_cons.mp he with rfl | he
      · obtain ⟨hasked, hclosed⟩ := hone.closed c (hcontainers.mpr ⟨hbefore c hc hk, hk⟩)
        refine ⟨hrest.grows.contentsAsked hasked, fun x hx hcx => hrest.subset x ?_⟩
        rw [← hx] at hasked
        exact hclosed x hx (hrest.grows.stable hasked hcx)
      · exact hrest.closed e he c hc hk
    · intro kind c hc
      rcases hrest.asked hc with hc | hc
      · rcases hone.asked hc with hc | hc
        · exact .inl hc
        · exact .inr (hrest.subset c (hone.subset c (hcontainers.mp hc).1))
      · exact .inr hc

theorem mem_hierarchy_of_mem_ofKind (hedge : edge ∈ hierarchy)
    (hc : c ∈ (reached.ofKind edge.container).toList) : ⟨c.kind, edge.contained⟩ ∈ hierarchy := by
  have hk : c.kind = edge.container := (TargetSet.mem_ofKind.mp hc).2
  rwa [hk]

theorem followAll_follows (hedges : ∀ edge ∈ edges, edge ∈ hierarchy) (reached : TargetSet) :
    (edges.foldlM (follow service) reached).Follows service (· ∈ hierarchy) :=
  .foldlM edges reached fun _ edge hedge => .foldlM _ _ fun _ _ hc =>
    expand_follows (mem_hierarchy_of_mem_ofKind (hedges edge hedge) hc)

theorem followAll_sound (hedges : ∀ edge ∈ edges, edge ∈ hierarchy) (reached : TargetSet) :
    (edges.foldlM (follow service) reached).Keeps (Lookups.Sound service start) :=
  .foldlM edges reached fun _ edge hedge => .foldlM _ _ fun _ _ hc _ _ _ heq =>
    lookupContents_sound (mem_hierarchy_of_mem_ofKind (hedges edge hedge) hc)
      (expand_eq_ok_iff.mp heq).1

/-! ## The filesets of the reached images -/

/-- The query for the containers of one kind of `x` was answered with `c` among them. -/
def QueryService.GaveContainer (service : QueryService) (start log : QueryLog)
    (x c : Target) : Prop :=
  ∃ template ids, Schema.standard.template? x.kind c.kind = some template ∧
    service.Gave start log template x.id (.ok ids) ∧ c.id ∈ ids

theorem QueryService.GaveContainer.mono {log log' : QueryLog}
    (h : service.GaveContainer start log x c) (hlog : log <+: log') :
    service.GaveContainer start log' x c := by
  obtain ⟨template, ids, htemplate, hgave, hid⟩ := h
  exact ⟨template, ids, htemplate, hgave.mono hlog, hid⟩

/-- Contents are looked up behind a look-up of containers only for those in its answer. -/
theorem asked_of_lookupContainers {u : Unit} {kind' : Kind} (h : l.Sound service start)
    (hedge : ⟨kind, x.kind⟩ ∈ hierarchy) (heq : lookupContainers service kind x l = .ok u l')
    (hc : (kind', c) ∈ l'.cache.contentsAsked) : (kind', c) ∈ l.cache.contentsAsked ∨
      kind' = x.kind ∧ c.kind = kind ∧ service.GaveContainer start l'.log x c := by
  rcases lookupContainers_eq_ok_cases heq with ⟨-, rfl⟩ |
    ⟨template, ids, new, declared, answered, hloop⟩
  · exact .inl hc
  have hgrows : ∀ id ∈ ids, (lookupContents service x.kind ⟨kind, id⟩).Leads Lookups.Grows :=
    fun id _ => (lookupContents_follows hedge).grows
  have hgrown := LookupM.Leads.forM .refl .trans ids hgrows hloop
  have hasked : ∀ kind' c, (kind', c) ∈ l'.cache.contentsAsked →
      (kind', c) ∈ l.cache.contentsAsked ∨ kind' = x.kind ∧ c.kind = kind ∧ c.id ∈ ids := by
    refine LookupM.Keeps.forM (P := fun m => ∀ kind' c, (kind', c) ∈ m.cache.contentsAsked →
      (kind', c) ∈ l.cache.contentsAsked ∨ kind' = x.kind ∧ c.kind = kind ∧ c.id ∈ ids) ids
      (fun id hid _ _ _ hone h kind' c hc => ?_) hloop fun _ _ => .inl
    rcases asked_of_lookupContents hone hc with hc | ⟨rfl, rfl⟩
    · exact h kind' c hc
    · exact .inr ⟨rfl, rfl, hid⟩
  rcases hasked kind' c hc with hc | ⟨rfl, rfl, hid⟩
  · exact .inl (by simpa using hc)
  · rw [h.schema] at declared
    exact .inr ⟨rfl, rfl, template, ids, declared,
      (QueryService.gave_append_singleton h.founded.log answered).mono hgrown.log, hid⟩

/-! ## Collecting -/

/-- What `collect` finds, and what the cache holds of it afterwards. -/
structure Collected (service : QueryService) (start : QueryLog) (direct : TargetSet)
    (l : Lookups) (reached : TargetSet) (l' : Lookups) : Prop where
  sound : l'.Sound service start
  grows : l.Grows l'
  reached_iff : ∀ {t}, t ∈ reached ↔ ∃ d ∈ direct, Relation.ReflTransGen l'.cache.Holds d t
  contents : ∀ {kind c}, c ∈ reached → ⟨c.kind, kind⟩ ∈ hierarchy →
    (kind, c) ∈ l'.cache.contentsAsked
  filesets : ∀ {i}, i ∈ reached → i.kind = .image → (.fileset, i) ∈ l'.cache.holdersAsked
  asked : ∀ {kind c}, (kind, c) ∈ l'.cache.contentsAsked →
    (kind, c) ∈ l.cache.contentsAsked ∨ c ∈ reached ∨
      ∃ i ∈ reached, i.kind = .image ∧ c.kind = .fileset ∧
        service.GaveContainer start l'.log i c

variable {requests : List Request} {operation : Operation}

theorem fileset_edge (h : x ∈ (reached.ofKind .image).toList) :
    ⟨.fileset, x.kind⟩ ∈ hierarchy :=
  edge_of_fileset rfl (TargetSet.mem_ofKind.mp h).2

theorem collect_follows :
    (collect service requests operation).Follows service (· ∈ hierarchy) :=
  .bind (followAll_follows (fun _ => id) _) fun reached => .bind
    (.forM _ fun _ hi => lookupContainers_follows (fileset_edge hi)) fun _ => .pure reached

theorem collect_eq_ok_iff :
    collect service requests operation l = .ok reached l' ↔
      ∃ m, hierarchy.foldlM (follow service) (directTargets requests operation) l =
          .ok reached m ∧
        ((reached.ofKind .image).toList.forM fun image =>
          lookupContainers service .fileset image) m = .ok () l' := by
  rw [collect, LookupM.bind_eq_ok_iff]
  constructor
  · rintro ⟨reached', m, hm, h⟩
    obtain ⟨⟨⟩, n, hn, h⟩ := LookupM.bind_eq_ok_iff.mp h
    obtain ⟨rfl, rfl⟩ := LookupM.pure_eq_ok_iff.mp h
    exact ⟨m, hm, hn⟩
  · rintro ⟨m, hm, hl⟩
    exact ⟨reached, m, hm, LookupM.bind_eq_ok_iff.mpr ⟨(), l', hl, rfl⟩⟩

/-- The reached targets are closed under what the cache holds, whether or not queries failed
before. -/
theorem mem_reached_iff (h : l'.Founded service (· ∈ hierarchy) start)
    (heq : collect service requests operation l = .ok reached l') :
    t ∈ reached ↔ ∃ d ∈ directTargets requests operation,
      Relation.ReflTransGen l'.cache.Holds d t := by
  obtain ⟨m, hfollow, hloop⟩ := collect_eq_ok_iff.mp heq
  have hfollowed := followed_of_foldlM descending_hierarchy hfollow
  have hgrown : m.Grows l' := LookupM.Leads.forM .refl .trans _ (fun i hi =>
    (lookupContainers_follows (fileset_edge hi)).grows) hloop
  have hclosed : ∀ {c x}, c ∈ reached → l'.cache.Holds c x → x ∈ reached := by
    intro c x hc hx
    obtain ⟨hcm, hcx⟩ := hfollowed.closed _ (h.edge hx) c hc rfl
    exact hcx x rfl (hgrown.stable hcm hx)
  constructor
  · intro ht
    obtain ⟨d, hd, hpath⟩ := hfollowed.exists_path t ht
    exact ⟨d, hd, Relation.ReflTransGen.mono (fun _ _ => hgrown.holds) _ _ hpath⟩
  · rintro ⟨d, hd, hpath⟩
    induction hpath with
    | refl => exact hfollowed.subset d hd
    | tail _ hstep ih => exact hclosed ih hstep

theorem collect_spec (h : l.Sound service start)
    (heq : collect service requests operation l = .ok reached l') :
    Collected service start (directTargets requests operation) l reached l' := by
  obtain ⟨m, hfollow, hloop⟩ := collect_eq_ok_iff.mp heq
  have hm : m.Sound service start := followAll_sound (fun _ => id) _ hfollow h
  have hfollowed := followed_of_foldlM descending_hierarchy hfollow
  have himage : ∀ {i}, i ∈ (reached.ofKind .image).toList ↔ i ∈ reached ∧ i.kind = .image :=
    TargetSet.mem_ofKind
  have hgrows : ∀ i ∈ (reached.ofKind .image).toList,
      (lookupContainers service .fileset i).Leads Lookups.Grows :=
    fun i hi => (lookupContainers_follows (fileset_edge hi)).grows
  have hgrown : m.Grows l' := LookupM.Leads.forM .refl .trans _ hgrows hloop
  -- what the loop looks up besides are contents of filesets that hold a reached image
  have hend : l'.Sound service start ∧ ∀ kind c, (kind, c) ∈ l'.cache.contentsAsked →
      (kind, c) ∈ m.cache.contentsAsked ∨ ∃ i ∈ reached, i.kind = .image ∧ c.kind = .fileset ∧
        service.GaveContainer start l'.log i c := by
    refine LookupM.Keeps.forM (P := fun n => n.Sound service start ∧
      ∀ kind c, (kind, c) ∈ n.cache.contentsAsked → (kind, c) ∈ m.cache.contentsAsked ∨
        ∃ i ∈ reached, i.kind = .image ∧ c.kind = .fileset ∧
          service.GaveContainer start n.log i c) _ (fun i hi n _ n' hone hn => ?_) hloop
      ⟨hm, fun _ _ => .inl⟩
    refine ⟨lookupContainers_sound (fileset_edge hi) hone hn.1, fun kind c hc => ?_⟩
    rcases asked_of_lookupContainers hn.1 (fileset_edge hi) hone hc with hc | ⟨-, hk, hgave⟩
    · rcases hn.2 kind c hc with hc | ⟨j, hj, hjk, hk, hgave⟩
      · exact .inl hc
      · exact .inr ⟨j, hj, hjk, hk, hgave.mono (hgrows i hi hone).log⟩
    · obtain ⟨hreached, hik⟩ := himage.mp hi
      exact .inr ⟨i, hreached, hik, hk, hgave⟩
  obtain ⟨hsound, hasked⟩ := hend
  refine ⟨hsound, hfollowed.grows.trans hgrown, mem_reached_iff hsound.founded heq,
    fun {kind c} hc hk => hgrown.contentsAsked (hfollowed.closed _ hk c hc rfl).1,
    fun {i} hi hk => ?_, fun {kind c} hc => ?_⟩
  · obtain ⟨n, n', hturn, hn'⟩ :=
      LookupM.exists_turn_of_forM .refl .trans hgrows hloop (himage.mpr ⟨hi, hk⟩)
    exact hn'.holdersAsked
      (holdersAsked_of_lookupContainers (fileset_edge (himage.mpr ⟨hi, hk⟩)) hturn)
  · rcases hasked kind c hc with hc | hc
    · rcases hfollowed.asked hc with hc | hc
      · exact .inl hc
      · exact .inr (.inl hc)
    · exact .inr (.inr hc)

/-- The containers that are looked up are the filesets of the reached images. -/
theorem holdersAsked_of_collect (heq : collect service requests operation l = .ok reached l')
    (hx : (kind, x) ∈ l'.cache.holdersAsked) : (kind, x) ∈ l.cache.holdersAsked ∨
      kind = .fileset ∧ x ∈ reached ∧ x.kind = .image := by
  obtain ⟨m, hfollow, hloop⟩ := collect_eq_ok_iff.mp heq
  have hfollowed := followed_of_foldlM descending_hierarchy hfollow
  have hnew : ∀ kind x, (kind, x) ∈ l'.cache.holdersAsked →
      (kind, x) ∈ m.cache.holdersAsked ∨ kind = .fileset ∧ x ∈ reached ∧ x.kind = .image := by
    refine LookupM.Keeps.forM (P := fun n => ∀ kind x, (kind, x) ∈ n.cache.holdersAsked →
      (kind, x) ∈ m.cache.holdersAsked ∨ kind = .fileset ∧ x ∈ reached ∧ x.kind = .image) _
      (fun i hi n _ n' hone hn kind x hx => ?_) hloop fun _ _ => .inl
    rcases eq_or_mem_of_lookupContainers hone hx with ⟨rfl, rfl⟩ | hx
    · exact .inr ⟨rfl, TargetSet.mem_ofKind.mp hi⟩
    · exact hn kind x hx
  rw [← hfollowed.holdersAsked]
  exact hnew kind x hx

end FilesetBatch
