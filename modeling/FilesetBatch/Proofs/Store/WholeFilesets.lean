import FilesetBatch.Proofs.Store.Links

/-!
# A fileset is treated as a whole or left alone

The rule of the whole library, told of a store, the batch before a run and the batch behind
it. Let a fileset be complete for an operation (`LinkStore.Complete`) : the requests touch
all its images, and there are several. Behind a run that succeeds, the operation has one
request for the fileset and none for an image of it, and no request before that one touches
an image of the fileset (`LinkStore.TreatsAsWhole`). For any other fileset, the requests for
it and its images are those of the batch before (`LinkStore.concerns`).

Both are shown for one pass (`treatsAsWhole_onePass`, `filter_concerns_onePass`) and carried
over the passes of a run. A pass for another operation changes no request for this one, and
no pass changes which filesets are complete (`prepareFor_touches_iff`).
-/

namespace FilesetBatch

variable {store : LinkStore} {start log : QueryLog} {l l' : Lookups} {F G : Target}
  {requests requests' : List Request} {operation operation' : Operation}
  {operations : List Operation} {reached : TargetSet} {ps : List Plan}

namespace LinkStore

/-- The operation has one request for this fileset, none for an image that is linked to it, and
none before it that touches such an image. -/
def TreatsAsWhole (store : LinkStore) (requests : List Request) (operation : Operation)
    (F : Target) : Prop :=
  TreatsWhole store.Contains requests operation F

/-- The request asks for this operation on this fileset or on an image of it. -/
def concerns (store : LinkStore) (operation : Operation) (F : Target) (request : Request) :
    Bool :=
  match request.relevantTarget? operation with
  | some target => target = F ∨ store.Contains F target
  | none => false

theorem concerns_iff {request : Request} : store.concerns operation F request = true ↔
    ∃ t, request.relevantTarget? operation = some t ∧ (t = F ∨ store.Contains F t) := by
  unfold concerns
  cases request.relevantTarget? operation <;> simp

end LinkStore

/-! ## One pass -/

section

variable
  (hcollected : Collected store.service start (directTargets requests operation) l reached l')
  (hplanned : Planned l'.cache reached (fun i => i ∈ reached ∧ i.kind = .image) ps)

include hcollected hplanned

theorem treatsAsWhole_onePass (hF : store.Complete requests operation F) :
    store.TreatsAsWhole (onePass ps operation requests) operation F := by
  obtain ⟨p, hp, rfl⟩ := exists_plan_of_complete hcollected hplanned hF
  exact treatsWhole_onePass hcollected hplanned hcollected.sound.shows hp

/-- No image of a planned fileset is linked to another fileset. -/
theorem eq_of_contains_of_mem_plans {p : Plan} (hp : p ∈ ps) {i : Target}
    (hi : store.Contains p.fileset i) (hG : G.kind = .fileset) (hGi : store.Contains G i) :
    p.fileset = G := by
  obtain ⟨hcomplete, -⟩ := complete_of_mem_plans hcollected hplanned hp
  have hreached := (hcollected.mem_reached_iff_touches hcollected.sound.shows).mpr
    (hcomplete.touched i hi)
  have hik : i.kind = .image := contained_of_fileset_edge hGi.edge hG
  have hinside : ∀ {H}, H.kind = .fileset → store.Contains H i → l'.cache.Inside i H :=
    fun {H} hH hHi => (hcollected.sound.founded.aligned H i).mpr
      ((hcollected.holds_iff_of_fileset hreached hH hHi).mpr hHi)
  exact hplanned.unshared ⟨hreached, hik⟩ _ _ hcomplete.kind hG (hinside hcomplete.kind hi)
    (hinside hG hGi)

theorem filter_concerns_onePass (hG : G.kind = .fileset)
    (hnot : ¬ store.Complete requests operation G) :
    (onePass ps operation requests).filter (store.concerns operation G) =
      requests.filter (store.concerns operation G) := by
  have hother : ∀ p ∈ ps, p.fileset ≠ G := by
    rintro p hp rfl
    exact hnot (complete_of_mem_plans hcollected hplanned hp).1
  have hfileset : ∀ {c F}, F.kind = .fileset → ¬ store.Contains c F :=
    fun hF h => contained_ne_fileset_of_edge h.edge hF
  refine filter_onePass (fun p hp moved hmoved => ?_) fun r _ hr p hp => ?_
  · have hpk := (complete_of_mem_plans hcollected hplanned hp).1.kind
    by_contra hconcerns
    obtain ⟨t, ht, htG⟩ := LinkStore.concerns_iff.mp (by simpa using hconcerns)
    obtain rfl := Option.some.inj (hmoved.symm.trans ht)
    rcases htG with htG | htG
    · exact hother p hp htG
    · exact hfileset hpk htG
  · obtain ⟨t, ht, htG⟩ := LinkStore.concerns_iff.mp hr
    obtain ⟨hcomplete, hsuffixes⟩ := complete_of_mem_plans hcollected hplanned hp
    rw [Plan.keeps_of_relevantTarget? ht, hsuffixes, not_or]
    rcases htG with rfl | htG
    · exact ⟨fun h => hother p hp h.symm, hfileset hG⟩
    · refine ⟨fun h => hfileset hcomplete.kind (h ▸ htG), fun h => hother p hp ?_⟩
      exact eq_of_contains_of_mem_plans hcollected hplanned hp h hG htG

end

/-! ## All passes -/

theorem prepareFor_targets_of_ne (h : l.Sound store.service start) (hne : operation' ≠ operation)
    (heq : prepareFor store.service requests operation l = .ok requests' l') :
    requests'.filterMap (fun r => r.relevantTarget? operation') =
      requests.filterMap fun r => r.relevantTarget? operation' := by
  obtain ⟨reached, ps, -, -, rfl⟩ := prepareFor_eq_ok h heq
  exact filterMap_relevantTarget?_onePass hne

/-- Passes for other operations change no request for this one. -/
theorem prepare_targets_of_not_mem (h : l.Sound store.service start)
    (heq : prepare store.service operations requests l = .ok requests' l')
    (hnot : operation ∉ operations) :
    requests'.filterMap (fun r => r.relevantTarget? operation) =
      requests.filterMap fun r => r.relevantTarget? operation :=
  prepare_related (R := fun before behind =>
      behind.filterMap (fun r => r.relevantTarget? operation) =
        before.filterMap fun r => r.relevantTarget? operation)
    (fun _ => rfl) (fun h h' => h'.trans h)
    (fun _ hother {_ _ _ _} hsound hpass =>
      prepareFor_targets_of_ne hsound (fun hsame => hnot (hsame ▸ hother)) hpass) h heq

theorem prepare_treatsAsWhole (h : l.Sound store.service start)
    (heq : prepare store.service operations requests l = .ok requests' l')
    (hmem : operation ∈ operations) (hF : store.Complete requests operation F) :
    store.TreatsAsWhole requests' operation F := by
  induction operations generalizing requests l with
  | nil => cases hmem
  | cons other operations ih =>
    rw [prepare_cons] at heq
    obtain ⟨between, m, hpass, heq⟩ := LookupM.bind_eq_ok_iff.mp heq
    have hm := prepareFor_sound hpass h
    by_cases hlater : operation ∈ operations
    · refine ih hm heq hlater ((complete_congr fun x hx => ?_).mpr hF)
      exact prepareFor_touches_iff h hpass (contained_ne_fileset_of_edge hx.edge)
    · obtain rfl : operation = other := (List.mem_cons.mp hmem).resolve_right hlater
      obtain ⟨reached, ps, hcollected, hplanned, rfl⟩ := prepareFor_eq_ok h hpass
      have hwhole := treatsAsWhole_onePass hcollected hplanned hF
      rwa [LinkStore.TreatsAsWhole, TreatsWhole, ← prepare_targets_of_not_mem hm heq hlater]
        at hwhole

theorem prepareFor_filter_concerns (h : l.Sound store.service start)
    (heq : prepareFor store.service requests operation' l = .ok requests' l')
    (hG : G.kind = .fileset) (hnot : ¬ store.Complete requests operation G) :
    requests'.filter (store.concerns operation G) =
      requests.filter (store.concerns operation G) := by
  obtain ⟨reached, ps, hcollected, hplanned, rfl⟩ := prepareFor_eq_ok h heq
  by_cases hsame : operation = operation'
  · subst hsame
    exact filter_concerns_onePass hcollected hplanned hG hnot
  · refine filter_onePass_of_ne hsame fun r hr => ?_
    obtain ⟨t, ht, -⟩ := LinkStore.concerns_iff.mp hr
    exact ⟨t, ht⟩

theorem prepare_filter_concerns (h : l.Sound store.service start)
    (heq : prepare store.service operations requests l = .ok requests' l')
    (hG : G.kind = .fileset) (hnot : ¬ store.Complete requests operation G) :
    requests'.filter (store.concerns operation G) =
      requests.filter (store.concerns operation G) := by
  -- that the fileset is not complete is passed on along with the requests
  have hboth := prepare_related (R := fun before behind => ¬ store.Complete before operation G →
      ¬ store.Complete behind operation G ∧ behind.filter (store.concerns operation G) =
        before.filter (store.concerns operation G))
    (fun _ hnot => ⟨hnot, rfl⟩)
    (fun h h' hnot => ⟨(h' (h hnot).1).1, (h' (h hnot).1).2.trans (h hnot).2⟩)
    (fun _ _ {_ _ _ _} hsound hpass hnot =>
      ⟨fun hlater => hnot ((complete_congr fun x hx => prepareFor_touches_iff hsound hpass
          (contained_ne_fileset_of_edge hx.edge)).mp hlater),
        prepareFor_filter_concerns hsound hpass hG hnot⟩) h heq
  exact (hboth hnot).2

/-- Behind a run that succeeds, every operation that was prepared treats a complete fileset
as a whole, and leaves the requests for any other fileset and its images as they were. -/
theorem run_treatsAsWhole {prepared : Prepared}
    (hrun : (run store.service operations requests log).result = .ok prepared)
    (hmem : operation ∈ operations) :
    (∀ F, store.Complete requests operation F →
        store.TreatsAsWhole prepared.requests operation F) ∧
      ∀ G, G.kind = .fileset → ¬ store.Complete requests operation G →
        prepared.requests.filter (store.concerns operation G) =
          requests.filter (store.concerns operation G) := by
  obtain ⟨l, hprepare⟩ := prepare_of_run_eq_ok hrun
  exact ⟨fun F hF => prepare_treatsAsWhole .fresh hprepare hmem hF,
    fun G hG hnot => prepare_filter_concerns .fresh hprepare hG hnot⟩

/-- Deleting the datasets and the screen of the demonstration deletes fileset 1001, which is
split across the datasets, as a whole. -/
theorem demonstration_treatsAsWhole :
    LinkStore.empty.loadDemonstration.TreatsAsWhole
      [.deleteTarget (.fileset 1001), .deleteTarget ⟨.dataset, 11⟩, .deleteTarget ⟨.dataset, 12⟩,
        .deleteTarget (.fileset 1002), .deleteTarget ⟨.screen, 2⟩] .delete (.fileset 1001) := by
  have hrun : (run LinkStore.empty.loadDemonstration.service Operation.all demonstrationBatch
      []).result = .ok ⟨[.deleteTarget (.fileset 1001), .deleteTarget ⟨.dataset, 11⟩,
        .deleteTarget ⟨.dataset, 12⟩, .deleteTarget (.fileset 1002),
        .deleteTarget ⟨.screen, 2⟩], 10, 9⟩ := by decide +kernel
  have hcontents : LinkStore.empty.loadDemonstration.contents (.fileset 1001) =
      .ofList [.image 101, .image 102, .image 103] := by decide +kernel
  refine (run_treatsAsWhole hrun (by decide)).1 _
    ⟨rfl, ⟨.image 101, .image 102, ?_⟩, fun i hi => ?_⟩
  · decide
  · have hi := LinkStore.mem_contents.mpr hi.1
    rw [hcontents, TargetSet.mem_ofList] at hi
    simp only [List.mem_cons, List.not_mem_nil, or_false] at hi
    rcases hi with rfl | rfl | rfl
    · exact ⟨⟨.dataset, 11⟩, by decide, .single (by decide)⟩
    · exact ⟨⟨.dataset, 11⟩, by decide, .single (by decide)⟩
    · exact ⟨⟨.dataset, 12⟩, by decide, .single (by decide)⟩

end FilesetBatch
