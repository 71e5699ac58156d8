import FilesetBatch.Proofs.Answers.Told

/-!
# Passes over a service with fixed answers

With fixed answers, a pass can be told by the answers and by what was looked up before it.
`Passed` gathers what a pass that succeeds leaves : which look-ups were made, what the
requests touch behind it, and how the rewritten batch treats the filesets that were planned.
Those are the complete ones among the filesets that were looked up.

A pass succeeds if the queries that it needs are answered and no fileset of which it touches
an image shares an image with another one that is known (`exists_prepareFor_iff`). It changes
nothing if the batch treats its complete filesets as a whole already
(`Passed.eq_of_treatsWhole`).
-/

namespace FilesetBatch

variable {answers : Answers} {start : QueryLog} {requests batch : List Request}
  {operation other : Operation} {l l' : Lookups} {kind : Kind} {c t x F : Target}
  {Above : Target → Target → Prop} {Known Known' Touched Touched' : Target → Prop}

/-- No known fileset with a touched image shares an image with another known fileset. -/
def Parted (Above : Target → Target → Prop) (Known Touched : Target → Prop) : Prop :=
  ∀ ⦃F G i m⦄, F.kind = .fileset → G.kind = .fileset → Known F → Known G → Touched i →
    Above F i → Above F m → Above G m → F = G

theorem Parted.mono (h : Parted Above Known Touched)
    (hknown : ∀ {F}, F.kind = .fileset → Known' F → Known F)
    (htouched : ∀ {F i}, F.kind = .fileset → Above F i → Touched' i → Touched i) :
    Parted Above Known' Touched' :=
  fun _ _ _ _ hF hG hFknown hGknown hi hFi => h hF hG (hknown hF hFknown) (hknown hG hGknown)
    (htouched hF hFi hi) hFi

/-- An image of a fileset is no fileset. -/
theorem Answers.Tells.kind_ne (h : answers.Tells c x) : x.kind ≠ .fileset :=
  contained_ne_fileset_of_edge h.1

/-- What a pass that succeeds leaves. -/
structure Passed (answers : Answers) (start : QueryLog) (requests : List Request)
    (operation : Operation) (l : Lookups) (batch : List Request) (l' : Lookups) : Prop where
  sound : l'.Sound (.ofAnswers answers) start
  contentsAsked_iff : ∀ {kind c}, (kind, c) ∈ l'.cache.contentsAsked ↔
    (kind, c) ∈ l.cache.contentsAsked ∨
      ⟨c.kind, kind⟩ ∈ hierarchy ∧ answers.Seeks requests operation c
  holdersAsked_iff : ∀ {kind x}, (kind, x) ∈ l'.cache.holdersAsked ↔
    (kind, x) ∈ l.cache.holdersAsked ∨
      kind = .fileset ∧ x.kind = .image ∧ Touches answers.Tells requests operation x
  replies : answers.Replies requests operation
  parted : Parted answers.Tells (fun F => (.image, F) ∈ l'.cache.contentsAsked)
    (Touches answers.Tells requests operation)
  touches_iff : ∀ {other t}, Touches answers.Tells batch other t ↔
    Touches answers.Tells requests other t ∨ other = operation ∧
      Complete answers.Tells requests operation t ∧ (.image, t) ∈ l'.cache.contentsAsked
  targets_of_ne : ∀ {other}, other ≠ operation →
    batch.filterMap (fun r => r.relevantTarget? other) =
      requests.filterMap fun r => r.relevantTarget? other
  treatsWhole : ∀ {F}, Complete answers.Tells requests operation F →
    (.image, F) ∈ l'.cache.contentsAsked → TreatsWhole answers.Tells batch operation F
  eq_of_treatsWhole : (∀ {F}, Complete answers.Tells requests operation F →
    (.image, F) ∈ l'.cache.contentsAsked → TreatsWhole answers.Tells requests operation F) →
      batch = requests

/-- What a clean cache says of the filesets with reached images is said by the answers. -/
theorem parted_iff (h : l'.Sound (.ofAnswers answers) start) {reached : TargetSet}
    (hreached : ∀ {x}, x ∈ reached ↔ Touched x) :
    Parted answers.Tells (fun F => (.image, F) ∈ l'.cache.contentsAsked) Touched ↔
      ∀ i ∈ reached, i.kind = .image → l'.cache.Unshared i ∧
        ∀ F, F.kind = .fileset → l'.cache.Holds F i → l'.cache.Clean F := by
  have hholds : ∀ {F x}, F.kind = .fileset → (.image, F) ∈ l'.cache.contentsAsked →
      (l'.cache.Holds F x ↔ answers.Tells F x) :=
    h.shows_tells.holds_iff_of_fileset h.founded
  have hknown : ∀ {F x}, F.kind = .fileset → l'.cache.Holds F x →
      (.image, F) ∈ l'.cache.contentsAsked := by
    intro F x hF hx
    have hasked := h.founded.asked hx
    rwa [show x.kind = .image from contained_of_fileset_edge (h.founded.edge hx) hF] at hasked
  have htells : ∀ {F x}, l'.cache.Holds F x → answers.Tells F x := h.founded.above h.shows_tells
  constructor
  · intro hparted i hi hik
    have hone : ∀ {F G m}, F.kind = .fileset → G.kind = .fileset → l'.cache.Holds F i →
        l'.cache.Holds F m → l'.cache.Holds G m → F = G := fun hF hG hFi hFm hGm =>
      hparted hF hG (hknown hF hFi) (hknown hG hGm) (hreached.mp hi) (htells hFi) (htells hFm)
        (htells hGm)
    refine ⟨fun F G hF hG hiF hiG => ?_, fun F hF hFi m hFm => ⟨?_, fun G G' hG hG' hmG hmG' => ?_⟩⟩
    · have hFi := (h.founded.aligned F i).mp hiF
      exact hone hF hG hFi hFi ((h.founded.aligned G i).mp hiG)
    · exact contained_of_fileset_edge (h.founded.edge hFm) hF
    · exact (hone hF hG hFi hFm ((h.founded.aligned G m).mp hmG)).symm.trans
        (hone hF hG' hFi hFm ((h.founded.aligned G' m).mp hmG'))
  · intro hclean F G i m hF hG hFknown hGknown hi hFi hFm hGm
    have hik : i.kind = .image := contained_of_fileset_edge hFi.1 hF
    have hFheld := (hholds hF hFknown).mpr hFm
    obtain ⟨-, hunshared⟩ := (hclean i (hreached.mpr hi) hik).2 F hF ((hholds hF hFknown).mpr hFi)
      m hFheld
    exact hunshared F G hF hG ((h.founded.aligned F m).mpr hFheld)
      ((h.founded.aligned G m).mpr ((hholds hG hGknown).mpr hGm))

theorem passed_of_prepareFor (h : l.Sound (.ofAnswers answers) start)
    (heq : prepareFor (.ofAnswers answers) requests operation l = .ok batch l') :
    Passed answers start requests operation l batch l' := by
  obtain ⟨reached, ps, hcollect, hplans, rfl⟩ := (prepareFor_eq_ok_iff_onePass h).mp heq
  have hcollected := collect_spec h hcollect
  have haligned := hcollected.sound.founded.aligned
  have hplanned := plans_spec haligned hplans
  have hshows := hcollected.sound.shows_tells
  have hmem : ∀ {F}, (∃ p ∈ ps, F = p.fileset) ↔
      Complete answers.Tells requests operation F ∧ (.image, F) ∈ l'.cache.contentsAsked :=
    exists_mem_plans_iff hcollected hplanned hshows
  refine ⟨hcollected.sound, hcollected.contentsAsked_iff, holdersAsked_iff_of_collect h hcollect,
    hcollected.replies, ?_, ?_, filterMap_relevantTarget?_onePass, ?_, ?_⟩
  · rw [parted_iff hcollected.sound hcollected.mem_reached_iff_told]
    exact (exists_plans_iff haligned).mp ⟨ps, hplans⟩
  · intro other t
    rw [touches_onePass_iff hcollected hplanned hshows, hmem]
  · intro F hcomplete hasked
    obtain ⟨p, hp, rfl⟩ := hmem.mpr ⟨hcomplete, hasked⟩
    exact treatsWhole_onePass hcollected hplanned hshows hp
  · intro hwhole
    refine onePass_eq_self hcollected hplanned hshows fun p hp => ?_
    obtain ⟨hcomplete, hasked⟩ := hmem.mp ⟨p, hp, rfl⟩
    exact hwhole hcomplete hasked

/-- A pass succeeds exactly if each query that it needs is answered and no fileset of which
it touches an image shares an image with another one that is known by then. -/
theorem exists_prepareFor_iff (h : l.Sound (.ofAnswers answers) start) :
    (∃ batch l', prepareFor (.ofAnswers answers) requests operation l = .ok batch l') ↔
      answers.Replies requests operation ∧ Parted answers.Tells
        (fun F => (.image, F) ∈ l.cache.contentsAsked ∨ answers.Seeks requests operation F)
        (Touches answers.Tells requests operation) := by
  constructor
  · rintro ⟨batch, l', heq⟩
    have hpassed := passed_of_prepareFor h heq
    refine ⟨hpassed.replies, hpassed.parted.mono (fun hF hknown => ?_) fun _ _ => id⟩
    exact hpassed.contentsAsked_iff.mpr
      (hknown.imp_right fun hseeks => ⟨edge_of_fileset hF rfl, hseeks⟩)
  · rintro ⟨hreplies, hparted⟩
    obtain ⟨reached, l', hcollect⟩ := exists_collect h hreplies
    have hcollected := collect_spec h hcollect
    obtain ⟨ps, hplans⟩ := (exists_plans_iff hcollected.sound.founded.aligned).mpr
      ((parted_iff hcollected.sound hcollected.mem_reached_iff_told).mp
        (hparted.mono (fun _ hasked => (hcollected.contentsAsked_iff.mp hasked).imp_right And.right)
          fun _ _ => id))
    exact ⟨_, l', (prepareFor_eq_ok_iff_onePass h).mpr ⟨reached, ps, hcollect, hplans, rfl⟩⟩

theorem exists_prepareFor_fresh_iff :
    (∃ batch l', prepareFor (.ofAnswers answers) requests operation ⟨.fresh, start⟩ =
        .ok batch l') ↔
      answers.Replies requests operation ∧ Parted answers.Tells
        (answers.Seeks requests operation) (Touches answers.Tells requests operation) := by
  have hfresh : Lookups.Sound (.ofAnswers answers) start ⟨.fresh, start⟩ := .fresh
  simpa using exists_prepareFor_iff hfresh

/-! ## From pass to pass -/

namespace Passed

variable (h : Passed answers start requests operation l batch l')

include h

/-- A pass changes nothing about which targets but filesets are touched. -/
theorem touches_iff_of_ne (ht : t.kind ≠ .fileset) :
    Touches answers.Tells batch other t ↔ Touches answers.Tells requests other t := by
  rw [h.touches_iff, or_iff_left]
  exact fun hplanned => ht hplanned.2.1.kind

theorem complete_iff : Complete answers.Tells batch other F ↔
    Complete answers.Tells requests other F :=
  complete_congr fun _ hi => h.touches_iff_of_ne hi.kind_ne

theorem touches_iff_of_image (ht : t.kind = .image) :
    Touches answers.Tells batch other t ↔ Touches answers.Tells requests other t :=
  h.touches_iff_of_ne (by simp [ht])

theorem seeks_iff : answers.Seeks batch other c ↔ answers.Seeks requests other c ∨
    other = operation ∧ Complete answers.Tells requests operation c ∧
      (.image, c) ∈ l'.cache.contentsAsked := by
  have hgiven : (∃ i : Target, i.kind = .image ∧ Touches answers.Tells batch other i ∧
      answers.Gives i c) ↔ ∃ i : Target, i.kind = .image ∧
        Touches answers.Tells requests other i ∧ answers.Gives i c :=
    exists_congr fun i => and_congr_right fun hi => and_congr_left fun _ =>
      h.touches_iff_of_image hi
  rw [Answers.Seeks, h.touches_iff, hgiven, Answers.Seeks, or_right_comm]

/-- A fileset that becomes touched was looked up. -/
theorem replies_iff : answers.Replies batch other ↔ answers.Replies requests other := by
  constructor
  · intro hreplies
    exact ⟨fun hedge hseeks => hreplies.contents hedge (h.seeks_iff.mpr (.inl hseeks)),
      fun hik htouches => hreplies.filesets hik ((h.touches_iff_of_image hik).mpr htouches)⟩
  · intro hreplies
    refine ⟨fun {kind c} hedge hseeks => ?_,
      fun hik htouches => hreplies.filesets hik ((h.touches_iff_of_image hik).mp htouches)⟩
    rcases h.seeks_iff.mp hseeks with hseeks | ⟨-, hcomplete, hasked⟩
    · exact hreplies.contents hedge hseeks
    · have hkind : kind = .image := contained_of_fileset_edge hedge hcomplete.kind
      exact h.sound.responds_of_contentsAsked (hkind ▸ hasked)

end Passed

/-- What holds before all passes and is kept by each of them holds behind them, of the
operations that the passes were for. -/
theorem invariant_of_prepare {Invariant : List Operation → List Request → Lookups → Prop}
    {done operations : List Operation} (h : l.Sound (.ofAnswers answers) start)
    (hdone : Invariant done requests l)
    (hpass : ∀ {done operation requests batch l l'}, Invariant done requests l →
      Passed answers start requests operation l batch l' →
        Invariant (done ++ [operation]) batch l')
    (heq : prepare (.ofAnswers answers) operations requests l = .ok batch l') :
    Invariant (done ++ operations) batch l' := by
  induction operations generalizing done requests l with
  | nil =>
    obtain ⟨rfl, rfl⟩ := LookupM.pure_eq_ok_iff.mp heq
    rwa [List.append_nil]
  | cons operation operations ih =>
    rw [prepare_cons] at heq
    obtain ⟨between, m, hfirst, heq⟩ := LookupM.bind_eq_ok_iff.mp heq
    have hpassed := passed_of_prepareFor h hfirst
    rw [List.append_cons]
    exact ih hpassed.sound (hpass hdone hpassed) heq

end FilesetBatch
