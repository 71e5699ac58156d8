import FilesetBatch.Proofs.Store.Links

/-!
# When an image in two filesets is found out

A run on a store that answers all queries fails for one reason only, an image in several
filesets, and `run_fails_iff` says which stores and batches have it. A run involves a
fileset if it prepares an operation whose requests touch an image of it
(`LinkStore.Involves`). The run fails exactly if two filesets that it involves have an image
in common, whether or not anything touches that image, and even if they are involved by
different operations.

In one direction, the contents of a fileset are looked up only if the run involves it
(`prepare_involves_of_asked`), so what a failing pass has found are two such filesets. In
the other, a pass looks up the filesets that it involves (`asked_of_involves`) and compares
each image of them with all filesets that were looked up so far (`eq_of_shared`), so the
passes that succeed rule out every pair (`prepare_eq_of_shared`).
-/

namespace FilesetBatch

variable {store : LinkStore} {start log : QueryLog} {l l' : Lookups} {F G i : Target}
  {requests requests' : List Request} {operation : Operation} {operations : List Operation}
  {reached : TargetSet} {ps : List Plan} {failure : Failure}

namespace LinkStore

/-- Requests for one of these operations touch an image that is linked to the fileset. -/
def Involves (store : LinkStore) (requests : List Request) (operations : List Operation)
    (F : Target) : Prop :=
  ∃ operation ∈ operations, FilesetBatch.Involves store.Contains requests operation F

theorem involves_cons : store.Involves requests (operation :: operations) F ↔
    FilesetBatch.Involves store.Contains requests operation F ∨
      store.Involves requests operations F := by
  simp [Involves]

/-- Two filesets that these operations involve have an image in common. -/
def SharesImage (store : LinkStore) (requests : List Request) (operations : List Operation) :
    Prop :=
  ∃ F G, F ≠ G ∧ F.kind = .fileset ∧ G.kind = .fileset ∧
    (∃ i, store.Contains F i ∧ store.Contains G i) ∧
    store.Involves requests operations F ∧ store.Involves requests operations G

/-- No standard template fails. -/
def Works (store : LinkStore) : Prop :=
  ∀ template ∈ Template.standard, template.name ∉ store.failing

/-- A store that works refuses no query. -/
theorem Works.not_refused (h : store.Works) (hschema : l.cache.schema = .standard) :
    ¬ Refused store.service (· ∈ hierarchy) l failure l' := by
  have hanswer : ∀ {given found : Kind} {template : Template} {id : Int} {reason : String},
      l.cache.schema.template? given found = some template →
      store.answer template id ≠ .error reason := by
    intro given found template id reason htemplate
    rw [hschema] at htemplate
    have hmem := Schema.mem_templates_of_template? htemplate
    rw [answer, if_neg (h template hmem)]
    exact fun h => by cases h
  rintro ⟨query, reason, hstep, -⟩
  generalize hfailed : (Except.error reason : Answer) = answer at hstep
  cases hstep with
  | contents edge new declared answered => exact hanswer declared (answered.trans hfailed.symm)
  | holders edge new declared answered => exact hanswer declared (answered.trans hfailed.symm)

end LinkStore

/-! ## One pass -/

section

variable
  (hcollected : Collected store.service start (directTargets requests operation) l reached l')

include hcollected

theorem asked_of_involves (hF : F.kind = .fileset)
    (hinvolves : Involves store.Contains requests operation F) :
    (.image, F) ∈ l'.cache.contentsAsked := by
  obtain ⟨i, hi, htouches⟩ := hinvolves
  have hreached := (hcollected.mem_reached_iff_touches hcollected.sound.shows).mpr htouches
  exact hcollected.asked_of_contains hreached hF hi

/-- A pass looks up a fileset only if it is involved. -/
theorem involves_of_asked (hF : F.kind = .fileset) (hi : store.Contains F i)
    (hasked : (.image, F) ∈ l'.cache.contentsAsked) :
    (.image, F) ∈ l.cache.contentsAsked ∨ Involves store.Contains requests operation F := by
  have htouches : ∀ {x}, x ∈ reached → Touches store.Contains requests operation x :=
    (hcollected.mem_reached_iff_touches hcollected.sound.shows).mp
  rcases hcollected.asked hasked with hasked | hreached | ⟨j, hj, hjk, -, hgave⟩
  · exact .inl hasked
  · obtain ⟨d, hd, hpath⟩ := htouches hreached
    exact .inr ⟨i, hi, d, hd, hpath.tail hi⟩
  · have hFj := hgave.contains (edge_of_fileset hF hjk)
    exact .inr ⟨j, hFj, htouches hj⟩

/-- A pass that succeeds has compared the filesets it involves with all that are cached. -/
theorem eq_of_shared
    (hplanned : Planned l'.cache reached (fun i => i ∈ reached ∧ i.kind = .image) ps)
    (hF : F.kind = .fileset) (hasked : (.image, F) ∈ l'.cache.contentsAsked)
    (hG : G.kind = .fileset) (hinvolves : Involves store.Contains requests operation G)
    (hFi : store.Contains F i) (hGi : store.Contains G i) : F = G := by
  obtain ⟨j, hj, htouches⟩ := hinvolves
  have hreached := (hcollected.mem_reached_iff_touches hcollected.sound.shows).mpr htouches
  have hjk : j.kind = .image := contained_of_fileset_edge hj.edge hG
  have hik : i.kind = .image := contained_of_fileset_edge hGi.edge hG
  have hholdsG : ∀ {x}, store.Contains G x → l'.cache.Holds G x :=
    (hcollected.holds_iff_of_fileset hreached hG hj).mpr
  have hholdsF : l'.cache.Holds F i := by
    rw [← hik] at hasked
    exact (hcollected.sound.holds_iff hasked).mpr hFi
  have hclean := hplanned.clean ⟨hreached, hjk⟩ hG (hholdsG hj)
  have haligned := hcollected.sound.founded.aligned
  exact (hclean i (hholdsG hGi)).2 F G hF hG ((haligned F i).mpr hholdsF)
    ((haligned G i).mpr (hholdsG hGi))

end

/-! ## All passes -/

theorem prepareFor_involves_iff (h : l.Sound store.service start)
    (heq : prepareFor store.service requests operation l = .ok requests' l') :
    store.Involves requests' operations F ↔ store.Involves requests operations F :=
  exists_congr fun _ => and_congr_right fun _ => involves_congr fun _ hi =>
    prepareFor_touches_iff h heq (contained_ne_fileset_of_edge hi.edge)

theorem prepare_involves_of_asked (h : l.Sound store.service start)
    (heq : prepare store.service operations requests l = .ok requests' l')
    (hF : F.kind = .fileset) (hi : store.Contains F i)
    (hasked : (.image, F) ∈ l'.cache.contentsAsked) :
    (.image, F) ∈ l.cache.contentsAsked ∨ store.Involves requests operations F := by
  induction operations generalizing requests l with
  | nil =>
    obtain ⟨rfl, rfl⟩ := LookupM.pure_eq_ok_iff.mp heq
    exact .inl hasked
  | cons operation operations ih =>
    rw [prepare_cons] at heq
    obtain ⟨between, m, hpass, heq⟩ := LookupM.bind_eq_ok_iff.mp heq
    rw [LinkStore.involves_cons]
    rcases ih (prepareFor_sound hpass h) heq with hm | hlater
    · obtain ⟨reached, ps, hcollected, -, -⟩ := prepareFor_eq_ok h hpass
      exact (involves_of_asked hcollected hF hi hm).imp_right .inl
    · exact .inr (.inr ((prepareFor_involves_iff h hpass).mp hlater))

/-- Behind passes that succeed, no two filesets with an image in common were looked up
before or involved by one of them. -/
theorem prepare_eq_of_shared (h : l.Sound store.service start)
    (heq : prepare store.service operations requests l = .ok requests' l')
    (hF : F.kind = .fileset) (hG : G.kind = .fileset) (hFi : store.Contains F i)
    (hGi : store.Contains G i)
    (hFknown : (.image, F) ∈ l.cache.contentsAsked ∨ store.Involves requests operations F)
    (hGinvolved : store.Involves requests operations G) : F = G := by
  induction operations generalizing requests l F G with
  | nil => simp [LinkStore.Involves] at hGinvolved
  | cons operation operations ih =>
    rw [prepare_cons] at heq
    obtain ⟨between, m, hpass, heq⟩ := LookupM.bind_eq_ok_iff.mp heq
    have hm := prepareFor_sound hpass h
    obtain ⟨reached, ps, hcollected, hplanned, -⟩ := prepareFor_eq_ok h hpass
    have hlater : ∀ {H}, store.Involves requests operations H →
        store.Involves between operations H :=
      fun hH => (prepareFor_involves_iff h hpass).mpr hH
    have hFknown : (.image, F) ∈ m.cache.contentsAsked ∨ store.Involves requests operations F := by
      rcases hFknown with hasked | hinvolved
      · exact .inl (hcollected.grows.contentsAsked hasked)
      · exact (LinkStore.involves_cons.mp hinvolved).imp_left (asked_of_involves hcollected hF)
    rcases LinkStore.involves_cons.mp hGinvolved with hGnow | hGlater
    · rcases hFknown with hFasked | hFlater
      · exact eq_of_shared hcollected hplanned hF hFasked hG hGnow hFi hGi
      · have hGasked := asked_of_involves hcollected hG hGnow
        exact (ih hm heq hG hF hGi hFi (.inl hGasked) (hlater hFlater)).symm
    · exact ih hm heq hF hG hFi hGi (hFknown.imp_right hlater) (hlater hGlater)

/-- On a store that works, a run fails exactly if two filesets that it involves have an
image in common. -/
theorem run_fails_iff (hworks : store.Works) :
    (∃ failure, (run store.service operations requests log).result = .error failure) ↔
      store.SharesImage requests operations := by
  have hfresh : Lookups.Sound store.service log ⟨.fresh, log⟩ := .fresh
  constructor
  · rintro ⟨failure, hrun⟩
    obtain ⟨l, hprepare⟩ := prepare_of_run_eq_error hrun
    obtain ⟨done, operation, rest, between, m, rfl, hdone, hfail⟩ := prepare_eq_error hprepare
    have hm := prepare_sound hdone hfresh
    rcases prepareFor_eq_error hm hfail with
      ⟨n, hn, hrefused⟩ | ⟨reached, hcollected, i, hik, hshared, rfl⟩
    · exact absurd hrefused (hworks.not_refused (hn.grows.schema.trans hm.schema))
    have hsound := hcollected.sound
    -- whatever fileset of the image is cached, the run involves it
    have hinvolves : ∀ F, F.kind = .fileset → l.cache.Inside i F → store.Contains F i ∧
        store.Involves requests (done ++ operation :: rest) F := by
      intro F hF hiF
      have hholds := (hsound.founded.aligned F i).mp hiF
      have hi := hsound.contains_of_holds hholds
      have hasked := hsound.founded.asked hholds
      rw [hik] at hasked
      refine ⟨hi, ?_⟩
      rcases involves_of_asked hcollected hF hi hasked with hbefore | hnow
      · rcases prepare_involves_of_asked hfresh hdone hF hi hbefore with hnone | hinvolved
        · simp [Cache.fresh, Cache.ofSchema] at hnone
        · obtain ⟨other, hother, hrest⟩ := hinvolved
          exact ⟨other, List.mem_append_left _ hother, hrest⟩
      · obtain ⟨j, hj, htouches⟩ := hnow
        have hjk := contained_ne_fileset_of_edge hj.edge
        exact ⟨_, by simp, j, hj, (prepare_touches_iff hfresh hdone hjk).mp htouches⟩
    simp only [Cache.Unshared, not_forall] at hshared
    obtain ⟨F, G, hF, hG, hiF, hiG, hne⟩ := hshared
    obtain ⟨hFi, hFinvolved⟩ := hinvolves F hF hiF
    obtain ⟨hGi, hGinvolved⟩ := hinvolves G hG hiG
    exact ⟨F, G, hne, hF, hG, ⟨i, hFi, hGi⟩, hFinvolved, hGinvolved⟩
  · rintro ⟨F, G, hne, hF, hG, ⟨i, hFi, hGi⟩, hFinvolved, hGinvolved⟩
    cases hresult : (run store.service operations requests log).result with
    | error failure => exact ⟨failure, rfl⟩
    | ok prepared =>
      obtain ⟨l, hprepare⟩ := prepare_of_run_eq_ok hresult
      exact absurd (prepare_eq_of_shared hfresh hprepare hF hG hFi hGi (.inr hFinvolved) hGinvolved)
        hne

/-- Moving image 1 involves fileset 1 and deleting image 3 involves fileset 2; that both hold
image 2 is found out though no request touches it. -/
theorem run_fails_on_untouched_image :
    let store := LinkStore.empty
      |>.linkAll (.fileset 1) [.image 1, .image 2]
      |>.linkAll (.fileset 2) [.image 2, .image 3]
    ∃ failure, (run store.service Operation.all
      [.chgrpTarget (.image 1) 5, .deleteTarget (.image 3)] []).result = .error failure := by
  refine (run_fails_iff fun template _ => List.not_mem_nil).mpr
    ⟨.fileset 1, .fileset 2, by decide, rfl, rfl, ⟨.image 2, by decide, by decide⟩, ?_, ?_⟩
  · exact ⟨.chgrp, by decide, .image 1, by decide, .image 1, by decide, .refl⟩
  · exact ⟨.delete, by decide, .image 3, by decide, .image 3, by decide, .refl⟩

end FilesetBatch
