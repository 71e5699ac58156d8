import FilesetBatch.Batch.Plan
import FilesetBatch.Proofs.Containment.Above

/-!
# Which filesets get a plan

`plans` goes through the reached images, skips those that are settled, and makes a plan for
the one fileset of each other image. In an aligned cache the skipping loses nothing : a
member of a fileset that was looked at is in no other fileset, so its filesets were looked at
with it. `plans_spec` says so for a call that succeeds. There is a plan for each fileset of a
reached image that is reached as a whole, no two plans are for one fileset, and every fileset
of a reached image holds images that lie in no other fileset (`Cache.Clean`).

`plans_eq_error` says what a call fails with : an image with all its filesets, two of them at
least, or a member of a fileset that is no image.
-/

namespace FilesetBatch

variable {cache : Cache} {reached settled members : TargetSet} {images : List Target}
  {ps qs : List Plan} {failure : Failure} {i m t F : Target}

/-! ## One fileset -/

namespace Cache

/-- At most one fileset is known to contain this entity. -/
def Unshared (cache : Cache) (x : Target) : Prop :=
  ∀ F G, F.kind = .fileset → G.kind = .fileset → cache.Inside x F → cache.Inside x G → F = G

/-- A fileset is known to contain images only, and each of them is in no second fileset. -/
def Clean (cache : Cache) (fileset : Target) : Prop :=
  ∀ m, cache.Holds fileset m → m.kind = .image ∧ cache.Unshared m

theorem unshared_iff_size_le_one :
    cache.Unshared m ↔ (cache.containersOfKind m .fileset).size ≤ 1 := by
  simp only [TargetSet.size_le_one_iff, containersOfKind, TargetSet.mem_ofKind, and_imp]
  exact ⟨fun h F hF hFk G hG hGk => h F G hFk hGk hF hG,
    fun h F G hFk hGk hF hG => h F hF hFk G hG hGk⟩

end Cache

theorem checkMembers_eq_ok_iff {ms : List Target} :
    checkMembers cache F ms = .ok () ↔ ∀ m ∈ ms, m.kind = .image ∧ cache.Unshared m := by
  induction ms with
  | nil => simp [checkMembers]
  | cons m ms ih =>
    rw [checkMembers, List.forall_mem_cons, Cache.unshared_iff_size_le_one]
    split
    · rename_i hk
      simp [hk]
    · rename_i hk
      dsimp only
      split
      · rename_i hsize
        simp [Nat.not_le.mpr hsize]
      · rename_i hsize
        rw [ih]
        simp [Decidable.not_not.mp hk, Nat.not_lt.mp hsize]

theorem checkMembers_eq_error {ms : List Target} (h : checkMembers cache F ms = .error failure) :
    ∃ m ∈ ms, (m.kind ≠ .image ∧ failure = .nonImageInFileset F m) ∨
      m.kind = .image ∧ ¬ cache.Unshared m ∧
        failure = .multipleFilesets m (cache.containersOfKind m .fileset).toList := by
  induction ms with
  | nil => cases h
  | cons m ms ih =>
    rw [checkMembers] at h
    split at h
    · rename_i hk
      cases h
      exact ⟨m, List.mem_cons_self, .inl ⟨hk, rfl⟩⟩
    · rename_i hk
      dsimp only at h
      split at h
      · rename_i hsize
        cases h
        rw [← Nat.not_le, ← Cache.unshared_iff_size_le_one] at hsize
        exact ⟨m, List.mem_cons_self, .inr ⟨Decidable.not_not.mp hk, hsize, rfl⟩⟩
      · obtain ⟨m', hm', hend⟩ := ih h
        exact ⟨m', List.mem_cons_of_mem m hm', hend⟩

theorem isWhole_iff :
    isWhole reached members = true ↔ 2 ≤ members.size ∧ ∀ m ∈ members, m ∈ reached := by
  simp [isWhole, TargetSet.isSubset_iff]

/-! ## The targets of a plan -/

namespace Plan

@[simp] theorem fileset_ofMembers : (ofMembers cache F members).fileset = F := rfl

@[simp] theorem mem_suffixes_ofMembers :
    t ∈ (ofMembers cache F members).suffixes ↔ t = F ∨ t ∈ members :=
  TargetSet.mem_insert

theorem mem_prefixes_ofMembers (h : cache.Aligned) :
    t ∈ (ofMembers cache F members).prefixes ↔
      ∃ m ∈ members, Relation.ReflTransGen cache.Holds t m := by
  have hfold : ∀ (ms : List Target) (set : TargetSet),
      t ∈ ms.foldl (fun set image => set.union (cache.allContainers image)) set ↔
        t ∈ set ∨ ∃ m ∈ ms, Relation.TransGen cache.Holds t m := by
    intro ms
    induction ms with
    | nil => simp
    | cons m ms ih =>
      intro set
      rw [List.foldl_cons, ih, TargetSet.mem_union, Cache.mem_allContainers_iff_holds h]
      simp [or_assoc]
  have hmem : t ∈ members ↔ ∃ m ∈ members, m = t := by simp
  rw [ofMembers, hfold, hmem]
  simp only [TargetSet.mem_toList, ← exists_or, ← and_or_left,
    Relation.reflTransGen_iff_eq_or_transGen]

/-- A request that is dropped is one that marks the place. -/
theorem mem_prefixes_of_mem_suffixes (h : cache.Aligned)
    (hF : ∃ m, cache.Holds F m)
    (ht : t ∈ (ofMembers cache F (cache.contained F)).suffixes) :
    t ∈ (ofMembers cache F (cache.contained F)).prefixes := by
  rw [mem_prefixes_ofMembers h]
  rcases mem_suffixes_ofMembers.mp ht with rfl | ht
  · obtain ⟨m, hm⟩ := hF
    exact ⟨m, hm, .single hm⟩
  · exact ⟨t, ht, .refl⟩

end Plan

/-! ## One image after another -/

/-- A call that succeeds passes an image over, or looks at its only fileset. -/
theorem plansFor_eq_ok_cases (h : plansFor cache reached settled (i :: images) = .ok ps) :
    ((i ∈ settled ∨ ∀ F, F.kind = .fileset → ¬ cache.Inside i F) ∧
        plansFor cache reached settled images = .ok ps) ∨
      ∃ F qs, i ∉ settled ∧ (cache.containersOfKind i .fileset).toList = [F] ∧
        cache.Clean F ∧
        plansFor cache reached (settled.union (cache.contained F)) images = .ok qs ∧
        ps = if isWhole reached (cache.contained F) then
          .ofMembers cache F (cache.contained F) :: qs else qs := by
  rw [plansFor] at h
  split at h
  · rename_i hi
    exact .inl ⟨.inl hi, h⟩
  rename_i hi
  split at h
  · rename_i hnone
    refine .inl ⟨.inr fun F hF hiF => ?_, h⟩
    exact TargetSet.toList_eq_nil_iff.mp hnone F (TargetSet.mem_ofKind.mpr ⟨hiF, hF⟩)
  · rename_i F hone
    cases hcheck : checkMembers cache F (cache.contained F).toList with
    | error failure => simp [hcheck, bind, Except.bind] at h
    | ok u =>
      cases hrest : plansFor cache reached (settled.union (cache.contained F)) images with
      | error failure => simp [hcheck, hrest, bind, Except.bind] at h
      | ok qs =>
        refine .inr ⟨F, qs, hi, hone, checkMembers_eq_ok_iff.mp hcheck, hrest, ?_⟩
        simp only [hcheck, hrest, bind, Except.bind] at h
        split at h <;> cases h <;> simp [*]
  · cases h

/-- The plans that are made when these images are looked at. -/
structure Planned (cache : Cache) (reached : TargetSet) (considered : Target → Prop)
    (ps : List Plan) : Prop where
  unshared : ∀ {i}, considered i → cache.Unshared i
  clean : ∀ {i F}, considered i → F.kind = .fileset → cache.Holds F i → cache.Clean F
  mem_iff : ∀ {p}, p ∈ ps ↔ ∃ F, F.kind = .fileset ∧ (∃ i, considered i ∧ cache.Holds F i) ∧
    isWhole reached (cache.contained F) = true ∧ p = .ofMembers cache F (cache.contained F)
  distinct : ps.Pairwise fun p q => p.fileset ≠ q.fileset

namespace Planned

variable {considered rest : Target → Prop}

/-- An image without a fileset may be looked at as well. -/
theorem of_unheld (h : Planned cache reached rest ps) (hsub : ∀ {i}, rest i → considered i)
    (hnew : ∀ {i}, considered i → rest i ∨ ∀ F, F.kind = .fileset → ¬ cache.Inside i F)
    (hcache : cache.Aligned) : Planned cache reached considered ps where
  unshared {i} hi := by
    rcases hnew hi with hi | hnone
    · exact h.unshared hi
    · exact fun F _ hF _ hiF _ => absurd hiF (hnone F hF)
  clean {i F} hi hF hiF := by
    rcases hnew hi with hi | hnone
    · exact h.clean hi hF hiF
    · exact absurd ((hcache F i).mpr hiF) (hnone F hF)
  mem_iff {p} := by
    rw [h.mem_iff]
    refine exists_congr fun F => and_congr_right fun hF => and_congr_left fun _ => ?_
    constructor
    · rintro ⟨i, hi, hiF⟩
      exact ⟨i, hsub hi, hiF⟩
    · rintro ⟨i, hi, hiF⟩
      rcases hnew hi with hi | hnone
      · exact ⟨i, hi, hiF⟩
      · exact absurd ((hcache F i).mpr hiF) (hnone F hF)
  distinct := h.distinct

/-- A clean fileset is looked at; the images that it holds are settled with it. -/
theorem step (h : Planned cache reached rest qs) (hcache : cache.Aligned)
    (hF : F.kind = .fileset) (hclean : cache.Clean F) (hi : considered i)
    (hiF : cache.Holds F i) (hrest : ∀ {j}, rest j ↔ considered j ∧ ¬ cache.Holds F j) :
    Planned cache reached considered
      (if isWhole reached (cache.contained F) then
        .ofMembers cache F (cache.contained F) :: qs else qs) := by
  have honly : ∀ {j G}, cache.Holds F j → G.kind = .fileset → cache.Holds G j → G = F :=
    fun {j G} hjF hG hjG =>
      (hclean j hjF).2 G F hG hF ((hcache G j).mpr hjG) ((hcache F j).mpr hjF)
  have hother : ∀ {q}, q ∈ qs → q.fileset ≠ F := by
    intro q hq
    obtain ⟨G, -, ⟨j, hj, hjG⟩, -, rfl⟩ := h.mem_iff.mp hq
    rintro rfl
    exact (hrest.mp hj).2 hjG
  refine ⟨fun {j} hj => ?_, fun {j G} hj hG hjG => ?_, fun {p} => ?_, ?_⟩
  · by_cases hjF : cache.Holds F j
    · exact (hclean j hjF).2
    · exact h.unshared (hrest.mpr ⟨hj, hjF⟩)
  · by_cases hjF : cache.Holds F j
    · exact honly hjF hG hjG ▸ hclean
    · exact h.clean (hrest.mpr ⟨hj, hjF⟩) hG hjG
  · -- a fileset with an image left to look at is another one
    have hsplit : (∃ G, G.kind = .fileset ∧ (∃ j, considered j ∧ cache.Holds G j) ∧
        isWhole reached (cache.contained G) = true ∧ p = .ofMembers cache G (cache.contained G)) ↔
        (isWhole reached (cache.contained F) = true ∧
          p = .ofMembers cache F (cache.contained F)) ∨ p ∈ qs := by
      rw [h.mem_iff]
      constructor
      · rintro ⟨G, hG, ⟨j, hj, hjG⟩, hend⟩
        by_cases hjF : cache.Holds F j
        · exact .inl (honly hjF hG hjG ▸ hend)
        · exact .inr ⟨G, hG, ⟨j, hrest.mpr ⟨hj, hjF⟩, hjG⟩, hend⟩
      · rintro (hend | ⟨G, hG, ⟨j, hj, hjG⟩, hend⟩)
        · exact ⟨F, hF, ⟨i, hi, hiF⟩, hend⟩
        · exact ⟨G, hG, ⟨j, (hrest.mp hj).1, hjG⟩, hend⟩
    rw [hsplit]
    split <;> simp [*]
  · split
    · exact List.pairwise_cons.mpr ⟨fun q hq => (hother hq).symm, h.distinct⟩
    · exact h.distinct

end Planned

theorem planned_of_plansFor (hcache : cache.Aligned)
    (h : plansFor cache reached settled images = .ok ps) :
    Planned cache reached (fun i => i ∈ images ∧ i ∉ settled) ps := by
  induction images generalizing settled ps with
  | nil =>
    cases h
    exact ⟨by simp, by simp, by simp, .nil⟩
  | cons i images ih =>
    rcases plansFor_eq_ok_cases h with ⟨hpass, hrest⟩ | ⟨F, qs, hi, hone, hclean, hrest, rfl⟩
    · refine (ih hrest).of_unheld (fun hj => ⟨List.mem_cons_of_mem i hj.1, hj.2⟩) ?_ hcache
      rintro j ⟨hj, hjs⟩
      rcases List.mem_cons.mp hj with rfl | hj
      · exact .inr (hpass.resolve_left hjs)
      · exact .inl ⟨hj, hjs⟩
    · obtain ⟨hiF, hF⟩ := TargetSet.mem_ofKind.mp (TargetSet.mem_of_toList_eq_singleton hone)
      have hiF : cache.Holds F i := (hcache F i).mp hiF
      refine (ih hrest).step hcache hF hclean ⟨List.mem_cons_self, hi⟩ hiF fun {j} => ?_
      rw [TargetSet.mem_union, not_or, List.mem_cons]
      constructor
      · rintro ⟨hj, hjs, hjF⟩
        exact ⟨⟨.inr hj, hjs⟩, hjF⟩
      · rintro ⟨⟨rfl | hj, hjs⟩, hjF⟩
        · exact absurd hiF hjF
        · exact ⟨hj, hjs, hjF⟩

/-- A call that succeeds has looked at every reached image. -/
theorem plans_spec (hcache : cache.Aligned) (h : plans cache reached = .ok ps) :
    Planned cache reached (fun i => i ∈ reached ∧ i.kind = .image) ps := by
  refine (planned_of_plansFor hcache h).of_unheld (fun hi => ?_) (fun hi => .inl ?_) hcache
  · exact TargetSet.mem_ofKind.mp hi.1
  · exact ⟨TargetSet.mem_ofKind.mpr hi, TargetSet.not_mem_empty _⟩

/-! ## When a call succeeds -/

theorem exists_plansFor (h : ∀ i ∈ images, cache.Unshared i ∧
    ∀ F, F.kind = .fileset → cache.Inside i F → cache.Clean F) :
    ∃ ps, plansFor cache reached settled images = .ok ps := by
  induction images generalizing settled with
  | nil => exact ⟨[], rfl⟩
  | cons i images ih =>
    have hrest : ∀ settled, ∃ ps, plansFor cache reached settled images = .ok ps :=
      fun _ => ih fun j hj => h j (List.mem_cons_of_mem i hj)
    obtain ⟨hunshared, hclean⟩ := h i List.mem_cons_self
    rw [plansFor]
    split
    · exact hrest settled
    split
    · exact hrest settled
    · rename_i F hone
      obtain ⟨hiF, hF⟩ := TargetSet.mem_ofKind.mp (TargetSet.mem_of_toList_eq_singleton hone)
      obtain ⟨qs, hqs⟩ := hrest (settled.union (cache.contained F))
      have hcheck : checkMembers cache F (cache.contained F).toList = .ok () :=
        checkMembers_eq_ok_iff.mpr (hclean F hF hiF)
      simp only [hcheck, hqs, bind, Except.bind]
      split <;> exact ⟨_, rfl⟩
    · rename_i hnil hone
      rw [Cache.unshared_iff_size_le_one, TargetSet.size] at hunshared
      rcases Nat.le_one_iff_eq_zero_or_eq_one.mp hunshared with hsize | hsize
      · exact absurd (List.length_eq_zero_iff.mp hsize) hnil
      · obtain ⟨F, hF⟩ := List.length_eq_one_iff.mp hsize
        exact absurd hF (hone F)

/-- A call succeeds if no reached image is shared and its fileset is clean, and only then. -/
theorem exists_plans_iff (hcache : cache.Aligned) : (∃ ps, plans cache reached = .ok ps) ↔
    ∀ i ∈ reached, i.kind = .image → cache.Unshared i ∧
      ∀ F, F.kind = .fileset → cache.Holds F i → cache.Clean F := by
  constructor
  · rintro ⟨ps, hps⟩ i hi hik
    have hplanned := plans_spec hcache hps
    exact ⟨hplanned.unshared ⟨hi, hik⟩, fun F hF hiF => hplanned.clean ⟨hi, hik⟩ hF hiF⟩
  · refine fun h => exists_plansFor fun i hi => ?_
    obtain ⟨hi, hik⟩ := TargetSet.mem_ofKind.mp hi
    obtain ⟨hunshared, hclean⟩ := h i hi hik
    exact ⟨hunshared, fun F hF hiF => hclean F hF ((hcache F i).mp hiF)⟩

/-! ## Failures -/

theorem plansFor_eq_error (himages : ∀ i ∈ images, i.kind = .image)
    (h : plansFor cache reached settled images = .error failure) :
    (∃ i, i.kind = .image ∧ ¬ cache.Unshared i ∧
        failure = .multipleFilesets i (cache.containersOfKind i .fileset).toList) ∨
      ∃ F m, F.kind = .fileset ∧ cache.Holds F m ∧ m.kind ≠ .image ∧
        failure = .nonImageInFileset F m := by
  induction images generalizing settled with
  | nil => cases h
  | cons i images ih =>
    have himages' := fun j hj => himages j (List.mem_cons_of_mem i hj)
    rw [plansFor] at h
    split at h
    · exact ih himages' h
    split at h
    · exact ih himages' h
    · rename_i F hone
      have hF := (TargetSet.mem_ofKind.mp (TargetSet.mem_of_toList_eq_singleton hone)).2
      cases hcheck : checkMembers cache F (cache.contained F).toList with
      | error failure' =>
        simp only [hcheck, bind, Except.bind, Except.error.injEq] at h
        subst h
        obtain ⟨m, hm, hend⟩ := checkMembers_eq_error hcheck
        rcases hend with ⟨hk, rfl⟩ | ⟨hk, hshared, rfl⟩
        · exact .inr ⟨F, m, hF, hm, hk, rfl⟩
        · exact .inl ⟨m, hk, hshared, rfl⟩
      | ok u =>
        cases hrest : plansFor cache reached (settled.union (cache.contained F)) images with
        | error failure' =>
          simp only [hcheck, hrest, bind, Except.bind, Except.error.injEq] at h
          subst h
          exact ih himages' hrest
        | ok qs =>
          simp only [hcheck, hrest, bind, Except.bind] at h
          split at h <;> cases h
    · rename_i hnil hone
      cases h
      refine .inl ⟨i, himages i List.mem_cons_self, fun hunshared => ?_, rfl⟩
      rw [Cache.unshared_iff_size_le_one, TargetSet.size] at hunshared
      rcases Nat.le_one_iff_eq_zero_or_eq_one.mp hunshared with hsize | hsize
      · exact hnil (List.length_eq_zero_iff.mp hsize)
      · obtain ⟨F, hF⟩ := List.length_eq_one_iff.mp hsize
        exact hone F hF

theorem plans_eq_error (h : plans cache reached = .error failure) :
    (∃ i, i.kind = .image ∧ ¬ cache.Unshared i ∧
        failure = .multipleFilesets i (cache.containersOfKind i .fileset).toList) ∨
      ∃ F m, F.kind = .fileset ∧ cache.Holds F m ∧ m.kind ≠ .image ∧
        failure = .nonImageInFileset F m :=
  plansFor_eq_error (fun _ hi => (TargetSet.mem_ofKind.mp hi).2) h

end FilesetBatch
