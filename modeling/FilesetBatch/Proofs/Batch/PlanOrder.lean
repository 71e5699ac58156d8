import Mathlib.Data.List.Pairwise
import FilesetBatch.Proofs.Batch.Plans

/-!
# In which order plans come

Plans come in the order of the smallest images of their filesets (`pairwise_of_plans`). The
images are looked at in ascending order, and a fileset that is reached as a whole is looked at
with its smallest image : before that, none of its images is settled (`Intact`).

So the order of the plans is settled by which filesets are planned and by their images, and
two lists of plans for the same filesets come in the same order (`filesets_eq`).
-/

namespace FilesetBatch

variable {cache : Cache} {reached settled : TargetSet} {images : List Target}
  {Above : Target → Target → Prop} {ps qs : List Plan} {i F : Target}

/-- An image of the first fileset comes before all images of the second. -/
def StartsBefore (Above : Target → Target → Prop) (F G : Target) : Prop :=
  ∃ i, Above F i ∧ ∀ m, Above G m → i < m

theorem StartsBefore.asymm {F G : Target} (h : StartsBefore Above F G) :
    ¬ StartsBefore Above G F := by
  obtain ⟨i, hi, hbefore⟩ := h
  rintro ⟨j, hj, hbehind⟩
  exact Target.lt_irrefl i (Target.lt_trans (hbefore j hj) (hbehind i hi))

/-- A fileset that is reached as a whole and has an image ahead that is not settled has all
its images ahead, none of them settled. -/
def Intact (cache : Cache) (reached settled : TargetSet) (images : List Target) : Prop :=
  ∀ F, F.kind = .fileset → isWhole reached (cache.contained F) = true →
    (∃ j ∈ images, j ∉ settled ∧ cache.Holds F j) →
    ∀ m, cache.Holds F m → m ∈ images ∧ m ∉ settled

theorem Intact.pass (h : Intact cache reached settled (i :: images)) (hcache : cache.Aligned)
    (hi : i ∈ settled ∨ ∀ F, F.kind = .fileset → ¬ cache.Inside i F) :
    Intact cache reached settled images := by
  rintro F hF hwhole ⟨j, hj, hjs, hjF⟩ m hm
  obtain ⟨hmem, hms⟩ := h F hF hwhole ⟨j, List.mem_cons_of_mem i hj, hjs, hjF⟩ m hm
  refine ⟨(List.mem_cons.mp hmem).resolve_left ?_, hms⟩
  rintro rfl
  exact hi.elim hms fun hnone => hnone F hF ((hcache F m).mpr hm)

/-- Behind the images of a clean fileset. -/
theorem Intact.step (h : Intact cache reached settled (i :: images)) (hcache : cache.Aligned)
    (hF : F.kind = .fileset) (hclean : cache.Clean F) (hiF : cache.Holds F i) :
    Intact cache reached (settled.union (cache.contained F)) images := by
  rintro G hG hwhole ⟨j, hj, hjs, hjG⟩ m hm
  rw [TargetSet.mem_union, not_or] at hjs
  have hapart : ¬ cache.Holds F m := fun hmF => hjs.2 <| by
    have hone := (hclean m hmF).2 F G hF hG ((hcache F m).mpr hmF) ((hcache G m).mpr hm)
    exact hone ▸ hjG
  obtain ⟨hmem, hms⟩ := h G hG hwhole ⟨j, List.mem_cons_of_mem i hj, hjs.1, hjG⟩ m hm
  refine ⟨(List.mem_cons.mp hmem).resolve_left ?_, ?_⟩
  · rintro rfl
    exact hapart hiF
  · rw [TargetSet.mem_union, not_or]
    exact ⟨hms, hapart⟩

theorem pairwise_of_plansFor (hcache : cache.Aligned) (hascending : images.Pairwise (· < ·))
    (hintact : Intact cache reached settled images)
    (h : plansFor cache reached settled images = .ok ps) :
    ps.Pairwise fun p q => StartsBefore cache.Holds p.fileset q.fileset := by
  induction images generalizing settled ps with
  | nil =>
    cases h
    exact .nil
  | cons i images ih =>
    obtain ⟨hfirst, hrest⟩ := List.pairwise_cons.mp hascending
    rcases plansFor_eq_ok_cases h with ⟨hpass, hplans⟩ | ⟨F, qs, -, hone, hclean, hplans, rfl⟩
    · exact ih hrest (hintact.pass hcache hpass) hplans
    · obtain ⟨hiF, hF⟩ := TargetSet.mem_ofKind.mp (TargetSet.mem_of_toList_eq_singleton hone)
      have hiF : cache.Holds F i := (hcache F i).mp hiF
      have hahead := hintact.step hcache hF hclean hiF
      split
      · refine List.pairwise_cons.mpr ⟨fun q hq => ?_, ih hrest hahead hplans⟩
        obtain ⟨G, hG, ⟨j, hj, hjG⟩, hwhole, rfl⟩ :=
          (planned_of_plansFor hcache hplans).mem_iff.mp hq
        refine ⟨i, hiF, fun m hm => hfirst m (hahead G hG hwhole ⟨j, hj.1, hj.2, hjG⟩ m hm).1⟩
      · exact ih hrest hahead hplans

/-- Plans come in the order of the smallest images of their filesets. -/
theorem pairwise_of_plans (hcache : cache.Aligned) (h : plans cache reached = .ok ps) :
    ps.Pairwise fun p q => StartsBefore cache.Holds p.fileset q.fileset := by
  refine pairwise_of_plansFor hcache (reached.ofKind .image).ascending ?_ h
  rintro F hF hwhole ⟨j, hj, -, hjF⟩ m hm
  have hclean := (plans_spec hcache h).clean (TargetSet.mem_ofKind.mp hj) hF hjF
  refine ⟨TargetSet.mem_ofKind.mpr ⟨?_, (hclean m hm).1⟩, TargetSet.not_mem_empty m⟩
  exact (isWhole_iff.mp hwhole).2 m hm

/-- Plans for the same filesets come in the same order, if they were ordered by the same
images. -/
theorem filesets_eq (hps : ps.Pairwise fun p q => StartsBefore Above p.fileset q.fileset)
    (hqs : qs.Pairwise fun p q => StartsBefore Above p.fileset q.fileset)
    (hsame : ∀ F, (∃ p ∈ ps, F = p.fileset) ↔ ∃ q ∈ qs, F = q.fileset) :
    ps.map Plan.fileset = qs.map Plan.fileset := by
  have hordered : ∀ {rs : List Plan},
      (rs.Pairwise fun p q => StartsBefore Above p.fileset q.fileset) →
        (rs.map Plan.fileset).Pairwise (StartsBefore Above) ∧ (rs.map Plan.fileset).Nodup := by
    intro rs hrs
    have hpairwise : (rs.map Plan.fileset).Pairwise (StartsBefore Above) :=
      List.pairwise_map.mpr hrs
    refine ⟨hpairwise, hpairwise.imp ?_⟩
    rintro F G hFG rfl
    exact hFG.asymm hFG
  obtain ⟨hpsOrdered, hpsNodup⟩ := hordered hps
  obtain ⟨hqsOrdered, hqsNodup⟩ := hordered hqs
  have hperm : (ps.map Plan.fileset).Perm (qs.map Plan.fileset) := by
    refine (List.perm_ext_iff_of_nodup hpsNodup hqsNodup).mpr fun F => ?_
    simpa [eq_comm] using hsame F
  exact hperm.eq_of_pairwise (fun F G _ _ hFG hGF => absurd hGF hFG.asymm) hpsOrdered hqsOrdered

end FilesetBatch
