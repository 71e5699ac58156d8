import FilesetBatch.Proofs.Answers.LogBlind
import FilesetBatch.Proofs.Store.Links

/-!
# What is collected from a store of links

The edges of the hierarchy are followed once each, and still all is found that chains of
links lead to along the hierarchy, however the store links its entities : several containers
for one entity, links between any kinds, links in a circle (`collect_finds_links`). The
filesets of the collected images are known behind it, each with all its images.

The cache may hold what earlier calls of `collect` on the same store have found
(`LinkStore.Filled`). A store does not look at the queries that were put to it before, so
such a cache is a sound one behind some log (`LinkStore.Filled.exists_sound`).
-/

namespace FilesetBatch

variable {store : LinkStore} {cache : Cache} {log : QueryLog} {l' : Lookups} {i F : Target}
  {requests : List Request} {operation : Operation} {reached : TargetSet}

/-- A computation that is blind to the log finds the same behind another log. -/
theorem LookupM.LogBlind.exists_ok {α : Type} {program : LookupM α} {a : α}
    (h : program.LogBlind) (heq : program ⟨cache, log⟩ = .ok a l') (log' : QueryLog) :
    ∃ m, program ⟨cache, log'⟩ = .ok a m ∧ m.cache = l'.cache := by
  have hblind : ∀ start, program ⟨cache, start⟩ = behind start (program ⟨cache, []⟩) := by
    intro start
    simpa [Lookups.behind] using h start ⟨cache, []⟩
  rw [hblind] at heq
  cases hfirst : program ⟨cache, []⟩ with
  | error failure m => simp [hfirst, behind] at heq
  | ok b m =>
    simp only [hfirst, behind, EStateM.Result.ok.injEq] at heq
    obtain ⟨rfl, rfl⟩ := heq
    exact ⟨m.behind log', by rw [hblind, hfirst, behind], rfl⟩

/-- Only calls of `collect` on this store have filled the cache, and they succeeded. -/
inductive LinkStore.Filled (store : LinkStore) : Cache → Prop
  | fresh : Filled store .fresh
  | collected {requests : List Request} {operation : Operation} {reached : TargetSet}
      {cache : Cache} {log : QueryLog} {l' : Lookups} (before : Filled store cache)
      (now : collect store.service requests operation ⟨cache, log⟩ = .ok reached l') :
      Filled store l'.cache

theorem LinkStore.Filled.exists_sound (h : store.Filled cache) :
    ∃ log, Lookups.Sound store.service [] ⟨cache, log⟩ := by
  induction h with
  | fresh => exact ⟨[], .fresh⟩
  | collected _ now ih =>
    obtain ⟨log, hsound⟩ := ih
    obtain ⟨m, hcollect, hcache⟩ := (collect_logBlind _ _).exists_ok now log
    exact ⟨m.log, hcache ▸ (collect_spec hsound hcollect).sound⟩

/-! ## The filesets of collected images -/

section

variable {start : QueryLog} {l : Lookups}
  (h : Collected store.service start (directTargets requests operation) l reached l')

include h

/-- Filesets hold images only, and all links from them count. -/
theorem Collected.holds_iff_of_link (hi : i ∈ reached) (hik : i.kind = .image)
    (hF : F.kind = .fileset) : l'.cache.Holds F i ↔ ⟨F, i⟩ ∈ store.links := by
  constructor
  · exact fun hFi => (h.sound.contains_of_holds hFi).1
  · intro hlink
    have hFi : store.Contains F i := ⟨hlink, edge_of_fileset hF hik⟩
    exact (h.holds_iff_of_fileset hi hF hFi).mpr hFi

theorem Collected.containersOfKind_fileset (hi : i ∈ reached) (hik : i.kind = .image) :
    l'.cache.containersOfKind i .fileset = (store.holders i).ofKind .fileset := by
  ext F
  rw [Cache.containersOfKind, TargetSet.mem_ofKind, TargetSet.mem_ofKind, LinkStore.mem_holders]
  refine and_congr_left fun hF => ?_
  exact (h.sound.founded.aligned F i).trans (h.holds_iff_of_link hi hik hF)

theorem Collected.contained_fileset (hi : i ∈ reached)
    (hF : F ∈ l'.cache.containersOfKind i .fileset) :
    l'.cache.contained F = (store.contents F).ofKind .image := by
  obtain ⟨hiF, hFk⟩ := TargetSet.mem_ofKind.mp hF
  have hFi := h.sound.contains_of_holds ((h.sound.founded.aligned F i).mp hiF)
  ext x
  rw [TargetSet.mem_ofKind, LinkStore.mem_contents]
  refine (h.holds_iff_of_fileset hi hFk hFi).trans (and_congr_right fun _ => ?_)
  exact ⟨fun hedge => contained_of_fileset_edge hedge hFk, edge_of_fileset hFk⟩

end

/-- What is collected is what chains of links along the hierarchy lead to from the targets of
the requests, and for each image in it the cache knows all filesets that are linked to it,
in ascending order, and all images of these. -/
theorem collect_finds_links (hfilled : store.Filled cache)
    (heq : collect store.service requests operation ⟨cache, log⟩ = .ok reached l') :
    (∀ t, t ∈ reached ↔ Touches store.Contains requests operation t) ∧
      ∀ i ∈ reached, i.kind = .image →
        (l'.cache.containersOfKind i .fileset).toList =
          ((store.holders i).ofKind .fileset).toList ∧
        ∀ F ∈ l'.cache.containersOfKind i .fileset,
          l'.cache.contained F = (store.contents F).ofKind .image := by
  obtain ⟨log', hsound⟩ := hfilled.exists_sound
  obtain ⟨m, hcollect, hcache⟩ := (collect_logBlind _ _).exists_ok heq log'
  have hcollected := collect_spec hsound hcollect
  rw [← hcache]
  refine ⟨fun t => hcollected.mem_reached_iff_touches hcollected.sound.shows, fun i hi hik => ?_⟩
  exact ⟨congrArg TargetSet.toList (hcollected.containersOfKind_fileset hi hik),
    fun F hF => hcollected.contained_fileset hi hF⟩

/-- Links in a circle, and an image in two filesets. -/
def tangledStore : LinkStore :=
  LinkStore.empty
    |>.link ⟨.project, 7⟩ ⟨.dataset, 1⟩
    |>.linkAll ⟨.dataset, 1⟩ [⟨.project, 7⟩, .image 1]
    |>.link (.image 1) ⟨.dataset, 1⟩
    |>.linkAll (.fileset 5) [.image 1, .image 3]
    |>.link (.fileset 6) (.image 3)
    |>.link ⟨.well, 2⟩ (.image 3)

/-- After image 3 was collected to be moved, project 7 is collected to be deleted. -/
theorem collect_finds_links_tangled :
    let moved := collect tangledStore.service [.chgrpTarget (.image 3) 4] .chgrp
    let deleted := collect tangledStore.service [.deleteTarget ⟨.project, 7⟩] .delete
    let cache := (moved.after ⟨.fresh, []⟩).cache
    let l' := deleted.after ⟨cache, []⟩
    tangledStore.Filled cache ∧
      cache.containersOfKind (.image 3) .fileset = .ofList [.fileset 5, .fileset 6] ∧
      deleted ⟨cache, []⟩ = .ok (.ofList [⟨.project, 7⟩, ⟨.dataset, 1⟩, .image 1]) l' ∧
      (l'.cache.containersOfKind (.image 1) .fileset).toList = [.fileset 5] ∧
      l'.cache.contained (.fileset 5) = .ofList [.image 1, .image 3] := by
  intro moved deleted cache l'
  have hmoved : moved ⟨.fresh, []⟩ = .ok (.ofList [.image 3]) (moved.after ⟨.fresh, []⟩) := by rfl
  have hdeleted : deleted ⟨cache, []⟩ =
      .ok (.ofList [⟨.project, 7⟩, ⟨.dataset, 1⟩, .image 1]) l' := by rfl
  have hfilled : tangledStore.Filled cache := .collected .fresh hmoved
  obtain ⟨-, hfilesets⟩ := collect_finds_links hfilled hdeleted
  obtain ⟨hfileset, hcontents⟩ := hfilesets (.image 1) (by decide) rfl
  have hone : ((tangledStore.holders (.image 1)).ofKind .fileset).toList = [.fileset 5] := by
    decide +kernel
  rw [hone] at hfileset
  refine ⟨hfilled, by decide +kernel, hdeleted, hfileset, ?_⟩
  rw [hcontents _ (TargetSet.mem_of_toList_eq_singleton hfileset)]
  decide +kernel

end FilesetBatch
