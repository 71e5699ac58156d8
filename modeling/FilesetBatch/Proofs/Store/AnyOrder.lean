import FilesetBatch.Proofs.Answers.AnyOrder
import FilesetBatch.Proofs.Store.Links

/-!
# Runs on a store, in any order

A store reads its answers down and up off the same links, so it is coherent
(`LinkStore.coherent`), whatever its links are and whichever of its templates fail. What a
run on it makes of a batch is therefore the same for the same operations in any order and
with any repetition, and the same when each operation is run on its own, with an empty cache
(`run_any_order`).
-/

namespace FilesetBatch

variable {store : LinkStore} {F i : Target}

/-- Where the contents of an entity are answered, the answer is what the store contains. -/
theorem LinkStore.gives_iff_of_down (hedge : ⟨F.kind, i.kind⟩ ∈ hierarchy)
    (h : Answers.Responds store.answer F i.kind) :
    Answers.Gives store.answer F i ↔ store.Contains F i := by
  obtain ⟨template, ids, htemplate, hanswer⟩ := h
  constructor
  · rintro ⟨template', ids', htemplate', hanswer', hid⟩
    exact (mem_ids_iff_of_down htemplate' hedge hanswer').mp hid
  · exact fun hi => ⟨template, ids, htemplate, hanswer,
      (mem_ids_iff_of_down htemplate hedge hanswer).mpr hi⟩

/-- Where the containers of an entity are answered, the answer is what contains it. -/
theorem LinkStore.gives_iff_of_up (hedge : ⟨F.kind, i.kind⟩ ∈ hierarchy)
    (h : Answers.Responds store.answer i F.kind) :
    Answers.Gives store.answer i F ↔ store.Contains F i := by
  obtain ⟨template, ids, htemplate, hanswer⟩ := h
  constructor
  · rintro ⟨template', ids', htemplate', hanswer', hid⟩
    exact (mem_ids_iff_of_up htemplate' hedge hanswer').mp hid
  · exact fun hi => ⟨template, ids, htemplate, hanswer,
      (mem_ids_iff_of_up htemplate hedge hanswer).mpr hi⟩

theorem LinkStore.coherent (store : LinkStore) : Answers.Coherent store.answer := by
  intro F i hF hi hdown hup
  have hedge : ⟨F.kind, i.kind⟩ ∈ hierarchy := edge_of_fileset hF hi
  rw [← hi] at hdown
  rw [← hF] at hup
  exact (gives_iff_of_down hedge hdown).trans (gives_iff_of_up hedge hup).symm

/-- If a run on a store succeeds, so do runs for one of its operations at a time, each with an
empty cache, and they end with the same batch. Runs for the same operations, in any order and
with any repetition, succeed or fail together, and leave the same batch. -/
theorem run_any_order (store : LinkStore) (operations : List Operation)
    (requests : List Request) (log log' : QueryLog) :
    (∀ prepared, (run store.service operations requests log).result = .ok prepared →
      runEach store.service operations requests log' = .ok prepared.requests) ∧
    ∀ operations', (∀ k, k ∈ operations ↔ k ∈ operations') →
      ((∃ prepared, (run store.service operations requests log).result = .ok prepared) ↔
        ∃ prepared', (run store.service operations' requests log').result = .ok prepared') ∧
      ∀ prepared prepared', (run store.service operations requests log).result = .ok prepared →
        (run store.service operations' requests log').result = .ok prepared' →
          prepared.requests = prepared'.requests := by
  have hcoherent := store.coherent
  refine ⟨fun prepared hrun => ?_, fun operations' hsame => ⟨?_, ?_⟩⟩
  · obtain ⟨l, hprepare⟩ := prepare_of_run_eq_ok hrun
    have hagreed := (exists_run_iff hcoherent).mp ⟨prepared, hrun⟩
    rw [prepare_eq_foldl hcoherent .fresh hprepare]
    exact runEach_eq hcoherent hagreed log'
  · have hiff : Agreed store.answer requests operations ↔
        Agreed store.answer requests operations' :=
      ⟨fun h => h.mono fun k => (hsame k).mpr, fun h => h.mono fun k => (hsame k).mp⟩
    exact (exists_run_iff hcoherent).trans (hiff.trans (exists_run_iff hcoherent).symm)
  · intro prepared prepared' hrun hrun'
    obtain ⟨l, hprepare⟩ := prepare_of_run_eq_ok hrun
    obtain ⟨l', hprepare'⟩ := prepare_of_run_eq_ok hrun'
    exact prepare_eq_of_same_operations hcoherent hsame hprepare hprepare'

/-- To move and to delete in the demonstration: both filesets with several images are treated
as a whole, whichever operation comes first. -/
theorem run_any_order_demonstration :
    let service := LinkStore.empty.loadDemonstration.service
    let requests := [.chgrpTarget (.image 201) 5, .deleteTarget ⟨.dataset, 11⟩,
      .chgrpTarget (.image 202) 7, .deleteTarget (.image 103)]
    let prepared : Prepared := ⟨[.chgrpTarget (.fileset 1002) 5, .deleteTarget (.fileset 1001),
      .deleteTarget ⟨.dataset, 11⟩], 5, 3⟩
    (run service [.delete, .chgrp] requests []).result = .ok prepared ∧
      runEach service [.delete, .chgrp] requests [] = .ok prepared.requests ∧
      ∃ prepared', (run service [.chgrp, .delete, .chgrp] requests []).result = .ok prepared' ∧
        prepared.requests = prepared'.requests := by
  intro service requests prepared
  have hrun : (run service [.delete, .chgrp] requests []).result = .ok prepared := by
    decide +kernel
  obtain ⟨heach, hany⟩ := run_any_order LinkStore.empty.loadDemonstration [.delete, .chgrp]
    requests [] []
  obtain ⟨hsucceeds, hbatch⟩ := hany [.chgrp, .delete, .chgrp] fun k => by cases k <;> simp
  obtain ⟨prepared', hrun'⟩ := hsucceeds.mp ⟨prepared, hrun⟩
  exact ⟨hrun, heach prepared hrun, prepared', hrun', hbatch prepared prepared' hrun hrun'⟩

end FilesetBatch
