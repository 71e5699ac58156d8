import FilesetBatch.Proofs.Containment.Ledger
import FilesetBatch.Proofs.Request.Codec
import FilesetBatch.Proofs.Store.Links

/-!
# Numbers of 64 bits stay numbers of 64 bits

If the identifiers in a store and in a batch fit into 64 bits, so do those in the prepared
batch : a pass changes no number of a request but that of its entity, which becomes that of a
fileset with linked images (`isSigned_of_run`). The counts of a run are at most the number of
links (`counts_le_of_run`).
-/

namespace FilesetBatch

variable {store : LinkStore} {start log : QueryLog} {requests batch : List Request}
  {operation : Operation} {operations : List Operation} {prepared : Prepared}
  {request moved : Request} {l l' : Lookups} {c t x : Target}

/-- The numbers of the store fit into 64 bits : its identifiers with a sign, the number of its
links without one. -/
structure LinkStore.InRange (store : LinkStore) : Prop where
  ids : ∀ link ∈ store.links, Word.IsSigned link.container.id ∧ Word.IsSigned link.contained.id
  count : store.linkCount ≤ Word.maxUnsigned

/-! ## Identifiers -/

theorem Request.isSigned_of_retarget? (h : request.IsSigned) (ht : Word.IsSigned t.id)
    (hmoved : request.retarget? t = some moved) : moved.IsSigned := by
  cases request with
  | delete typeName id options =>
    obtain rfl := Option.some.inj hmoved
    exact ht
  | chgrp typeName id groupId options =>
    obtain rfl := Option.some.inj hmoved
    exact ⟨ht, h.2⟩
  | other name => cases hmoved

theorem isSigned_of_prepareFor (hstore : store.InRange) (hl : l.Sound store.service start)
    (heq : prepareFor store.service requests operation l = .ok batch l')
    (h : ∀ request ∈ requests, request.IsSigned) : ∀ request ∈ batch, request.IsSigned := by
  obtain ⟨reached, ps, hcollected, hplanned, rfl⟩ := prepareFor_eq_ok hl heq
  intro moved hmem
  rcases mem_onePassFrom hmem with ⟨request, i, hrequest, hput⟩ | ⟨hkept, -⟩
  · obtain ⟨p, hp, -, hmoved⟩ := mem_putBefore.mp hput
    obtain ⟨image, -, -, ⟨hlink, -⟩, -⟩ :=
      (complete_of_mem_plans hcollected hplanned hp).1.several
    exact Request.isSigned_of_retarget? (h request (List.fst_mem_of_mem_zipIdx hrequest))
      (hstore.ids _ hlink).1 hmoved
  · exact h moved hkept

/-- The prepared batch has no other identifiers than the batch and the store. -/
theorem isSigned_of_run (hstore : store.InRange) (h : ∀ request ∈ requests, request.IsSigned)
    (hrun : (run store.service operations requests log).result = .ok prepared) :
    ∀ request ∈ prepared.requests, request.IsSigned := by
  obtain ⟨l, hprepare⟩ := prepare_of_run_eq_ok hrun
  exact prepare_related (R := fun before behind => (∀ request ∈ before, request.IsSigned) →
      ∀ request ∈ behind, request.IsSigned) (fun _ => id) (fun h h' => h' ∘ h)
    (fun _ _ {_ _ _ _} hl hpass => isSigned_of_prepareFor hstore hl hpass) .fresh hprepare h

/-! ## Counts -/

theorem TargetIndex.size_le {index : TargetIndex} {ends : List Target}
    (hends : ∀ key t, t ∈ index.get key → key ∈ ends) : index.size ≤ ends.length := by
  have hsub : index.keys ⊆ ends := fun key hkey => by
    obtain ⟨t, ht⟩ := mem_keys_iff.mp hkey
    exact hends key t ht
  simpa [keys, size] using (List.subperm_of_subset index.nodup_keys hsub).length_le

/-- Each entity that is counted stands at an end of a link. -/
theorem counts_le_of_run
    (hrun : (run store.service operations requests log).result = .ok prepared) :
    prepared.imageCount ≤ store.linkCount ∧ prepared.containerCount ≤ store.linkCount := by
  obtain ⟨l, hprepare⟩ := prepare_of_run_eq_ok hrun
  have hsound : l.Sound store.service log := prepare_sound hprepare .fresh
  have hlink : ∀ c x, l.cache.Holds c x → ⟨c, x⟩ ∈ store.links := fun c x hx =>
    (hsound.contains_of_holds hx).1
  rw [run_of_prepare_eq_ok hprepare] at hrun
  rw [← Except.ok.inj hrun]
  constructor
  · have hends : ∀ x c, c ∈ l.cache.holders.get x → x ∈ store.links.toList.map (·.contained) :=
      fun x c hc => List.mem_map.mpr ⟨_, hlink c x ((hsound.founded.aligned c x).mp hc), rfl⟩
    simpa [LinkStore.linkCount, LinkSet.size, Cache.containedCount]
      using TargetIndex.size_le hends
  · have hends : ∀ c x, x ∈ l.cache.contents.get c → c ∈ store.links.toList.map (·.container) :=
      fun c x hx => List.mem_map.mpr ⟨_, hlink c x hx, rfl⟩
    simpa [LinkStore.linkCount, LinkSet.size, Cache.containerCount]
      using TargetIndex.size_le hends

end FilesetBatch
