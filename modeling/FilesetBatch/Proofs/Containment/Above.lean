import Mathlib.Logic.Relation
import FilesetBatch.Containment.Ascent

/-!
# What is above an entity

The cached pairs make a relation, `Cache.Inside`, from an entity to what contains it. All
along a climb from an entity, what was found lies above it, and whatever has left the queue
has all its containers found (`Ascent.Explores`). When the queue is empty nothing is left out,
so `Cache.mem_allContainers` : what is found above an entity is what is reached from it by one
or more steps from an entity to a container, whatever the relation looks like.

In an aligned cache the two indexes hold the same pairs, and the same relation is read
downwards as `Cache.Holds`.

Where all steps lie along the hierarchy, a chain from an image or from a fileset is short :
nothing lies under an image (`eq_of_path_from_image`), and under a fileset lie only its
images (`eq_or_above_of_path_from_fileset`).
-/

namespace FilesetBatch

namespace Cache

variable {cache : Cache} {c x : Target}

/-! ## The cached relation -/

/-- The second entity is known to contain the first directly. -/
def Inside (cache : Cache) (x c : Target) : Prop :=
  c ∈ cache.containers x

/-- The first entity is known to contain the second directly. -/
def Holds (cache : Cache) (c x : Target) : Prop :=
  x ∈ cache.contained c

/-- Both indexes hold the same pairs. -/
def Aligned (cache : Cache) : Prop :=
  ∀ c x, cache.Inside x c ↔ cache.Holds c x

theorem aligned_ofSchema (schema : Schema) : (ofSchema schema).Aligned :=
  fun _ _ => by simp [Inside, Holds, ofSchema, containers, contained]

theorem Aligned.inside_eq_swap (h : cache.Aligned) :
    cache.Inside = Function.swap cache.Holds := by
  funext x c
  exact propext (h c x)

theorem Aligned.transGen_inside_iff (h : cache.Aligned) :
    Relation.TransGen cache.Inside x c ↔ Relation.TransGen cache.Holds c x := by
  rw [h.inside_eq_swap]
  exact Relation.transGen_swap

end Cache

/-! ## The climb -/

namespace Ascent

variable {cache : Cache} {ascent later : Ascent} {containers : List Target} {c t : Target}

theorem mem_found_foldl_reach :
    c ∈ (containers.foldl reach ascent).found ↔ c ∈ containers ∨ c ∈ ascent.found := by
  induction containers generalizing ascent with
  | nil => simp
  | cons container containers ih =>
    have hreach : c ∈ (ascent.reach container).found ↔ c = container ∨ c ∈ ascent.found := by
      unfold reach
      split
      · rename_i hfound
        exact ⟨.inr, fun h => h.elim (fun heq => heq ▸ hfound) id⟩
      · exact TargetSet.mem_insert
    rw [List.foldl_cons, ih, hreach, List.mem_cons, ← or_assoc, or_comm (a := c = container)]

theorem mem_pending_foldl_reach :
    c ∈ (containers.foldl reach ascent).pending ↔
      c ∈ ascent.pending ∨ (c ∈ containers ∧ c ∉ ascent.found) := by
  induction containers generalizing ascent with
  | nil => simp
  | cons container containers ih =>
    rw [List.foldl_cons, ih]
    unfold reach
    split
    · rename_i hfound
      by_cases heq : c = container
      · simp [heq, hfound]
      · simp [heq]
    · by_cases heq : c = container
      · simp_all
      · simp [heq]

theorem exists_of_turn? (h : ascent.turn? cache = some later) :
    ∃ next rest, ascent.pending = next :: rest ∧
      later = (cache.containers next).toList.foldl reach ⟨ascent.found, rest⟩ := by
  unfold turn? at h
  split at h
  · cases h
  · rename_i next rest hpending
    exact ⟨next, rest, hpending, (Option.some.inj h).symm⟩

theorem pending_of_turn?_eq_none (h : ascent.turn? cache = none) : ascent.pending = [] := by
  unfold turn? at h
  split at h
  · assumption
  · cases h

/-- What holds all along a climb from an entity. -/
structure Explores (cache : Cache) (t : Target) (ascent : Ascent) : Prop where
  /-- What was found lies above the entity. -/
  above : ∀ c ∈ ascent.found, Relation.TransGen cache.Inside t c
  /-- Only the entity and what was found are in the queue. -/
  pending : ∀ x ∈ ascent.pending, x = t ∨ x ∈ ascent.found
  /-- Once they have left it, all their containers are found. -/
  looked : ∀ x, x = t ∨ x ∈ ascent.found →
    x ∈ ascent.pending ∨ ∀ c, cache.Inside x c → c ∈ ascent.found

namespace Explores

theorem start (cache : Cache) (t : Target) : (Ascent.start t).Explores cache t where
  above c hc := absurd hc (TargetSet.not_mem_empty c)
  pending _ hx := .inl (List.mem_singleton.mp hx)
  looked x hx := .inl (List.mem_singleton.mpr (hx.resolve_right (TargetSet.not_mem_empty x)))

theorem turn (h : ascent.Explores cache t) (hturn : ascent.turn? cache = some later) :
    later.Explores cache t := by
  obtain ⟨next, rest, hpending, rfl⟩ := exists_of_turn? hturn
  have hnext : next = t ∨ next ∈ ascent.found := h.pending next (by simp [hpending])
  refine ⟨fun c hc => ?_, fun x hx => ?_, fun x hx => ?_⟩
  · rcases mem_found_foldl_reach.mp hc with hc | hc
    · rcases hnext with rfl | hnext
      · exact .single hc
      · exact .tail (h.above next hnext) hc
    · exact h.above c hc
  · rw [mem_found_foldl_reach]
    rcases mem_pending_foldl_reach.mp hx with hx | ⟨hx, -⟩
    · exact (h.pending x (hpending ▸ List.mem_cons_of_mem next hx)).imp_right .inr
    · exact .inr (.inl hx)
  · simp only [mem_found_foldl_reach, mem_pending_foldl_reach] at hx ⊢
    by_cases hold : x = t ∨ x ∈ ascent.found
    · rcases h.looked x hold with hx | hx
      · -- the entity that was looked at has left the queue, all others are still in it
        rcases List.mem_cons.mp (hpending ▸ hx) with rfl | hx
        · exact .inr fun c hc => .inl hc
        · exact .inl (.inl hx)
      · exact .inr fun c hc => .inr (hx c hc)
    · rw [not_or] at hold
      exact .inl (.inr ⟨(hx.resolve_left hold.1).resolve_right hold.2, hold.2⟩)

/-- With an empty queue all that lies above the entity is found. -/
theorem mem_found_iff (h : ascent.Explores cache t) (hover : ascent.pending = []) :
    c ∈ ascent.found ↔ Relation.TransGen cache.Inside t c := by
  have hclosed : ∀ x, x = t ∨ x ∈ ascent.found → ∀ c, cache.Inside x c → c ∈ ascent.found :=
    fun x hx => (h.looked x hx).resolve_left (by simp [hover])
  refine ⟨h.above c, fun hpath => ?_⟩
  induction hpath with
  | single hc => exact hclosed t (.inl rfl) _ hc
  | tail _ hc ih => exact hclosed _ (.inr ih) _ hc

theorem mem_finish_iff (h : ascent.Explores cache t) :
    c ∈ ascent.finish cache ↔ Relation.TransGen cache.Inside t c := by
  fun_induction finish ascent cache with
  | case1 ascent hnone => exact h.mem_found_iff (pending_of_turn?_eq_none hnone)
  | case2 ascent later hturn ih => exact ih (h.turn hturn)

end Explores

end Ascent

namespace Cache

variable {cache : Cache} {c x : Target}

/-- What is found above an entity is what a chain of containers leads to. -/
theorem mem_allContainers : c ∈ cache.allContainers x ↔ Relation.TransGen cache.Inside x c :=
  (Ascent.Explores.start cache x).mem_finish_iff

/-- Read downwards : what is found above an entity is what holds it through a chain. -/
theorem mem_allContainers_iff_holds (h : cache.Aligned) :
    c ∈ cache.allContainers x ↔ Relation.TransGen cache.Holds c x :=
  mem_allContainers.trans h.transGen_inside_iff

end Cache

/-! ## Chains along the hierarchy -/

section

variable {Above : Target → Target → Prop} {F i c t : Target}

theorem kind_ne_image_of_edge {edge : Edge} (h : edge ∈ hierarchy) : edge.container ≠ .image := by
  revert edge
  decide

theorem contained_of_fileset_edge {edge : Edge} (h : edge ∈ hierarchy)
    (hF : edge.container = .fileset) : edge.contained = .image := by
  revert edge
  decide

theorem edge_of_fileset {container contained : Kind} (hF : container = .fileset)
    (hi : contained = .image) : ⟨container, contained⟩ ∈ hierarchy := by
  rw [hF, hi]
  decide

theorem contained_ne_fileset_of_edge {edge : Edge} (h : edge ∈ hierarchy) :
    edge.contained ≠ .fileset := by
  revert edge
  decide

/-- Nothing lies under an image. -/
theorem eq_of_path_from_image (h : ∀ {c x}, Above c x → ⟨c.kind, x.kind⟩ ∈ hierarchy)
    (hi : i.kind = .image) (hpath : Relation.ReflTransGen Above i t) : t = i := by
  rcases hpath.cases_head with rfl | ⟨x, hx, -⟩
  · rfl
  · exact absurd hi (kind_ne_image_of_edge (h hx))

/-- What lies under a fileset lies directly under it. -/
theorem eq_or_above_of_path_from_fileset
    (h : ∀ {c x}, Above c x → ⟨c.kind, x.kind⟩ ∈ hierarchy) (hF : F.kind = .fileset)
    (hpath : Relation.ReflTransGen Above F t) : t = F ∨ Above F t := by
  rcases hpath.cases_head with rfl | ⟨x, hx, hrest⟩
  · exact .inl rfl
  · have hxk : x.kind = .image := contained_of_fileset_edge (h hx) hF
    exact .inr (eq_of_path_from_image h hxk hrest ▸ hx)

end

end FilesetBatch
