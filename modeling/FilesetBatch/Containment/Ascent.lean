import FilesetBatch.Containment.Cache

/-!
# Climbing through containers

An `Ascent` goes from an entity to its containers, to the containers of these, and so on. It
keeps what it found and a queue of entities whose containers are still to be looked at. In
each turn the first of the queue is looked at, and those of its containers that were not
found before are found and go to the end of the queue (`Ascent.turn?`).

The cached pairs may branch, come together again or run in a circle. The queue can grow by a
turn, but nothing is found twice, and there is only so much to find : what may still be found
and what is in the queue make up a number that every turn lowers (`Ascent.ahead_lt_of_turn?`),
so a climb ends.
-/

namespace FilesetBatch

/-- Where a climb stands. -/
structure Ascent where
  /-- The containers that were found. -/
  found : TargetSet
  /-- The entities whose containers are still to be looked at, the next one first. -/
  pending : List Target
deriving DecidableEq

namespace Ascent

/-- The climb from an entity, with nothing found. -/
def start (target : Target) : Ascent := ⟨∅, [target]⟩

/-- Come to a container. If it was not found before, it is found and goes to the end of the
queue. -/
def reach (ascent : Ascent) (container : Target) : Ascent :=
  if container ∈ ascent.found then ascent
  else ⟨ascent.found.insert container, ascent.pending ++ [container]⟩

/-- One turn : come to all containers of the first entity of the queue, unless the queue is
empty. -/
def turn? (ascent : Ascent) (cache : Cache) : Option Ascent :=
  match ascent.pending with
  | [] => none
  | next :: rest => some ((cache.containers next).toList.foldl reach ⟨ascent.found, rest⟩)

/-! ## What is still ahead -/

/-- How much of an index was not found yet, and how much is in the queue. -/
def ahead (ascent : Ascent) (index : TargetIndex) : Nat :=
  (index.members.filter (· ∉ ascent.found)).length + ascent.pending.length

variable {ascent later : Ascent} {index : TargetIndex} {cache : Cache} {container : Target}
  {containers : List Target}

theorem ahead_reach_le (h : container ∈ index.members) :
    (ascent.reach container).ahead index ≤ ascent.ahead index := by
  unfold reach
  split
  · exact Nat.le_refl _
  · rename_i hnew
    have hrest : index.members.filter (· ∉ ascent.found.insert container) =
        (index.members.filter (· ∉ ascent.found)).filter (· ≠ container) := by
      rw [List.filter_filter]
      congr 1
      funext t
      simp
    have hfewer : (index.members.filter (· ∉ ascent.found.insert container)).length <
        (index.members.filter (· ∉ ascent.found)).length := by
      rw [hrest, List.length_filter_lt_length_iff_exists]
      exact ⟨container, by simp [h, hnew], by simp⟩
    simp only [ahead, List.length_append, List.length_singleton]
    omega

theorem ahead_foldl_reach_le (h : ∀ c ∈ containers, c ∈ index.members) :
    (containers.foldl reach ascent).ahead index ≤ ascent.ahead index := by
  induction containers generalizing ascent with
  | nil => exact Nat.le_refl _
  | cons container containers ih =>
    obtain ⟨hfirst, hrest⟩ := List.forall_mem_cons.mp h
    exact Nat.le_trans (ih hrest) (ahead_reach_le hfirst)

/-- Each turn takes one entity off the queue, and what it puts there was not found before. -/
theorem ahead_lt_of_turn? (h : ascent.turn? cache = some later) :
    later.ahead cache.holders < ascent.ahead cache.holders := by
  unfold turn? at h
  split at h
  · cases h
  · rename_i next rest hpending
    obtain rfl := Option.some.inj h
    refine Nat.lt_of_le_of_lt (ahead_foldl_reach_le fun c hc =>
      TargetIndex.mem_members_of_mem_get hc) ?_
    simp [ahead, hpending]

/-- What was found when the queue is empty, after as many turns as it takes. -/
def finish (ascent : Ascent) (cache : Cache) : TargetSet :=
  match _turn : ascent.turn? cache with
  | none => ascent.found
  | some later => later.finish cache
termination_by ascent.ahead cache.holders
decreasing_by exact ahead_lt_of_turn? _turn

end Ascent

/-- Everything that is known to contain an entity, directly or through other containers. -/
def Cache.allContainers (cache : Cache) (target : Target) : TargetSet :=
  (Ascent.start target).finish cache

end FilesetBatch
