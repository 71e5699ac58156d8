import Mathlib.Data.List.Chain
import FilesetBatch.Proofs.Containment.Above

/-!
# How a climb ends

Whatever is found goes to the queue once, and every turn takes one entity off it. So the
number of turns that were made, what was found and what is in the queue keep each other in
balance (`Ascent.size_found_of_turn?`), and when the queue is empty there was one turn for the
entity that the climb began with and one for each container that it found
(`Ascent.exists_afterTurns`).

`Cache.climb_finds_all_above` puts this together with what the climb finds. The cached pairs
may branch, come together again or run in circles; an entity is found above itself if it lies
on a circle (`Cache.onCircle_iff`), and only then.
-/

namespace FilesetBatch

theorem TargetSet.size_insert_of_not_mem {t : Target} {s : TargetSet} (h : t ∉ s) :
    (s.insert t).size = s.size + 1 :=
  length_insertInto h

/-! ## Counting turns -/

namespace Ascent

variable {cache : Cache} {ascent later : Ascent}

/-- Where a climb stands after so many turns, if it comes that far. -/
def afterTurns (cache : Cache) : Nat → Ascent → Option Ascent
  | 0, ascent => some ascent
  | n + 1, ascent => (ascent.turn? cache).bind (afterTurns cache n)

theorem size_found_reach (ascent : Ascent) (container : Target) :
    (ascent.reach container).found.size + ascent.pending.length =
      ascent.found.size + (ascent.reach container).pending.length := by
  unfold reach
  split
  · rfl
  · rename_i hnew
    rw [TargetSet.size_insert_of_not_mem hnew, List.length_append, List.length_singleton]
    omega

theorem size_found_foldl_reach (ascent : Ascent) (containers : List Target) :
    (containers.foldl reach ascent).found.size + ascent.pending.length =
      ascent.found.size + (containers.foldl reach ascent).pending.length := by
  induction containers generalizing ascent with
  | nil => rfl
  | cons container containers ih =>
    have hfirst := size_found_reach ascent container
    have hrest := ih (ascent.reach container)
    rw [List.foldl_cons]
    omega

/-- A turn takes one entity off the queue and puts there what it finds. -/
theorem size_found_of_turn? (h : ascent.turn? cache = some later) :
    later.found.size + ascent.pending.length =
      ascent.found.size + later.pending.length + 1 := by
  obtain ⟨next, rest, hpending, rfl⟩ := exists_of_turn? h
  have hreach := size_found_foldl_reach ⟨ascent.found, rest⟩ (cache.containers next).toList
  simp only [hpending, List.length_cons] at hreach ⊢
  omega

/-- After a turn for each entity in the queue and for each container that is still to be
found, the queue is empty. -/
theorem exists_afterTurns (cache : Cache) (ascent : Ascent) :
    ∃ turns, ascent.afterTurns cache turns = some ⟨ascent.finish cache, []⟩ ∧
      turns + ascent.found.size = (ascent.finish cache).size + ascent.pending.length := by
  fun_induction finish ascent cache with
  | case1 ascent hnone =>
    have hover := pending_of_turn?_eq_none hnone
    exact ⟨0, by rw [afterTurns, ← hover], by simp [hover]⟩
  | case2 ascent later hturn ih =>
    obtain ⟨turns, hafter, hcount⟩ := ih
    have hstep := size_found_of_turn? hturn
    exact ⟨turns + 1, by rw [afterTurns, hturn, Option.bind_some, hafter], by omega⟩

end Ascent

/-! ## Circles -/

namespace Cache

variable {cache : Cache} {t x y : Target}

/-- A way along containers leads from the entity back to itself. -/
def OnCircle (cache : Cache) (t : Target) : Prop :=
  ∃ way : List Target, (t :: way ++ [t]).IsChain cache.Inside

theorem transGen_of_isChain {way : List Target} (h : (x :: way ++ [y]).IsChain cache.Inside) :
    Relation.TransGen cache.Inside x y := by
  induction way generalizing x with
  | nil => exact .single (List.isChain_pair.mp h)
  | cons z way ih =>
    obtain ⟨hfirst, hrest⟩ := List.isChain_cons_cons.mp h
    exact .head hfirst (ih hrest)

theorem onCircle_iff : cache.OnCircle t ↔ Relation.TransGen cache.Inside t t := by
  refine ⟨fun ⟨_, hway⟩ => transGen_of_isChain hway, fun hpath => ?_⟩
  obtain ⟨x, hx, hlast⟩ := Relation.TransGen.tail'_iff.mp hpath
  obtain ⟨way, hway, hend⟩ := List.exists_isChain_cons_of_relationReflTransGen hx
  refine ⟨way, List.IsChain.append hway (List.isChain_singleton t) ?_⟩
  simpa [List.getLast?_eq_getLast_of_ne_nil, hend] using hlast

/-- Whatever pairs are cached, a climb ends. There is one turn for the entity that it begins
with and one for each container that it finds, and then nothing is in the queue. It finds what
lies one or more steps above the entity, and the entity itself if it is on a circle. -/
theorem climb_finds_all_above (cache : Cache) (t : Target) :
    (Ascent.start t).afterTurns cache ((cache.allContainers t).size + 1) =
        some ⟨cache.allContainers t, []⟩ ∧
      (∀ c, c ∈ cache.allContainers t ↔ Relation.TransGen cache.Inside t c) ∧
      (t ∈ cache.allContainers t ↔ cache.OnCircle t) := by
  obtain ⟨turns, hafter, hcount⟩ := Ascent.exists_afterTurns cache (.start t)
  obtain rfl : turns = (cache.allContainers t).size + 1 := hcount
  exact ⟨hafter, fun c => mem_allContainers, mem_allContainers.trans onCircle_iff.symm⟩

/-- An image in a fileset that is said to be in the image, and in a dataset : the climb goes
round the circle once. -/
example :
    let cache := Cache.fresh.record (.fileset 5) (.image 1) |>.record (.image 1) (.fileset 5)
      |>.record ⟨.dataset, 2⟩ (.image 1)
    cache.allContainers (.fileset 5) = .ofList [.image 1, .fileset 5, ⟨.dataset, 2⟩] := by
  decide +kernel

end Cache

end FilesetBatch
