import Mathlib.Data.List.Perm.Basic
import FilesetBatch.Proofs.Containment.Knowledge

/-!
# What the marks tell of the log and the counts

Each query is put for one look-up, which is marked and not made again. So the queries in the
log are those of the marked look-ups, each once, in some order (`Lookups.Ledger`), and two
states with the same marks have put the same queries up to order (`Lookups.Ledger.perm`).
The counts of a cache are read off the relation that it holds (`Cache.counts_eq`).
-/

namespace FilesetBatch

/-! ## The counts of a cache -/

/-- Caches that hold the same pairs have the same counts. -/
theorem Cache.counts_eq {cache cache' : Cache} (haligned : cache.Aligned)
    (haligned' : cache'.Aligned) (hsame : ∀ c x, cache.Holds c x ↔ cache'.Holds c x) :
    cache.containedCount = cache'.containedCount ∧
      cache.containerCount = cache'.containerCount := by
  constructor
  · refine TargetIndex.size_eq fun x => exists_congr fun c => ?_
    exact (haligned c x).trans ((hsame c x).trans (haligned' c x).symm)
  · exact TargetIndex.size_eq fun c => exists_congr fun x => hsame c x

/-! ## One query for each mark -/

/-- The query for a look-up of one kind. -/
def Schema.query? (schema : Schema) (asked : Kind × Target) : Option Query :=
  (schema.template? asked.2.kind asked.1).map fun template => ⟨template.name, asked.2.id⟩

/-- The look-ups that were made, those of contents before those of containers. -/
def Cache.asked (cache : Cache) : List (Kind × Target) :=
  cache.contentsAsked.toList ++ cache.holdersAsked.toList

/-- The queries behind `start` are those of the marked look-ups. -/
def Lookups.Ledger (start : QueryLog) (l : Lookups) : Prop :=
  l.log.Perm (start ++ l.cache.asked.filterMap l.cache.schema.query?)

namespace Lookups.Ledger

variable {service : QueryService} {along : Edge → Prop} {start start' : QueryLog}
  {query : Query} {answer : Answer} {queries queries' : List Query} {l l' : Lookups}

theorem ofSchema (schema : Schema) : Lookups.Ledger start ⟨.ofSchema schema, start⟩ := by
  simp [Lookups.Ledger, Cache.ofSchema, Cache.asked]

theorem puts (h : l.Ledger start) (hstep : Puts service along l query answer l') :
    l'.Ledger start := by
  -- the new query stands last in the log and may be moved anywhere among the others
  have hlast : ∀ {front back : List Query}, l.log.Perm (start ++ (front ++ back)) → ∀ query,
      (l.log ++ [query]).Perm (start ++ (front ++ query :: back)) := by
    intro front back hperm query
    refine (List.perm_append_singleton query l.log).trans ((hperm.cons query).trans ?_)
    rw [← List.append_assoc, ← List.append_assoc]
    exact List.perm_middle.symm
  have hlog := h
  rw [Lookups.Ledger, Cache.asked, List.filterMap_append] at hlog
  cases hstep with
  | @contents kind container template answer edge new declared answered =>
    have hquery : l.cache.schema.query? (kind, container) =
        some ⟨template.name, container.id⟩ := by simp [Schema.query?, declared]
    simpa [Lookups.Ledger, Cache.asked, Marks.toList_insert new, List.filterMap_append, hquery]
      using @hlast [] (_ ++ _) hlog ⟨template.name, container.id⟩
  | @holders kind contained template answer edge new declared answered =>
    have hquery : l.cache.schema.query? (kind, contained) =
        some ⟨template.name, contained.id⟩ := by simp [Schema.query?, declared]
    simpa [Lookups.Ledger, Cache.asked, Marks.toList_insert new, List.filterMap_append, hquery]
      using hlast hlog ⟨template.name, contained.id⟩

theorem progress (h : l.Ledger start) (hl : Progress service along l l') : l'.Ledger start := by
  induction hl with
  | refl => exact h
  | tail _ hstep ih =>
    obtain ⟨query, ids, hstep⟩ := hstep
    exact ih.puts hstep

/-- What was issued behind `start` are the queries of the marked look-ups. -/
theorem issued (h : l.Ledger start) (hlog : l.log = start ++ queries) :
    queries.Perm (l.cache.asked.filterMap l.cache.schema.query?) := by
  rw [Lookups.Ledger, hlog] at h
  exact (List.perm_append_left_iff start).mp h

/-- States with the same marks have put the same queries, in some order. -/
theorem perm (h : l.Ledger start) (h' : l'.Ledger start')
    (hschema : l.cache.schema = l'.cache.schema)
    (hcontents : ∀ asked, asked ∈ l.cache.contentsAsked ↔ asked ∈ l'.cache.contentsAsked)
    (hholders : ∀ asked, asked ∈ l.cache.holdersAsked ↔ asked ∈ l'.cache.holdersAsked)
    (hlog : l.log = start ++ queries) (hlog' : l'.log = start' ++ queries') :
    queries.Perm queries' := by
  have hmarks : l.cache.asked.Perm l'.cache.asked :=
    (Marks.perm_of_mem_iff hcontents).append (Marks.perm_of_mem_iff hholders)
  refine (h.issued hlog).trans (.trans ?_ (h'.issued hlog').symm)
  rw [hschema]
  exact hmarks.filterMap _

end Lookups.Ledger

end FilesetBatch
