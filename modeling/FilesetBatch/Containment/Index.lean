import FilesetBatch.Target.Set

/-!
# An index from targets to sets of targets

A `TargetIndex` gives each target a set, empty for all but finitely many (`get`). It grows
one pair at a time (`add`). It lists each target at most once, and only targets whose set has
members, so those that it lists are those to which something was given (`mem_keys_iff`), and
their number (`size`) is known by the sets that it gives (`size_eq_size`, `size_eq`).
-/

namespace FilesetBatch

/-- Sets of targets by target; a target that is not listed has the empty set. -/
structure TargetIndex where
  entries : List (Target × TargetSet)
  /-- No target is listed twice. -/
  nodup_keys : (entries.map Prod.fst).Nodup
  /-- No target is listed with the empty set. -/
  inhabited : ∀ entry ∈ entries, ∃ t, t ∈ entry.2
deriving DecidableEq

namespace TargetIndex

/-- The index that gives every target the empty set. -/
def empty : TargetIndex := ⟨[], .nil, fun _ h => absurd h List.not_mem_nil⟩

/-- The set at the first entry of a key. -/
def getFrom (key : Target) : List (Target × TargetSet) → TargetSet
  | [] => ∅
  | entry :: rest => if entry.1 = key then entry.2 else getFrom key rest

/-- The set of a target. -/
def get (index : TargetIndex) (key : Target) : TargetSet :=
  getFrom key index.entries

/-- The targets that were given a set. -/
def keys (index : TargetIndex) : List Target := index.entries.map Prod.fst

/-- What is in the set of some target, as often as it is in one. -/
def members (index : TargetIndex) : List Target :=
  index.entries.flatMap fun entry => entry.2.toList

/-- The number of targets that were given a set. -/
def size (index : TargetIndex) : Nat := index.entries.length

/-! ## Adding a pair -/

/-- Add a member to the set of a key, at the key's entry or at a new last one. -/
def addTo (key member : Target) : List (Target × TargetSet) → List (Target × TargetSet)
  | [] => [(key, TargetSet.insert member ∅)]
  | entry :: rest =>
    if entry.1 = key then (key, entry.2.insert member) :: rest
    else entry :: addTo key member rest

section

variable {entries : List (Target × TargetSet)} {key member : Target}

theorem mem_map_fst_addTo {other : Target} :
    other ∈ (addTo key member entries).map Prod.fst ↔
      other = key ∨ other ∈ entries.map Prod.fst := by
  induction entries with
  | nil => simp [addTo]
  | cons entry rest ih =>
    unfold addTo
    split
    · rename_i heq
      simp [heq]
    · rw [List.map_cons, List.mem_cons, ih, List.map_cons, List.mem_cons]
      exact or_left_comm

theorem nodup_addTo (h : (entries.map Prod.fst).Nodup) :
    ((addTo key member entries).map Prod.fst).Nodup := by
  induction entries with
  | nil => simp [addTo]
  | cons entry rest ih =>
    unfold addTo
    split
    · rename_i heq
      rwa [List.map_cons, heq] at h
    · rename_i hne
      obtain ⟨hentry, hrest⟩ := List.nodup_cons.mp h
      refine List.nodup_cons.mpr ⟨fun hmem => ?_, ih hrest⟩
      exact (mem_map_fst_addTo.mp hmem).elim hne hentry

theorem inhabited_addTo (h : ∀ entry ∈ entries, ∃ t, t ∈ entry.2) :
    ∀ entry ∈ addTo key member entries, ∃ t, t ∈ entry.2 := by
  induction entries with
  | nil => simp [addTo]
  | cons entry rest ih =>
    obtain ⟨hentry, hrest⟩ := List.forall_mem_cons.mp h
    unfold addTo
    split
    · exact List.forall_mem_cons.mpr ⟨⟨member, by simp⟩, hrest⟩
    · exact List.forall_mem_cons.mpr ⟨hentry, ih hrest⟩

end

/-- The index in which the set of a key has one more member. -/
def add (index : TargetIndex) (key member : Target) : TargetIndex where
  entries := addTo key member index.entries
  nodup_keys := nodup_addTo index.nodup_keys
  inhabited := inhabited_addTo index.inhabited

@[simp] theorem get_empty (key : Target) : empty.get key = ∅ := rfl

/-- Adding a member changes the set of its key and no other. -/
theorem get_add (index : TargetIndex) (key member other : Target) :
    (index.add key member).get other =
      if other = key then (index.get key).insert member else index.get other := by
  simp only [get, add]
  induction index.entries with
  | nil => by_cases h : other = key <;> simp [addTo, getFrom, h, @eq_comm _ key]
  | cons entry rest ih =>
    unfold addTo
    split
    · rename_i heq
      subst heq
      by_cases h : other = entry.1 <;> simp [getFrom, h, eq_comm]
    · rename_i hne
      by_cases h : entry.1 = other
      · have : other ≠ key := fun e => hne (h.trans e)
        simp [getFrom, h, this]
      · rw [getFrom, if_neg h, ih, getFrom, if_neg hne, getFrom, if_neg h]

theorem mem_get_add {index : TargetIndex} {key member other t : Target} :
    t ∈ (index.add key member).get other ↔
      (other = key ∧ t = member) ∨ t ∈ index.get other := by
  rw [get_add]
  split
  · rename_i h
    subst h
    simp
  · rename_i h
    simp [h]

/-! ## The targets that are listed -/

variable {index index' : TargetIndex} {key t : Target}

/-- What has members has an entry, with its set. -/
theorem mem_of_mem_getFrom {entries : List (Target × TargetSet)} (h : t ∈ getFrom key entries) :
    (key, getFrom key entries) ∈ entries := by
  induction entries with
  | nil => simp [getFrom] at h
  | cons entry rest ih =>
    unfold getFrom at h ⊢
    split at h
    · rename_i heq
      rw [if_pos heq, ← heq]
      exact List.mem_cons_self
    · rename_i hne
      rw [if_neg hne]
      exact List.mem_cons_of_mem _ (ih h)

theorem getFrom_of_mem {entries : List (Target × TargetSet)} {set : TargetSet}
    (hnodup : (entries.map Prod.fst).Nodup) (h : (key, set) ∈ entries) :
    getFrom key entries = set := by
  induction entries with
  | nil => cases h
  | cons entry rest ih =>
    obtain ⟨hentry, hrest⟩ := List.nodup_cons.mp hnodup
    unfold getFrom
    rcases List.mem_cons.mp h with rfl | hmem
    · exact if_pos rfl
    · have hne : entry.1 ≠ key := fun heq => hentry (heq ▸ List.mem_map_of_mem hmem)
      rw [if_neg hne, ih hrest hmem]

theorem mem_members_of_mem_get (h : t ∈ index.get key) : t ∈ index.members :=
  List.mem_flatMap.mpr ⟨_, mem_of_mem_getFrom h, h⟩

/-- The targets that are listed are those whose sets have members. -/
theorem mem_keys_iff : key ∈ index.keys ↔ ∃ t, t ∈ index.get key := by
  constructor
  · intro h
    obtain ⟨⟨_, set⟩, hentry, rfl⟩ := List.mem_map.mp h
    rw [get, getFrom_of_mem index.nodup_keys hentry]
    exact index.inhabited _ hentry
  · rintro ⟨t, ht⟩
    exact List.mem_map_of_mem (mem_of_mem_getFrom ht)

/-- The size counts the targets whose sets have members. -/
theorem size_eq_size {used : TargetSet} (hused : ∀ key, key ∈ used ↔ ∃ t, t ∈ index.get key) :
    index.size = used.size := by
  have hkeys : index.keys.Perm used.toList :=
    (List.perm_ext_iff_of_nodup index.nodup_keys used.nodup_toList).mpr fun key =>
      mem_keys_iff.trans (hused key).symm
  simpa [keys, size, TargetSet.size] using hkeys.length_eq

theorem exists_used (index : TargetIndex) : ∃ used : TargetSet,
    (∀ key, key ∈ used ↔ ∃ t, t ∈ index.get key) ∧ index.size = used.size := by
  have hused : ∀ key, key ∈ TargetSet.ofList index.keys ↔ ∃ t, t ∈ index.get key :=
    fun _ => TargetSet.mem_ofList.trans mem_keys_iff
  exact ⟨_, hused, size_eq_size hused⟩

/-- Indexes that give members to the same targets have one size. -/
theorem size_eq (hsame : ∀ key, (∃ t, t ∈ index.get key) ↔ ∃ t, t ∈ index'.get key) :
    index.size = index'.size := by
  obtain ⟨used, hused, hsize⟩ := index'.exists_used
  exact (size_eq_size fun key => (hused key).trans (hsame key).symm).trans hsize.symm

end TargetIndex

end FilesetBatch
