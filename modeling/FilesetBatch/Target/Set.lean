import FilesetBatch.Ascending
import FilesetBatch.Target.Basic

/-!
# Sets of targets

A `TargetSet` is a strictly ascending list of targets, so a set has one representation:
two sets with the same members are equal (`TargetSet.ext`), and `toList` is the list of
the members in the order of the targets. Each operation says what it does to membership:
`mem_insert`, `mem_ofList`, `mem_union`, `mem_filter`.
-/

namespace FilesetBatch

/-- A finite set of targets, held as the ascending list of its members. -/
structure TargetSet where
  toList : List Target
  ascending : toList.Pairwise (· < ·)
deriving DecidableEq

namespace TargetSet

instance : Membership Target TargetSet := ⟨fun set target => target ∈ set.toList⟩

theorem mem_def {t : Target} {s : TargetSet} : t ∈ s ↔ t ∈ s.toList := Iff.rfl

@[simp] theorem mem_toList {t : Target} {s : TargetSet} : t ∈ s.toList ↔ t ∈ s := Iff.rfl

instance (t : Target) (s : TargetSet) : Decidable (t ∈ s) :=
  inferInstanceAs (Decidable (t ∈ s.toList))

/-! ## The empty set -/

/-- The set without members. -/
def empty : TargetSet := ⟨[], .nil⟩

instance : EmptyCollection TargetSet := ⟨empty⟩

instance : Inhabited TargetSet := ⟨empty⟩

@[simp] theorem toList_empty : (∅ : TargetSet).toList = [] := rfl

@[simp] theorem not_mem_empty (t : Target) : t ∉ (∅ : TargetSet) := by
  simp [mem_def]

/-! ## Insertion -/

/-- The set with one more member. -/
def insert (t : Target) (s : TargetSet) : TargetSet :=
  ⟨insertInto t s.toList, pairwise_insertInto s.ascending⟩

@[simp] theorem mem_insert {t u : Target} {s : TargetSet} :
    u ∈ s.insert t ↔ u = t ∨ u ∈ s :=
  mem_insertInto

/-! ## Union and selection -/

/-- The set with all these targets added. -/
def insertAll (s : TargetSet) (ts : List Target) : TargetSet :=
  ts.foldl (fun set t => set.insert t) s

@[simp] theorem mem_insertAll {u : Target} {s : TargetSet} {ts : List Target} :
    u ∈ s.insertAll ts ↔ u ∈ ts ∨ u ∈ s := by
  unfold insertAll
  induction ts generalizing s with
  | nil => simp
  | cons t ts ih =>
    rw [List.foldl_cons, ih, mem_insert, List.mem_cons, or_assoc]
    exact or_left_comm

/-- The set of the targets in a list. -/
def ofList (ts : List Target) : TargetSet :=
  insertAll ∅ ts

@[simp] theorem mem_ofList {t : Target} {ts : List Target} : t ∈ ofList ts ↔ t ∈ ts := by
  simp [ofList]

/-- The members of either set. -/
def union (s t : TargetSet) : TargetSet :=
  s.insertAll t.toList

@[simp] theorem mem_union {u : Target} {s t : TargetSet} : u ∈ s.union t ↔ u ∈ s ∨ u ∈ t := by
  rw [union, mem_insertAll, mem_toList]
  exact or_comm

/-- The members that pass a test. -/
def filter (p : Target → Bool) (s : TargetSet) : TargetSet :=
  ⟨s.toList.filter p, s.ascending.filter p⟩

@[simp] theorem mem_filter {u : Target} {p : Target → Bool} {s : TargetSet} :
    u ∈ s.filter p ↔ u ∈ s ∧ p u = true := by
  rw [mem_def, mem_def]
  exact List.mem_filter

/-- The members of one kind. -/
def ofKind (s : TargetSet) (kind : Kind) : TargetSet :=
  s.filter fun t => t.kind = kind

@[simp] theorem mem_ofKind {u : Target} {s : TargetSet} {kind : Kind} :
    u ∈ s.ofKind kind ↔ u ∈ s ∧ u.kind = kind := by
  simp [ofKind]

/-! ## Size -/

/-- The number of members. -/
def size (s : TargetSet) : Nat := s.toList.length

/-- Whether the set has no member. -/
def isEmpty (s : TargetSet) : Bool := s.toList.isEmpty

/-- Whether every member of the first set is one of the second. -/
def isSubset (s t : TargetSet) : Bool :=
  s.toList.all fun u => u ∈ t

theorem isSubset_iff {s t : TargetSet} : s.isSubset t = true ↔ ∀ u ∈ s, u ∈ t := by
  simp [isSubset]

theorem toList_eq_nil_iff {s : TargetSet} : s.toList = [] ↔ ∀ t, t ∉ s :=
  List.eq_nil_iff_forall_not_mem

theorem mem_of_toList_eq_singleton {t : Target} {s : TargetSet} (h : s.toList = [t]) : t ∈ s := by
  rw [mem_def, h]
  exact List.mem_cons_self

/-- A set has at most one member when any two members are the same. -/
theorem size_le_one_iff {s : TargetSet} : s.size ≤ 1 ↔ ∀ t ∈ s, ∀ u ∈ s, t = u := by
  obtain ⟨ts, hts⟩ := s
  simp only [size, mem_def]
  match ts with
  | [] => simp
  | [t] => simp
  | t :: u :: ts =>
    refine ⟨fun h => absurd h (by simp), fun h => ?_⟩
    have htu : t < u := (List.pairwise_cons.mp hts).1 u List.mem_cons_self
    rw [h t (by simp) u (by simp)] at htu
    exact absurd htu (Target.lt_irrefl u)

theorem two_le_size_iff {s : TargetSet} : 2 ≤ s.size ↔ ∃ t ∈ s, ∃ u ∈ s, t ≠ u := by
  have hone : 2 ≤ s.size ↔ ¬ s.size ≤ 1 := by omega
  rw [hone, size_le_one_iff]
  simp

/-! ## One representation -/

theorem nodup_toList (s : TargetSet) : s.toList.Nodup :=
  nodup_of_ascending s.ascending

/-- Sets with the same members are equal. -/
@[ext] theorem ext {s t : TargetSet} (h : ∀ u, u ∈ s ↔ u ∈ t) : s = t := by
  cases s
  cases t
  congr 1
  exact eq_of_ascending (by assumption) (by assumption) h

end TargetSet

end FilesetBatch
