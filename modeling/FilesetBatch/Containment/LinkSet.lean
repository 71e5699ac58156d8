import FilesetBatch.Target.Set

/-!
# Sets of links

A link says that one entity directly contains another. Links are ordered by their containers
and, where these are the same, by what they contain; a `LinkSet` is the ascending list of its
links. So what one entity contains stands together in the list, in ascending order, and what
contains one entity is scattered over it but comes in ascending order as well: both are read
off the list as they stand there (`LinkSet.contents`, `LinkSet.holders`).
-/

namespace FilesetBatch

/-- The container directly contains the other entity. -/
structure Link where
  container : Target
  contained : Target
deriving DecidableEq, Repr

namespace Link

/-! ## Order -/

/-- Links of smaller containers come first, and of one container those to smaller entities. -/
def Before (a b : Link) : Prop :=
  a.container < b.container ∨ a.container = b.container ∧ a.contained < b.contained

instance : LT Link := ⟨Before⟩

variable {a b c : Link}

theorem lt_iff : a < b ↔
    a.container < b.container ∨ a.container = b.container ∧ a.contained < b.contained :=
  Iff.rfl

instance (a b : Link) : Decidable (a < b) :=
  decidable_of_iff _ lt_iff.symm

theorem lt_trans (hab : a < b) (hbc : b < c) : a < c := by
  rw [lt_iff] at *
  rcases hab with hab | ⟨hab, hab'⟩ <;> rcases hbc with hbc | ⟨hbc, hbc'⟩
  · exact .inl (Target.lt_trans hab hbc)
  · exact .inl (hbc ▸ hab)
  · exact .inl (hab ▸ hbc)
  · exact .inr ⟨hab.trans hbc, Target.lt_trans hab' hbc'⟩

theorem lt_trichotomy (a b : Link) : a < b ∨ a = b ∨ b < a := by
  rcases Target.lt_trichotomy a.container b.container with hlt | heq | hgt
  · exact .inl (.inl hlt)
  · rcases Target.lt_trichotomy a.contained b.contained with hlt' | heq' | hgt'
    · exact .inl (.inr ⟨heq, hlt'⟩)
    · exact .inr (.inl (by cases a; cases b; simp_all))
    · exact .inr (.inr (.inr ⟨heq.symm, hgt'⟩))
  · exact .inr (.inr (.inl hgt))

instance : Trans (α := Link) (· < ·) (· < ·) (· < ·) := ⟨lt_trans⟩

instance : Std.Trichotomous (α := Link) (· < ·) :=
  ⟨fun a b hab hba => ((lt_trichotomy a b).resolve_left hab).resolve_right hba⟩

theorem contained_lt_of_lt (h : a < b) (hcontainer : a.container = b.container) :
    a.contained < b.contained :=
  (h.resolve_left fun hlt => Target.lt_irrefl _ (hcontainer ▸ hlt)).2

theorem container_lt_of_lt (h : a < b) (hcontained : a.contained = b.contained) :
    a.container < b.container :=
  h.resolve_right fun hlt => Target.lt_irrefl _ (hcontained ▸ hlt.2)

end Link

/-- A finite set of links, held as the ascending list of its members. -/
structure LinkSet where
  toList : List Link
  ascending : toList.Pairwise (· < ·)
deriving DecidableEq

namespace LinkSet

variable {links : LinkSet} {link link' : Link} {container contained : Target}

instance : Membership Link LinkSet := ⟨fun links link => link ∈ links.toList⟩

theorem mem_def : link ∈ links ↔ link ∈ links.toList := Iff.rfl

instance (link : Link) (links : LinkSet) : Decidable (link ∈ links) :=
  inferInstanceAs (Decidable (link ∈ links.toList))

/-- The set without links. -/
def empty : LinkSet := ⟨[], .nil⟩

instance : EmptyCollection LinkSet := ⟨empty⟩

@[simp] theorem not_mem_empty (link : Link) : link ∉ (∅ : LinkSet) :=
  List.not_mem_nil

/-- The set with one more link. -/
def insert (link : Link) (links : LinkSet) : LinkSet :=
  ⟨insertInto link links.toList, pairwise_insertInto links.ascending⟩

@[simp] theorem mem_insert : link' ∈ links.insert link ↔ link' = link ∨ link' ∈ links :=
  mem_insertInto

/-- The number of links. -/
def size (links : LinkSet) : Nat := links.toList.length

/-! ## Both ends -/

section

variable {near far : Link → Target} {t u : Target}
  (hascends : ∀ {a b : Link}, a < b → near a = near b → far a < far b)

/-- What stands at the far end of the links that have an entity at the near one, in the order
of the links. -/
def ends (links : LinkSet) (t : Target) : TargetSet where
  toList := (links.toList.filter fun link => near link = t).map far
  ascending := by
    refine List.pairwise_map.mpr ((links.ascending.filter _).imp_of_mem fun {a b} ha hb hab => ?_)
    simp only [List.mem_filter, decide_eq_true_eq] at ha hb
    exact hascends hab (ha.2.trans hb.2.symm)

theorem mem_ends : u ∈ links.ends hascends t ↔ ∃ link ∈ links, near link = t ∧ far link = u := by
  simp [ends, TargetSet.mem_def, mem_def, and_assoc]

end

/-- What an entity directly contains. -/
def contents (links : LinkSet) (container : Target) : TargetSet :=
  links.ends Link.contained_lt_of_lt container

/-- What directly contains an entity. -/
def holders (links : LinkSet) (contained : Target) : TargetSet :=
  links.ends Link.container_lt_of_lt contained

@[simp] theorem mem_contents : contained ∈ links.contents container ↔
    ⟨container, contained⟩ ∈ links := by
  rw [contents, mem_ends]
  constructor
  · rintro ⟨link, hmem, rfl, rfl⟩
    exact hmem
  · exact fun h => ⟨_, h, rfl, rfl⟩

@[simp] theorem mem_holders : container ∈ links.holders contained ↔
    ⟨container, contained⟩ ∈ links := by
  rw [holders, mem_ends]
  constructor
  · rintro ⟨link, hmem, rfl, rfl⟩
    exact hmem
  · exact fun h => ⟨_, h, rfl, rfl⟩

end LinkSet

end FilesetBatch
