import Mathlib.Data.List.Induction
import FilesetBatch.Proofs.Store.Links

/-!
# Stores behind a history of calls

A store is filled, made to fail and asked by calls one after the other (`StoreCall`). Behind
any row of them it has the links that the calls made (`mem_links_storeAfter`), and those
templates fail that a call made fail (`mem_failing_storeAfter`); queries leave nothing but
their entries in the log.

The numbers that a template is answered with come in ascending order without repetition,
though the links are listed by their containers, whichever way the template leads
(`LinkStore.ascending_of_replies`). So the two templates of an edge are answered with the two
ends of the links that the calls made along this edge (`LinkedAlong`), and nothing else that
the calls did shows in the answers (`storeAfter_replies`).
-/

namespace FilesetBatch

variable {store : LinkStore} {template down up : Template} {id : Int} {ids : List Int}
  {edge : Edge} {c x : Target} {name : String}

/-! ## Single queries -/

namespace LinkStore

/-- The store with one more query in its log. -/
def asked (store : LinkStore) (template : Template) (id : Int) : LinkStore :=
  { store with issued := store.issued ++ [⟨template.name, id⟩] }

/-- The query is answered with these numbers, and leaves its entry in the log. -/
def Replies (store : LinkStore) (template : Template) (id : Int) (ids : List Int) : Prop :=
  projection template id store = .ok ids (store.asked template id)

theorem replies_iff : store.Replies template id ids ↔ store.answer template id = .ok ids := by
  unfold Replies projection asked
  cases store.answer template id <;> simp

theorem exists_replies (h : template.name ∉ store.failing) (id : Int) :
    ∃ ids, store.Replies template id ids :=
  ⟨_, replies_iff.mpr (if_neg h)⟩

/-- A query that fails leaves its entry in the log as well. -/
theorem projection_of_mem_failing (h : template.name ∈ store.failing) (id : Int) :
    projection template id store =
      .error ("query " ++ template.name ++ " unavailable") (store.asked template id) := by
  simp [projection, asked, answer, h]

theorem kind_of_mem_related {t : Target} (h : t ∈ store.related template id) :
    t.kind = template.found := by
  unfold related at h
  cases hdirection : template.direction <;> simp only [hdirection] at h <;>
    exact (TargetSet.mem_ofKind.mp h).2

/-- The numbers of an answer ascend, whichever way the template leads. -/
theorem ascending_of_replies (h : store.Replies template id ids) : ids.Pairwise (· < ·) := by
  obtain rfl := eq_of_answer_eq_ok (replies_iff.mp h)
  refine List.pairwise_map.mpr
    ((store.related template id).ascending.imp_of_mem fun {a b} ha hb hab => ?_)
  have hkind : a.kind = b.kind :=
    (kind_of_mem_related ha).trans (kind_of_mem_related hb).symm
  rcases Target.lt_iff.mp hab with hlt | ⟨-, hid⟩
  · exact absurd (hkind ▸ hlt) (Nat.lt_irrefl _)
  · exact hid

end LinkStore

/-! ## Rows of calls -/

/-- What a store can be called to do. -/
inductive StoreCall
  | link (container contained : Target)
  | linkAll (container : Target) (contained : List Target)
  | failOn (template : String)
  | projection (template : Template) (id : Int)
  | resetQueries
deriving DecidableEq, Repr

namespace StoreCall

/-- What a call makes of a store. -/
def apply (store : LinkStore) : StoreCall → LinkStore
  | link container contained => store.link container contained
  | linkAll container contained => store.linkAll container contained
  | failOn template => store.failOn template
  | projection template id =>
    match LinkStore.projection template id store with
    | .ok _ later => later
    | .error _ later => later
  | resetQueries => store.resetQueries

/-- The call links the first entity to the second. -/
def Links : StoreCall → Target → Target → Prop
  | link container contained, c, x => c = container ∧ x = contained
  | linkAll container contained, c, x => c = container ∧ x ∈ contained
  | _, _, _ => False

variable {call : StoreCall} {calls calls' : List StoreCall}

theorem apply_projection : apply store (.projection template id) = store.asked template id := by
  simp only [apply, LinkStore.projection, LinkStore.asked]
  cases store.answer template id <;> rfl

theorem linkAll_cons {container t : Target} {ts : List Target} :
    store.linkAll container (t :: ts) = (store.link container t).linkAll container ts := rfl

theorem mem_links_linkAll {container : Target} {contained : List Target} :
    ⟨c, x⟩ ∈ (store.linkAll container contained).links ↔
      (c = container ∧ x ∈ contained) ∨ ⟨c, x⟩ ∈ store.links := by
  induction contained generalizing store with
  | nil => simp [LinkStore.linkAll]
  | cons t ts ih =>
    rw [linkAll_cons, ih, LinkStore.mem_links_link, Link.mk.injEq, List.mem_cons, and_or_left,
      or_left_comm, or_assoc]

theorem failing_linkAll {container : Target} {contained : List Target} :
    (store.linkAll container contained).failing = store.failing := by
  induction contained generalizing store with
  | nil => rfl
  | cons t ts ih => exact linkAll_cons ▸ ih

/-- A call adds the links that it makes. -/
theorem mem_links_apply :
    ⟨c, x⟩ ∈ (apply store call).links ↔ call.Links c x ∨ ⟨c, x⟩ ∈ store.links := by
  cases call with
  | link container contained => simp [apply, Links]
  | linkAll container contained => exact mem_links_linkAll
  | failOn template => simp [apply, Links, LinkStore.failOn]
  | projection template id => simp [apply_projection, Links, LinkStore.asked]
  | resetQueries => simp [apply, Links, LinkStore.resetQueries]

/-- A call makes at most the template fail that it names. -/
theorem mem_failing_apply :
    name ∈ (apply store call).failing ↔ call = .failOn name ∨ name ∈ store.failing := by
  cases call with
  | link container contained => simp [apply, LinkStore.link]
  | linkAll container contained => simp [apply, failing_linkAll]
  | failOn template => simp [apply, LinkStore.failOn, eq_comm]
  | projection template id => simp [apply_projection, LinkStore.asked]
  | resetQueries => simp [apply, LinkStore.resetQueries]

/-- The store behind some calls, the first of which found it without links. -/
def storeAfter (calls : List StoreCall) : LinkStore :=
  calls.foldl apply .empty

/-- One of the calls links the first entity to the second. -/
def Linked (calls : List StoreCall) (c x : Target) : Prop :=
  ∃ call ∈ calls, call.Links c x

theorem storeAfter_append_singleton :
    storeAfter (calls ++ [call]) = apply (storeAfter calls) call := by
  simp [storeAfter]

theorem mem_links_storeAfter : ⟨c, x⟩ ∈ (storeAfter calls).links ↔ Linked calls c x := by
  induction calls using List.reverseRecOn with
  | nil => simp [storeAfter, Linked, LinkStore.empty]
  | append_singleton calls call ih =>
    rw [storeAfter_append_singleton, mem_links_apply, ih]
    simp [Linked, or_and_right, exists_or, or_comm]

theorem mem_failing_storeAfter : name ∈ (storeAfter calls).failing ↔ .failOn name ∈ calls := by
  induction calls using List.reverseRecOn with
  | nil => simp [storeAfter, LinkStore.empty]
  | append_singleton calls call ih =>
    rw [storeAfter_append_singleton, mem_failing_apply, ih, List.mem_append, List.mem_singleton,
      or_comm, eq_comm]

/-! ## The two templates of an edge -/

/-- The two templates of an edge, neither of which one of the calls made fail. -/
structure Works (calls : List StoreCall) (edge : Edge) (down up : Template) : Prop where
  mem_hierarchy : edge ∈ hierarchy
  leads_down : Schema.standard.template? edge.container edge.contained = some down
  leads_up : Schema.standard.template? edge.contained edge.container = some up
  down_works : .failOn down.name ∉ calls
  up_works : .failOn up.name ∉ calls

/-- The numbers, in ascending order, of what the calls linked along an edge : of what is in
each container, and of what contains each entity. -/
structure LinkedAlong (calls : List StoreCall) (edge : Edge) (contents holders : Int → List Int) :
    Prop where
  mem_contents : ∀ c x, x ∈ contents c ↔ Linked calls ⟨edge.container, c⟩ ⟨edge.contained, x⟩
  mem_holders : ∀ c x, c ∈ holders x ↔ Linked calls ⟨edge.container, c⟩ ⟨edge.contained, x⟩
  ascending_contents : ∀ c, (contents c).Pairwise (· < ·)
  ascending_holders : ∀ x, (holders x).Pairwise (· < ·)

/-- Both rows of calls make the same links along an edge, in whatever order, however often and
among whatever other links. -/
def SameAlong (edge : Edge) (calls calls' : List StoreCall) : Prop :=
  ∀ c x, Linked calls ⟨edge.container, c⟩ ⟨edge.contained, x⟩ ↔
    Linked calls' ⟨edge.container, c⟩ ⟨edge.contained, x⟩

variable {contents holders contents' holders' : Int → List Int}

theorem contains_storeAfter {c x : Int} (hedge : edge ∈ hierarchy) :
    (storeAfter calls).Contains ⟨edge.container, c⟩ ⟨edge.contained, x⟩ ↔
      Linked calls ⟨edge.container, c⟩ ⟨edge.contained, x⟩ := by
  rw [LinkStore.Contains, mem_links_storeAfter]
  exact and_iff_left hedge

theorem exists_linkedAlong (h : Works calls edge down up) :
    ∃ contents holders, LinkedAlong calls edge contents holders ∧
      ∀ id, (storeAfter calls).Replies down id (contents id) ∧
        (storeAfter calls).Replies up id (holders id) := by
  choose contents hcontents using
    LinkStore.exists_replies (mem_failing_storeAfter.not.mpr h.down_works)
  choose holders hholders using
    LinkStore.exists_replies (mem_failing_storeAfter.not.mpr h.up_works)
  refine ⟨contents, holders, ⟨fun c x => ?_, fun c x => ?_, fun c => ?_, fun x => ?_⟩,
    fun id => ⟨hcontents id, hholders id⟩⟩
  · have hiff := mem_ids_iff_of_down (c := ⟨edge.container, c⟩) (x := ⟨edge.contained, x⟩)
      h.leads_down h.mem_hierarchy (LinkStore.replies_iff.mp (hcontents c))
    exact hiff.trans (contains_storeAfter h.mem_hierarchy)
  · have hiff := mem_ids_iff_of_up (c := ⟨edge.container, c⟩) (x := ⟨edge.contained, x⟩)
      h.leads_up h.mem_hierarchy (LinkStore.replies_iff.mp (hholders x))
    exact hiff.trans (contains_storeAfter h.mem_hierarchy)
  · exact LinkStore.ascending_of_replies (hcontents c)
  · exact LinkStore.ascending_of_replies (hholders x)

/-- What was linked along an edge is known by the links themselves. -/
theorem LinkedAlong.eq_of_sameAlong (h : LinkedAlong calls edge contents holders)
    (h' : LinkedAlong calls' edge contents' holders') (hsame : SameAlong edge calls calls') :
    contents = contents' ∧ holders = holders' := by
  constructor
  · funext c
    refine eq_of_ascending (h.ascending_contents c) (h'.ascending_contents c) fun x => ?_
    rw [h.mem_contents, h'.mem_contents, hsame]
  · funext x
    refine eq_of_ascending (h.ascending_holders x) (h'.ascending_holders x) fun c => ?_
    rw [h.mem_holders, h'.mem_holders, hsame]

/-- Behind any calls, a template that they made fail fails, and any other is answered; both
leave one entry in the log and nothing else. The two templates of an edge are answered with
what the calls linked along it, and they are answered in the same way behind all other calls
that make the same links along it. -/
theorem storeAfter_replies (calls : List StoreCall) :
    (∀ template id,
      (.failOn template.name ∈ calls ∧
        LinkStore.projection template id (storeAfter calls) =
          .error ("query " ++ template.name ++ " unavailable")
            ((storeAfter calls).asked template id)) ∨
      (.failOn template.name ∉ calls ∧ ∃ ids, (storeAfter calls).Replies template id ids)) ∧
    ∀ edge down up, Works calls edge down up →
      ∃ contents holders, LinkedAlong calls edge contents holders ∧
        ∀ calls', Works calls' edge down up → SameAlong edge calls calls' →
          ∀ id, (storeAfter calls').Replies down id (contents id) ∧
            (storeAfter calls').Replies up id (holders id) := by
  refine ⟨fun template id => ?_, fun edge down up hworks => ?_⟩
  · by_cases h : .failOn template.name ∈ calls
    · exact .inl ⟨h, LinkStore.projection_of_mem_failing (mem_failing_storeAfter.mpr h) id⟩
    · exact .inr ⟨h, LinkStore.exists_replies (mem_failing_storeAfter.not.mpr h) id⟩
  · obtain ⟨contents, holders, halong, -⟩ := exists_linkedAlong hworks
    refine ⟨contents, holders, halong, fun calls' hworks' hsame => ?_⟩
    obtain ⟨contents', holders', halong', hreplies⟩ := exists_linkedAlong hworks'
    obtain ⟨rfl, rfl⟩ := halong.eq_of_sameAlong halong' hsame
    exact hreplies

/-- Fileset 1 has two images, one of them linked twice, and dataset 1 has a third one. -/
theorem storeAfter_replies_demonstration :
    let calls : List StoreCall :=
      [.linkAll (.fileset 1) [.image 3, .image 2], .failOn "image_datasets",
        .link ⟨.dataset, 1⟩ (.image 7), .link (.fileset 1) (.image 2), .resetQueries]
    ∃ down up, Works calls ⟨.fileset, .image⟩ down up ∧
      ∃ ids, (storeAfter calls).Replies down 1 ids ∧ ids.Pairwise (· < ·) ∧
        ∀ x, x ∈ ids ↔ x = 2 ∨ x = 3 := by
  intro calls
  obtain ⟨⟨down, hdown, -⟩, up, hup, -⟩ :=
    Schema.exists_standard_template ⟨.fileset, .image⟩ (by decide)
  have hworks : Works calls ⟨.fileset, .image⟩ down up := by
    obtain rfl := Option.some.inj hdown
    obtain rfl := Option.some.inj hup
    exact ⟨by decide, hdown, hup, by decide, by decide⟩
  obtain ⟨contents, holders, halong, hreplies⟩ :=
    (storeAfter_replies calls).2 ⟨.fileset, .image⟩ down up hworks
  have hreply := (hreplies calls hworks (fun _ _ => Iff.rfl) 1).1
  refine ⟨down, up, hworks, contents 1, hreply, halong.ascending_contents 1, fun x => ?_⟩
  rw [halong.mem_contents]
  simp [calls, Linked, Links, Target.fileset, Target.image, or_comm]

end StoreCall

end FilesetBatch
