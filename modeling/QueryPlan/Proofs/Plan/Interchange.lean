import QueryPlan.Plan.Compile
import QueryPlan.Proofs.Plan.Query
import QueryPlan.Proofs.Selection.WellKeyed

namespace QueryPlan

/-- Every object of a list is equal to the first one. -/
def Json.Object.agree : List Json.Object → Bool
  | [] => true
  | first :: others => others.all (·.same first)

namespace Json.Object

variable {as bs : List Object}

/-- Objects agree with the first of them if any two of them do. -/
theorem agree_iff (keyed : ∀ a ∈ as, a.wellKeyed) : agree as ↔ ∀ a ∈ as, ∀ b ∈ as, a.same b := by
  cases as with
  | nil => exact ⟨fun _ => List.forall_mem_nil _, fun _ => rfl⟩
  | cons first others =>
    rw [agree, List.all_eq_true]
    constructor
    · intro h
      have all : ∀ a ∈ first :: others, a.same first :=
        List.forall_mem_cons.2 ⟨same_refl (keyed first List.mem_cons_self), h⟩
      intro a ha b hb
      exact same_trans (all a ha) (same_symm (keyed b hb) (keyed first List.mem_cons_self) (all b hb))
    · intro h a ha
      exact h a (List.mem_cons_of_mem first ha) first List.mem_cons_self

theorem agree_perm (h : as.Perm bs) (keyed : ∀ a ∈ as, a.wellKeyed) : agree as = agree bs := by
  have keyed' : ∀ b ∈ bs, b.wellKeyed := fun b hb => keyed b (h.mem_iff.2 hb)
  rw [Bool.eq_iff_iff, agree_iff keyed, agree_iff keyed']
  simp only [h.mem_iff]

end Json.Object

theorem SelectedField.agree_eraseDupsBy (fields : List SelectedField) :
    Json.Object.agree ((fields.eraseDupsBy SelectedField.same).map (·.args)) =
      Json.Object.agree (fields.map (·.args)) := by
  cases fields with
  | nil => rfl
  | cons first others =>
    have passed : ∀ f g : SelectedField, f.same g → g.args.same first.args →
        f.args.same first.args := by
      intro f g hfg hg
      exact Json.Object.same_trans (same_args hfg) hg
    -- A selection that is left out as a duplicate of the first one has its arguments.
    have kept : (others.filter fun f => f.same first = false).all (·.args.same first.args) =
        others.all (·.args.same first.args) := by
      rw [List.all_filter]
      apply List.all_congr rfl
      intro f
      cases hf : f.same first with
      | false => simp
      | true => simp [same_args hf]
    rw [List.eraseDupsBy_cons, List.map_cons, List.map_cons, Json.Object.agree,
      Json.Object.agree, List.all_map, List.all_map]
    exact (all_eraseDupsBy passed _).trans kept

theorem Expansion.isConsistent_eq (e : Expansion) :
    e.isConsistent = Json.Object.agree (e.selections.map (·.args)) := by
  rw [selections, List.map_cons, Json.Object.agree, List.all_map]
  rfl

namespace Query

variable {q r : Query} {e e' : Expansion} {association : String} {role : Role}

def inRole (q : Query) (role : Role) : List SelectedField :=
  q.fields.filter (q.model.role · = role)

theorem inRole_siblings :
    (Siblings.of q.model q.fields).inRole role = (q.inRole role).eraseDupsBy SelectedField.same :=
  Siblings.inRole_of role

theorem selections_of_expansion (he : e ∈ (Siblings.of q.model q.fields).expansions) :
    e.selections = (q.selections e.name).eraseDupsBy SelectedField.same :=
  (Siblings.selections_of_mem_expansions he).trans selections_distinct

theorem first_of_expansion (he : e ∈ (Siblings.of q.model q.fields).expansions) :
    (q.selections e.name).head? = some e.first := by
  rw [← head?_eraseDupsBy, ← selections_of_expansion he]
  rfl

theorem isConsistent_of_expansion (he : e ∈ (Siblings.of q.model q.fields).expansions) :
    e.isConsistent = Json.Object.agree ((q.selections e.name).map (·.args)) := by
  rw [Expansion.isConsistent_eq, selections_of_expansion he, SelectedField.agree_eraseDupsBy]

theorem mem_of_selections {f : SelectedField} (hf : f ∈ q.selections association) :
    f ∈ q.fields :=
  List.mem_of_mem_filter hf

theorem args_wellKeyed (keyed : ∀ f ∈ q.fields, f.wellKeyed) :
    ∀ a ∈ (q.selections association).map (·.args), Json.Object.wellKeyed a := by
  intro a ha
  obtain ⟨f, hf, rfl⟩ := List.mem_map.1 ha
  exact (SelectedField.wellKeyed_iff.1 (keyed f (mem_of_selections hf))).1

/-- Two queries expand an association to the same plan, or fail to do so alike. -/
structure ExpandsAlike (p : Planner) (n : Nat) (q r : Query) (association : String) : Prop where
  first : ((q.selections association).map (·.args)).head? =
    ((r.selections association).map (·.args)).head?
  agree : Json.Object.agree ((q.selections association).map (·.args)) =
    Json.Object.agree ((r.selections association).map (·.args))
  below : ∀ a t args, q.model.association? association = some a →
    p.catalog.model? a.target = some t →
      p.level n t args ((q.selections association).flatMap (·.children)) =
        p.level n t args ((r.selections association).flatMap (·.children))

theorem ExpandsAlike.of_selections {p : Planner} {n : Nat}
    (h : q.selections association = r.selections association) :
    q.ExpandsAlike p n r association := by
  constructor
  · rw [h]
  · rw [h]
  · intro a t args declared target
    rw [h]

/-- Two queries differ only in selections that lead to the same plan. -/
structure Alike (p : Planner) (n : Nat) (q r : Query) : Prop where
  model : q.model = r.model
  args : q.args = r.args
  attributes : (q.inRole .attribute).map (·.name) = (r.inRole .attribute).map (·.name)
  aggregates : q.inRole .aggregate = r.inRole .aggregate
  relatedColumns : q.inRole .relatedColumn = r.inRole .relatedColumn
  expanded : q.model.expanded q.fields = r.model.expanded r.fields
  expands : ∀ association, ExpandsAlike p n q r association

namespace Alike

variable {p : Planner} {n : Nat} (h : Alike p n q r)
include h

theorem attributes_siblings :
    (Siblings.of q.model q.fields).attributes = (Siblings.of r.model r.fields).attributes := by
  rw [Siblings.attributes, Siblings.attributes, Siblings.names_inRole, Siblings.names_inRole]
  exact congrArg List.eraseDups h.attributes

theorem joinColumns_siblings :
    (Siblings.of q.model q.fields).joinColumns = (Siblings.of r.model r.fields).joinColumns := by
  rw [Siblings.joinColumns_of, Siblings.joinColumns_of, h.expanded, h.model]

theorem aggregates_siblings :
    (Siblings.of q.model q.fields).inRole .aggregate =
      (Siblings.of r.model r.fields).inRole .aggregate := by
  rw [inRole_siblings, inRole_siblings, h.aggregates]

theorem relatedColumns_siblings :
    (Siblings.of q.model q.fields).inRole .relatedColumn =
      (Siblings.of r.model r.fields).inRole .relatedColumn := by
  rw [inRole_siblings, inRole_siblings, h.relatedColumns]

end Alike

end Query

namespace Planner

variable {p : Planner} {n : Nat} {q r : Query} {e e' : Expansion}

theorem level_of_expansion (he : e ∈ (Siblings.of q.model q.fields).expansions) (t : Model)
    (args : Json.Object) :
    p.level n t args e.children =
      p.level n t args ((q.selections e.name).flatMap (·.children)) := by
  rw [Expansion.children, Query.selections_of_expansion he]
  have children := Query.eraseDupsBy_children (q.selections e.name)
  exact level_eq_of_distinct (q := ⟨t, args, _⟩) (r := ⟨t, args, _⟩)
    (congrArg (Query.mk t args) children)

/-- Expanding an association gives the same join for queries that expand it alike. -/
theorem expand_alike (he : e ∈ (Siblings.of q.model q.fields).expansions)
    (he' : e' ∈ (Siblings.of r.model r.fields).expansions) (named : e.name = e'.name)
    (h : q.ExpandsAlike p n r e.name) (joined : Joined) :
    p.expand (p.level n) q.model joined e = p.expand (p.level n) q.model joined e' := by
  have consistent : e.isConsistent = e'.isConsistent := by
    rw [Query.isConsistent_of_expansion he, Query.isConsistent_of_expansion he', ← named]
    exact h.agree
  have first : e.first.args = e'.first.args := by
    have heads := h.first
    rw [List.head?_map, List.head?_map, Query.first_of_expansion he, named,
      Query.first_of_expansion he'] at heads
    exact Option.some.inj heads
  have below : ∀ a t, q.model.association? e.name = some a → p.catalog.model? a.target = some t →
      p.level n t e.first.args e.children = p.level n t e'.first.args e'.children := by
    intro a t declared target
    rw [first, level_of_expansion he, level_of_expansion he', ← named]
    exact h.below a t _ declared target
  rw [expand, expand, consistent, named]
  rw [named] at below
  cases ht : p.catalog.target q.model e'.name with
  | error cause => rfl
  | ok found =>
    obtain ⟨a, t⟩ := found
    obtain ⟨declared, target⟩ := Catalog.target_eq_ok.1 ht
    simp only [Except.mapError, bind, Except.bind, below a t declared target]

/-- Queries that are alike have the same plan, or fail alike. -/
theorem level_alike (h : q.Alike p n r) :
    p.level (n + 1) q.model q.args q.fields = p.level (n + 1) r.model r.args r.fields := by
  have names : (Siblings.of q.model q.fields).expansions.map (·.name) =
      (Siblings.of r.model r.fields).expansions.map (·.name) := by
    rw [Siblings.names_expansions, Siblings.names_expansions]
    exact h.expanded
  have joins : (Siblings.of q.model q.fields).expansions.foldlM (p.expand (p.level n) q.model) {} =
      (Siblings.of r.model r.fields).expansions.foldlM (p.expand (p.level n) q.model) {} := by
    apply foldlM_congr_map names
    intro e he e' he' named
    exact expand_alike he he' named (h.expands e.name)
  rw [level, level, h.attributes_siblings, h.joinColumns_siblings, h.aggregates_siblings,
    h.relatedColumns_siblings, joins, h.model, h.args]

theorem compile_congr {m : Model} {args : Json.Object} {fields fields' : List SelectedField}
    (h : ∀ n, p.level n m args fields = p.level n m args fields') :
    p.compile m args (.fields fields) = p.compile m args (.fields fields') := by
  rw [compile, compile, FieldSource.selected, FieldSource.selected, h]
  rfl

end Planner

end QueryPlan
