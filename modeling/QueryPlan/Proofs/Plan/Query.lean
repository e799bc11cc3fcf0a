import QueryPlan.Proofs.Plan.LevelJoins
import QueryPlan.Proofs.Selection.Same

namespace QueryPlan

/-- What one level of a plan is asked for: a model, arguments and selected fields. -/
structure Query where
  model : Model
  args : Json.Object
  fields : List SelectedField

namespace Query

/-- The selections below an association, as often as they are made. -/
def selections (q : Query) (association : String) : List SelectedField :=
  q.fields.filter fun f => q.model.expands f && f.name = association

/-- What an association is expanded to: the arguments are those of its first selection, and
everything is selected that is selected below any of them. -/
def nested? (c : Catalog) (q : Query) (association : String) : Option Query := do
  let a ← q.model.association? association
  let target ← c.model? a.target
  let first ← (q.selections association).head?
  return ⟨target, first.args, (q.selections association).flatMap (·.children)⟩

/-- The query with each of its fields once. -/
def distinct (q : Query) : Query := { q with fields := q.fields.eraseDupsBy SelectedField.same }

/-- The grouping keys that the arguments of a level ask for. -/
def groupKeys (q : Query) : List Expr :=
  ((Options.ofArguments q.model.fieldNames q.args).toOption.getD {}).group.getD []

/-- The queries that expansions lead to, the query itself included. -/
inductive Reaches (c : Catalog) : Query → Query → Prop where
  | here (q : Query) : Reaches c q q
  | nested {q q' r : Query} {association : String} (expands : q.nested? c association = some q')
      (h : Reaches c q' r) : Reaches c q r

variable {c : Catalog} {q r : Query} {association : String}

theorem nested?_eq_some :
    q.nested? c association = some r ↔ ∃ a t first others,
      q.model.association? association = some a ∧ c.model? a.target = some t ∧
        q.selections association = first :: others ∧
        r = ⟨t, first.args, (first :: others).flatMap (·.children)⟩ := by
  refine ⟨?_, ?_⟩
  · intro h
    obtain ⟨a, ha, h⟩ := Option.bind_eq_some_iff.1 h
    obtain ⟨t, ht, h⟩ := Option.bind_eq_some_iff.1 h
    obtain ⟨first, hf, h⟩ := Option.bind_eq_some_iff.1 h
    obtain ⟨others, hs⟩ := List.head?_eq_some_iff.1 hf
    rw [hs] at h
    cases h
    exact ⟨a, t, first, others, ha, ht, hs, rfl⟩
  · intro h'
    obtain ⟨a, t, first, others, ha, ht, hs, rfl⟩ := h'
    rw [nested?, ha, hs, Option.bind_eq_bind, Option.bind_some, ht]
    rfl

theorem nested?_known (h : q.nested? c association = some r) : r.model ∈ c.models := by
  obtain ⟨a, t, first, others, -, target, -, rfl⟩ := nested?_eq_some.1 h
  exact (Catalog.model?_some target).1

theorem expands_same {m : Model} {f g : SelectedField} (h : f.same g) :
    (m.expands f && decide (f.name = association)) =
      (m.expands g && decide (g.name = association)) := by
  rw [Model.expands, Model.expands, SelectedField.same_name h,
    SelectedField.same_children_isEmpty h]

theorem selections_distinct :
    q.distinct.selections association =
      (q.selections association).eraseDupsBy SelectedField.same := by
  refine filter_eraseDupsBy ?_ q.fields
  intro f g hfg
  exact expands_same hfg

theorem eraseDupsBy_children (fields : List SelectedField) :
    ((fields.eraseDupsBy SelectedField.same).flatMap (·.children)).eraseDupsBy SelectedField.same =
      (fields.flatMap (·.children)).eraseDupsBy SelectedField.same := by
  refine eraseDupsBy_flatMap ?_ ?_ fields
  · intro f g h hfg hgh
    exact SelectedField.same_trans hfg hgh
  · intro f g hfg x hx
    exact exists_of_mem_left (SelectedField.same_children hfg) hx

/-- Selections that are made twice lead to the same query, up to fields that are in it twice. -/
theorem nested?_distinct (c : Catalog) (q : Query) (association : String) :
    (q.distinct.nested? c association).map distinct = (q.nested? c association).map distinct := by
  rw [nested?, nested?, selections_distinct, head?_eraseDupsBy]
  change Option.map _ (q.model.association? association >>= _) = _
  cases q.model.association? association with
  | none => rfl
  | some a =>
    cases ht : c.model? a.target with
    | none => simp [ht]
    | some t =>
      cases (q.selections association).head? with
      | none => simp
      | some first => simp [ht, distinct, eraseDupsBy_children]

end Query

namespace Expansion

/-- What a level expands to by its selections of one association, each of them taken once. -/
def query (e : Expansion) (target : Model) : Query := ⟨target, e.first.args, e.children⟩

end Expansion

namespace Query

variable {c : Catalog} {q r : Query} {association : String}

theorem distinct_nested? {e : Expansion} {a : Association} {t : Model}
    (he : e ∈ (Siblings.of q.model q.fields).expansions)
    (declared : q.model.association? e.name = some a) (target : c.model? a.target = some t) :
    q.distinct.nested? c e.name = some (e.query t) := by
  have selected : q.distinct.selections e.name = e.first :: e.others :=
    (Siblings.selections_of_mem_expansions he).symm
  exact nested?_eq_some.2 ⟨a, t, e.first, e.others, declared, target, selected, rfl⟩

/-- What a level expands to is what its query expands to, up to fields that are in it twice. -/
theorem exists_nested? {e : Expansion} {a : Association} {t : Model}
    (he : e ∈ (Siblings.of q.model q.fields).expansions)
    (declared : q.model.association? e.name = some a) (target : c.model? a.target = some t) :
    ∃ r, q.nested? c e.name = some r ∧ r.distinct = (e.query t).distinct := by
  have h := nested?_distinct c q e.name
  rw [distinct_nested? he declared target] at h
  exact Option.map_eq_some_iff.1 h.symm

theorem exists_expansion (h : q.nested? c association = some r) :
    ∃ e ∈ (Siblings.of q.model q.fields).expansions, ∃ a t, e.name = association ∧
      q.model.association? e.name = some a ∧ c.model? a.target = some t ∧
        (e.query t).distinct = r.distinct := by
  have hd := nested?_distinct c q association
  rw [h] at hd
  obtain ⟨r', hr', he⟩ := Option.map_eq_some_iff.1 hd
  obtain ⟨a, t, first, others, declared, target, selected, rfl⟩ := nested?_eq_some.1 hr'
  obtain ⟨hmem, rfl⟩ := Siblings.mem_expansions selected
  exact ⟨⟨first, others⟩, hmem, a, t, rfl, declared, target, he⟩

end Query

namespace Planner

variable {p : Planner} {n : Nat}

/-- A plan does not depend on fields that are selected twice. -/
theorem level_eq_of_distinct {q r : Query} (h : q.distinct = r.distinct) :
    p.level n q.model q.args q.fields = p.level n r.model r.args r.fields := by
  obtain ⟨m, args, fields⟩ := q
  obtain ⟨m', args', fields'⟩ := r
  simp only [Query.distinct, Query.mk.injEq] at h
  obtain ⟨rfl, rfl, hfields⟩ := h
  have hsiblings : Siblings.of m fields = Siblings.of m fields' := by
    rw [Siblings.of, Siblings.of, hfields]
  cases n with
  | zero => rfl
  | succ n => rw [level, level, hsiblings]

end Planner

namespace LevelParts

variable {p : Planner} {n : Nat} {q r : Query} {l : Level} {association : String}
  (parts : LevelParts p n q.model q.args q.fields l)
include parts

theorem mem_expansions {b : Branch} (hb : b ∈ parts.branches) :
    b.expansion ∈ (Siblings.of q.model q.fields).expansions := by
  rw [← parts.expansions]
  exact List.mem_map_of_mem hb

theorem nested {b : Branch} (hb : b ∈ parts.branches) :
    ∃ r, q.nested? p.catalog b.expansion.name = some r ∧
      p.level n r.model r.args r.fields = .ok b.level := by
  have grows := parts.grows b hb
  obtain ⟨r, hr, he⟩ := Query.exists_nested? (parts.mem_expansions hb) grows.declared grows.target
  refine ⟨r, hr, ?_⟩
  rw [Planner.level_eq_of_distinct he]
  exact grows.planned

theorem branch_of_nested (h : q.nested? p.catalog association = some r) :
    ∃ b ∈ parts.branches, b.expansion.name = association ∧
      p.level n r.model r.args r.fields = .ok b.level := by
  obtain ⟨e, he, a, t, hname, declared, target, hd⟩ := Query.exists_expansion h
  rw [← parts.expansions] at he
  obtain ⟨b, hb, rfl⟩ := List.mem_map.1 he
  have grows := parts.grows b hb
  have ha := Option.some.inj (grows.declared.symm.trans declared)
  subst ha
  have ht := Option.some.inj (grows.target.symm.trans target)
  subst ht
  refine ⟨b, hb, hname, ?_⟩
  rw [← Planner.level_eq_of_distinct hd]
  exact grows.planned

end LevelParts

end QueryPlan
