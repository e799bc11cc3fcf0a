import QueryPlan.Proofs.Plan.Deeper
import QueryPlan.Proofs.Plan.ReadFields

namespace QueryPlan

namespace Planner

variable {p : Planner} {n : Nat} {m : Model} {args : Json.Object} {fields : List SelectedField}
  {l : Level} {q : CompiledQuery}

theorem compile_fields_eq_ok :
    p.compile m args (.fields fields) = .ok q ↔
      ∃ l, p.level p.settings.maxDepth.toNat m args fields = .ok l ∧
        q = ⟨l.descriptor, NameSet.ofList l.touched⟩ := by
  rw [compile_fields, map_eq_ok]
  exact exists_congr fun l => and_congr_right fun _ => eq_comm

/-- A level that is planned below others has the plan that it has on its own. -/
theorem compile_of_level (hn : n ≤ p.settings.maxDepth.toNat)
    (h : p.level n m args fields = .ok l) :
    p.compile m args (.fields fields) = .ok ⟨l.descriptor, NameSet.ofList l.touched⟩ :=
  compile_fields_eq_ok.2 ⟨l, (level_gates (Nat.le_refl _) hn m args fields).eq_ok h, rfl⟩

end Planner

/-- What an association is expanded to by its selections, each taken once, and the plan that this
has on its own. -/
structure Query.PlansNested (p : Planner) (q : Query) (association : String) (r : Query)
    (nested : CompiledQuery) : Prop where
  expands : q.distinct.nested? p.catalog association = some r
  compiles : p.compile r.model r.args (.fields r.fields) = .ok nested

theorem Query.PlansNested.unique {p : Planner} {q r r' : Query} {association : String}
    {nested nested' : CompiledQuery} (h : q.PlansNested p association r nested)
    (h' : q.PlansNested p association r' nested') : nested = nested' := by
  cases h.expands.symm.trans h'.expands
  exact Except.ok.inj (h.compiles.symm.trans h'.compiles)

namespace LevelParts

variable {p : Planner} {n : Nat} {q : Query} {l : Level}
  (parts : LevelParts p n q.model q.args q.fields l)
include parts

theorem plansNested (hn : n ≤ p.settings.maxDepth.toNat) {b : Branch} (hb : b ∈ parts.branches) :
    q.PlansNested p b.expansion.name (b.expansion.query b.target)
      ⟨b.level.descriptor, NameSet.ofList b.level.touched⟩ := by
  have grows := parts.grows b hb
  exact ⟨Query.distinct_nested? (parts.mem_expansions hb) grows.declared grows.target,
    Planner.compile_of_level hn grows.planned⟩

theorem branch_of_expanded {association : String} (h : association ∈ q.model.expanded q.fields) :
    ∃ b ∈ parts.branches, b.expansion.name = association := by
  rw [← parts.expanded_names] at h
  exact List.mem_map.1 h

end LevelParts

namespace Planner

variable {p : Planner} {models : List Model} {name : String} {root : Query} {q : CompiledQuery}

/-- The join of an expanded association is the plan that its target has on its own, and a plan
reports what these plans report and what is read at its own level. -/
theorem compile_nested (built : Catalog.build models = .ok p.catalog)
    (hm : p.model name = .ok root.model)
    (h : p.compile root.model root.args (.fields root.fields) = .ok q) :
    (∀ association ∈ root.model.expanded root.fields, ∃ r nested j,
      root.PlansNested p association r nested ∧
      q.descriptor.joins.filter (·.aliasName = association) = [j] ∧ j.model = r.model.name ∧
      j.descriptor = nested.descriptor ∧
      ∀ x ∈ nested.touchedFields.toList, x ∈ q.touchedFields.toList) ∧
    ∀ x, x ∈ q.touchedFields.toList ↔ root.Reads p x ∨
      ∃ association ∈ root.model.expanded root.fields, ∃ r nested,
        root.PlansNested p association r nested ∧ x ∈ nested.touchedFields.toList := by
  have named := Catalog.build_wellNamed built root.model (model_mem hm)
  obtain ⟨l, hl, rfl⟩ := compile_fields_eq_ok.1 h
  obtain ⟨n, hn, ⟨parts⟩⟩ := level_parts hl
  have hle : n ≤ p.settings.maxDepth.toNat := by omega
  refine ⟨?_, ?_⟩
  · intro association hexpanded
    obtain ⟨b, hb, rfl⟩ := parts.branch_of_expanded hexpanded
    refine ⟨_, _, b.join, parts.plansNested hle hb,
      filter_eq_singleton parts.aliases_nodup (parts.join_mem hb), rfl, rfl, ?_⟩
    intro x hx
    rw [NameSet.mem_ofList] at hx ⊢
    exact (parts.mem_touched named).2 (.inr ⟨b, hb, hx⟩)
  · intro x
    rw [NameSet.mem_ofList, parts.mem_touched named]
    refine or_congr_right ⟨?_, ?_⟩
    · intro h'
      obtain ⟨b, hb, hx⟩ := h'
      refine ⟨b.expansion.name, ?_, _, _, parts.plansNested hle hb, NameSet.mem_ofList.2 hx⟩
      rw [← parts.expanded_names]
      exact List.mem_map_of_mem hb
    · intro h'
      obtain ⟨association, hexpanded, r, nested, plans, hx⟩ := h'
      obtain ⟨b, hb, rfl⟩ := parts.branch_of_expanded hexpanded
      rw [plans.unique (parts.plansNested hle hb), NameSet.mem_ofList] at hx
      exact ⟨b, hb, hx⟩

end Planner

namespace Sample

/-- An owner that is selected twice is joined once. -/
def ownedTwice : Query := ⟨project, [], [owner "name", owner "age"]⟩

def ownerPlan : CompiledQuery where
  descriptor := { options := { attributes := some (.columns [.column "name", .column "age"]) } }
  touchedFields := .ofList ["User.name", "User.age"]

def ownedTwicePlan : CompiledQuery where
  descriptor := {
    options := { attributes := some (.columns [.column "ownerId"]) }
    joins := [⟨"User", "owner", ownerPlan.descriptor.options, ownerPlan.descriptor.joins⟩] }
  touchedFields := .ofList ["User.name", "User.age"]

theorem ownedTwice_nested :
    planner.compile project [] (.fields [owner "name", owner "age"]) = .ok ownedTwicePlan ∧
      "owner" ∈ project.expanded ownedTwice.fields ∧
      ∃ r nested, ownedTwice.PlansNested planner "owner" r nested ∧
        ∀ x ∈ nested.touchedFields.toList, x ∈ ownedTwicePlan.touchedFields.toList := by
  have compiled : planner.compile project [] (.fields [owner "name", owner "age"]) =
      .ok ownedTwicePlan := by
    with_unfolding_all rfl
  have known : planner.model "Project" = .ok ownedTwice.model := rfl
  have expanded : "owner" ∈ project.expanded ownedTwice.fields := by decide
  obtain ⟨joins, -⟩ := Planner.compile_nested catalog_built known compiled
  obtain ⟨r, nested, -, plans, -, -, -, hsub⟩ := joins "owner" expanded
  exact ⟨compiled, expanded, r, nested, plans, hsub⟩

end Sample

end QueryPlan
