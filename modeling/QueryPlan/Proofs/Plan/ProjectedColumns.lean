import QueryPlan.Proofs.Plan.Touched

namespace QueryPlan

namespace Siblings

variable {m : Model} {fields : List SelectedField}

theorem mem_joinColumns {column : String} :
    column ∈ (of m fields).joinColumns ↔
      ∃ name ∈ m.expanded fields, ∃ a, m.association? name = some a ∧ a.joinKey = column := by
  rw [joinColumns_of, List.mem_filterMap]
  simp only [Option.map_eq_some_iff]

theorem mem_columns {column : String} :
    column ∈ (of m fields).columns ↔
      (∃ f ∈ fields, m.role f = .attribute ∧ f.name = column) ∨
        ∃ name ∈ m.expanded fields, ∃ a, m.association? name = some a ∧ a.joinKey = column := by
  rw [columns, List.mem_eraseDups, List.mem_append, mem_attributes, mem_joinColumns]

end Siblings

namespace Stage

variable {p : Planner} {n : Nat} {s : Stage} {l : Level} {column : String}

/-- A column that a level projects only because a join needs it. -/
def AppendsKey (s : Stage) (column : String) : Prop :=
  s.asked.attributes = none ∧ (∀ f ∈ s.fields, s.model.role f = .attribute → f.name ≠ column) ∧
    ∃ name ∈ s.model.expanded s.fields,
      ∃ a, s.model.association? name = some a ∧ a.joinKey = column

/-- A field of the model that a level projects as it is, other than a key appended for a join. -/
structure Projects (s : Stage) (column : String) : Prop where
  listed : .column column ∈ s.plan.options.items
  declared : (s.model.field? column).isSome
  not_key : ¬ s.AppendsKey column

theorem Planned.column_mem_items (h : Planned p (n + 1) l s)
    (parts : LevelParts p n s.model s.args s.fields l) :
    .column column ∈ s.plan.options.items ↔
      .column column ∈ Planner.listed s.asked.attributes (Siblings.of s.model s.fields).columns := by
  rw [h.items, parts.items, asked_eq parts, List.mem_append, or_iff_left]
  intro hc
  obtain ⟨c, hc, hi⟩ := List.mem_map.1 hc
  obtain ⟨e, aliasName, rfl, -⟩ := parts.computed_compiled hc
  cases hi

/-- A projected column is selected, and so touched, unless `attributes` asks for it. -/
theorem Planned.projects_cases (h : Planned p (n + 1) l s)
    (parts : LevelParts p n s.model s.args s.fields l) (hc : s.Projects column) :
    s.Touches p (s.model.name ++ "." ++ column) ∨
      ∃ projection ∈ s.asked.attributes, .column column ∈ projection.items := by
  have listed := (h.column_mem_items parts).1 hc.listed
  cases ha : s.asked.attributes with
  | some projection =>
    rw [ha] at listed
    exact .inr ⟨projection, rfl, listed⟩
  | none =>
    rw [ha] at listed
    obtain ⟨name, hname, hcolumn⟩ := List.mem_map.1 listed
    cases hcolumn
    by_cases selected : ∃ f ∈ s.fields, s.model.role f = .attribute ∧ f.name = column
    · obtain ⟨f, hf, own, rfl⟩ := selected
      exact .inl (.selected hf own)
    · have key := (Siblings.mem_columns.1 hname).resolve_left selected
      refine absurd ⟨ha, ?_, key⟩ hc.not_key
      intro f hf own hname
      exact selected ⟨f, hf, own, hname⟩

theorem Planned.projects_asked (h : Planned p (n + 1) l s)
    (parts : LevelParts p n s.model s.args s.fields l) {projection : Projection}
    (ha : projection ∈ s.asked.attributes) (hc : .column column ∈ projection.items)
    (declared : (s.model.field? column).isSome) : s.Projects column := by
  have ha : s.asked.attributes = some projection := ha
  refine ⟨(h.column_mem_items parts).2 ?_, declared, ?_⟩
  · rw [ha]
    exact hc
  · intro h'
    obtain ⟨hnone, -⟩ := h'
    rw [ha] at hnone
    cases hnone

end Stage

namespace Planner

variable {p : Planner} {m : Model} {args : Json.Object} {source : FieldSource} {q : CompiledQuery}

/-- The projected columns are reported throughout a plan exactly if every column for which the
`attributes` of a level ask is also touched at some level: asking for it does not report it. -/
theorem compile_reports_projected_iff (h : p.compile m args source = .ok q) :
    (∀ n d, q.descriptor.HasLevel m.name n d → d.options.items ≠ [] →
      ∃ s, (q.root m args source).Reaches p.catalog s ∧ s.model.name = n ∧ s.plan = d) ∧
    ((∀ s, (q.root m args source).Reaches p.catalog s → ∀ column, s.Projects column →
        s.model.name ++ "." ++ column ∈ q.touchedFields.toList) ↔
      ∀ s, (q.root m args source).Reaches p.catalog s → ∀ projection ∈ s.asked.attributes,
        ∀ column, .column column ∈ projection.items → (s.model.field? column).isSome →
          ∃ t, (q.root m args source).Reaches p.catalog t ∧
            t.Touches p (s.model.name ++ "." ++ column)) := by
  refine ⟨?_, ?_, ?_⟩
  · intro n d hl listed
    rcases stage_of_hasLevel h hl with hs | ⟨-, name, rfl⟩
    · exact hs
    · exact absurd rfl listed
  · intro reported s reached projection ha column hc declared
    obtain ⟨n, k, hs, ⟨parts⟩⟩ := parts_of_reached h reached
    have projects := hs.projects_asked parts ha hc declared
    exact (mem_touchedFields h).1 (reported s reached column projects)
  · intro touched s reached column projects
    obtain ⟨n, k, hs, ⟨parts⟩⟩ := parts_of_reached h reached
    apply (mem_touchedFields h).2
    rcases hs.projects_cases parts projects with touches | ⟨projection, ha, hc⟩
    · exact ⟨s, reached, touches⟩
    · exact touched s reached projection ha column hc projects.declared

end Planner

namespace Sample

def unselected : Json.Object := [("attributes", .arr [.str "id"])]

def unselectedPlan : CompiledQuery where
  descriptor := { options := { attributes := some (.columns [.column "id"]) } }
  touchedFields := .ofList ["User.name"]

theorem unselectedPlan_projects :
    (unselectedPlan.root user unselected (.fields [selected "name"])).Projects "id" where
  listed := List.mem_cons_self
  declared := rfl
  not_key := by
    intro h'
    obtain ⟨hnone, -⟩ := h'
    cases hnone

theorem unselected_not_reported :
    Catalog.build [user, project] = .ok planner.catalog ∧
      planner.compile user unselected (.fields [selected "name"]) = .ok unselectedPlan ∧
      (unselectedPlan.root user unselected (.fields [selected "name"])).Projects "id" ∧
      "User.id" ∉ unselectedPlan.touchedFields.toList :=
  ⟨catalog_built, by with_unfolding_all rfl, unselectedPlan_projects, by decide⟩

theorem unselected_asked :
    ¬ ∀ s, (unselectedPlan.root user unselected (.fields [selected "name"])).Reaches
        planner.catalog s → ∀ projection ∈ s.asked.attributes,
        ∀ column, .column column ∈ projection.items → (s.model.field? column).isSome →
          ∃ t, (unselectedPlan.root user unselected (.fields [selected "name"])).Reaches
            planner.catalog t ∧ t.Touches planner (s.model.name ++ "." ++ column) := by
  intro touched
  have compiled : planner.compile user unselected (.fields [selected "name"]) =
      .ok unselectedPlan := by
    with_unfolding_all rfl
  have reported := (Planner.compile_reports_projected_iff compiled).2.2 touched
  have id := reported _ .here "id" unselectedPlan_projects
  exact absurd id (by decide)

end Sample

end QueryPlan
