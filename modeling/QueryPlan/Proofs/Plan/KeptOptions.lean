import QueryPlan.Proofs.Plan.Nested

namespace QueryPlan

/-- The options are those of another set but for the projection and the grouping keys. -/
def Options.Keeps (o asked : Options) : Prop :=
  o = { asked with attributes := o.attributes, group := o.group }

theorem Join.columnSupport_keeps (model aliasName : String) :
    (columnSupport model aliasName).options.Keeps {} := rfl

namespace LevelParts

variable {p : Planner} {n : Nat} {m : Model} {args : Json.Object} {fields : List SelectedField}
  {l : Level} (parts : LevelParts p n m args fields l)
include parts

theorem keeps : l.descriptor.options.Keeps parts.options := by
  rw [Options.Keeps, parts.descriptor_options]

/-- A join of an association that is not expanded is there for columns only. -/
theorem unexpanded_keeps {j : Join} (hj : j ∈ l.descriptor.joins)
    (unexpanded : j.aliasName ∉ m.expanded fields) : j.options.Keeps {} := by
  rw [parts.joins] at hj
  rcases List.mem_append.1 hj with hj | hj
  · obtain ⟨b, hb, rfl⟩ := List.mem_map.1 hj
    rw [← parts.expanded_names] at unexpanded
    exact absurd (List.mem_map_of_mem hb) unexpanded
  · rw [(parts.supports j hj).columnSupport]
    exact Join.columnSupport_keeps j.model j.aliasName

end LevelParts

namespace Stage

variable {p : Planner} {root s : Stage} {n : Nat} {l : Level}

/-- The plan of the level is all of the one that `p` makes within a depth. -/
structure Exact (p : Planner) (n : Nat) (l : Level) (s : Stage) : Prop where
  level : p.level n s.model s.args s.fields = .ok l
  plan : s.plan = l.descriptor

theorem Exact.planned (h : Exact p n l s) : Planned p n l s := by
  refine ⟨h.level, ?_, l.descriptor.options.limit, ?_⟩
  · rw [h.plan]
  · rw [h.plan]

/-- What is reached from a level that has its plan unchanged has its plan unchanged. -/
theorem Reaches.exact (h : Reaches p.catalog root s) (hp : Exact p n l root) :
    ∃ k l', Exact p (k + 1) l' s ∧ Nonempty (LevelParts p k s.model s.args s.fields l') := by
  induction h with
  | here =>
    obtain ⟨k, rfl, parts⟩ := hp.planned.parts
    exact ⟨k, l, hp, parts⟩
  | expand _ selected declared target joined named ih =>
    obtain ⟨k, l', hs, ⟨parts⟩⟩ := ih
    obtain ⟨b, hb, he, ht, rfl⟩ :=
      Planned.branch parts hs.planned selected declared target joined named
    have hl := (parts.grows b hb).planned
    rw [he, ht] at hl
    obtain ⟨i, rfl, below⟩ := Planner.level_parts hl
    exact ⟨i, b.level, ⟨hl, rfl⟩, below⟩

end Stage

namespace Planner

variable {p : Planner} {m : Model} {args : Json.Object} {fields : List SelectedField}
  {q : CompiledQuery}

theorem compile_fields_exact (h : p.compile m args (.fields fields) = .ok q) :
    ∃ l, (q.root m args (.fields fields)).Exact p p.settings.maxDepth.toNat l := by
  obtain ⟨l, hl, rfl⟩ := compile_fields_eq_ok.1 h
  exact ⟨l, hl, rfl⟩

/-- Filters, order, page, flags and scopes of a level are those that its own arguments ask for, and
a level that only supports columns has none of them. -/
theorem compile_keepsOptions (h : p.compile m args (.fields fields) = .ok q) :
    (∀ s, (q.root m args (.fields fields)).Reaches p.catalog s →
      (∃ asked, Options.ofArguments s.model.fieldNames s.args = .ok asked ∧
        s.plan.options.Keeps asked) ∧
      ∀ j ∈ s.plan.joins, j.aliasName ∉ s.model.expanded s.fields → j.options.Keeps {}) ∧
    ∀ n d, q.descriptor.HasLevel m.name n d →
      (∃ s, (q.root m args (.fields fields)).Reaches p.catalog s ∧ s.model.name = n ∧ s.plan = d) ∨
        d.options.Keeps {} := by
  obtain ⟨l, hroot⟩ := compile_fields_exact h
  refine ⟨?_, ?_⟩
  · intro s reached
    obtain ⟨k, l', hs, ⟨parts⟩⟩ := reached.exact hroot
    rw [hs.plan]
    refine ⟨⟨parts.options, parts.options_eq, parts.keeps⟩, ?_⟩
    intro j hj unexpanded
    exact parts.unexpanded_keeps hj unexpanded
  · intro n d level
    rcases stage_of_hasLevel h level with reached | ⟨-, aliasName, rfl⟩
    · exact .inl reached
    · exact .inr (Join.columnSupport_keeps n aliasName)

end Planner

namespace Sample

def pagedProjects : SelectedField :=
  { selected "projects" with
    args := [("limit", .ofNat 2), ("groupBy", .str "owner.age")]
    fields := some [selected "title"] }

def pagedJoin : Join where
  model := "Project"
  aliasName := "projects"
  options := {
    attributes := some (.columns [.column "title"])
    group := some [.column (some "owner") "age"]
    limit := some 2 }
  joins := [⟨"User", "owner", { attributes := some (.columns []) }, []⟩]

def pagedPlan : CompiledQuery where
  descriptor := {
    options := { attributes := some (.columns [.column "id"]) }
    joins := [pagedJoin] }
  touchedFields := .ofList ["Project.title", "User.age"]

def pagedLevel : Stage where
  model := project
  args := pagedProjects.args
  fields := [pagedProjects].flatMap (·.children)
  plan := pagedJoin.descriptor

theorem pagedLevel_keepsOptions :
    planner.compile user [] (.fields [pagedProjects]) = .ok pagedPlan ∧
      (∃ asked, Options.ofArguments project.fieldNames pagedProjects.args = .ok asked ∧
        pagedJoin.options.Keeps asked) ∧ ∀ j ∈ pagedJoin.joins, j.options.Keeps {} := by
  have compiled : planner.compile user [] (.fields [pagedProjects]) = .ok pagedPlan := by
    with_unfolding_all rfl
  have selected : user.selectionsOf [pagedProjects] "projects" = [pagedProjects] := by
    with_unfolding_all rfl
  have joined : pagedJoin ∈ pagedPlan.descriptor.joins := List.mem_cons_self
  have reached : (pagedPlan.root user [] (.fields [pagedProjects])).Reaches
      planner.catalog pagedLevel :=
    .expand .here selected rfl rfl joined rfl
  have unexpanded : "owner" ∉ project.expanded pagedLevel.fields := by decide
  obtain ⟨kept, support⟩ := (Planner.compile_keepsOptions compiled).1 pagedLevel reached
  refine ⟨compiled, kept, ?_⟩
  intro j hj
  have owner : j.aliasName = "owner" := congrArg Join.aliasName (List.mem_singleton.1 hj)
  apply support j hj
  rw [owner]
  exact unexpanded

end Sample

end QueryPlan
