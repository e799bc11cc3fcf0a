import QueryPlan.Proofs.Plan.Stage

namespace QueryPlan

/-- The joins of a level are those of its expansions as they are first selected, and then, sorted,
those that let its expressions read through further associations. -/
structure Stage.JoinedBy (s : Stage) (expanded support : List Join) : Prop where
  joins : s.plan.joins = expanded ++ support
  expanded_aliases : expanded.map (·.aliasName) = s.model.expanded s.fields
  support_sorted : (support.map (·.aliasName)).Pairwise (· < ·)
  mem_support : ∀ association, association ∈ support.map (·.aliasName) ↔
    s.plan.options.Qualifies association ∧ association ∉ s.model.expanded s.fields
  support_columns : ∀ j ∈ support,
    j.options = { attributes := some (.columns []) } ∧ j.joins = []
  aliases_nodup : (s.plan.joins.map (·.aliasName)).Nodup
  declared : ∀ j ∈ s.plan.joins,
    ∃ a, s.model.association? j.aliasName = some a ∧ a.target = j.model

theorem Stage.Planned.joinedBy {p : Planner} {n : Nat} {l : Level} {s : Stage}
    (h : s.Planned p (n + 1) l) (parts : LevelParts p n s.model s.args s.fields l) :
    s.JoinedBy (parts.branches.map (·.join)) parts.support where
  joins := by rw [h.joins, parts.joins]
  expanded_aliases := by
    rw [← parts.expanded_names, List.map_map]
    rfl
  support_sorted := parts.support_aliases_sorted
  mem_support association := by rw [h.qualifies, parts.mem_support_aliases]
  support_columns j hj := by
    rw [(parts.supports j hj).columnSupport]
    exact ⟨rfl, rfl⟩
  aliases_nodup := by
    rw [h.joins]
    exact parts.aliases_nodup
  declared := by
    intro j hj
    rw [h.joins] at hj
    obtain ⟨a, t, declared, -, -⟩ := parts.join_declared hj
    exact ⟨a, declared, (parts.join_model hj declared).symm⟩

namespace Planner

variable {p : Planner} {m : Model} {args : Json.Object} {source : FieldSource} {q : CompiledQuery}

theorem compile_joinedBy (h : p.compile m args source = .ok q) :
    ∀ s, (q.root m args source).Reaches p.catalog s →
      ∃ expanded support, s.JoinedBy expanded support := by
  intro s reached
  obtain ⟨n, k, hs, ⟨parts⟩⟩ := parts_of_reached h reached
  exact ⟨_, _, hs.joinedBy parts⟩

end Planner

namespace Sample

def ownerName : SelectedField :=
  { selected "_col" with args := [("name", .str "owner.name")] }

def ownedProjects : SelectedField :=
  { selected "projects" with
    fields := some [selected "title", ownerName] }

def projectsJoin : Join where
  model := "Project"
  aliasName := "projects"
  options := { attributes := some (.columns
    [.column "title", .computed (.column (some "owner") "user_name") "_owner.name"]) }
  joins := [⟨"User", "owner", { attributes := some (.columns []) }, []⟩]

def ownedProjectsPlan : CompiledQuery where
  descriptor := {
    options := { attributes := some (.columns [.column "id"]) }
    joins := [projectsJoin] }
  touchedFields := .ofList ["Project.title", "User.name"]

def projectsLevel : Stage where
  model := project
  args := ownedProjects.args
  fields := [ownedProjects].flatMap (·.children)
  plan := projectsJoin.descriptor

theorem projectsLevel_joinedBy :
    planner.compile user [] (.fields [ownedProjects]) = .ok ownedProjectsPlan ∧
      projectsLevel.JoinedBy [] [⟨"User", "owner", { attributes := some (.columns []) }, []⟩] := by
  have compiled : planner.compile user [] (.fields [ownedProjects]) = .ok ownedProjectsPlan := by
    with_unfolding_all rfl
  have selected : user.selectionsOf [ownedProjects] "projects" = [ownedProjects] := by
    with_unfolding_all rfl
  have joined : projectsJoin ∈ ownedProjectsPlan.descriptor.joins := List.mem_cons_self
  have reached : (ownedProjectsPlan.root user [] (.fields [ownedProjects])).Reaches
      planner.catalog projectsLevel :=
    .expand .here selected rfl rfl joined rfl
  obtain ⟨expanded, support, joins⟩ :=
    Planner.compile_joinedBy compiled projectsLevel reached
  -- The title and the name of the owner expand nothing, so that the only join supports columns.
  have none_expanded : project.expanded projectsLevel.fields = [] := by decide
  have no_joins : expanded = [] := by
    apply List.map_eq_nil_iff.1
    rw [joins.expanded_aliases]
    exact none_expanded
  subst no_joins
  have supported : projectsJoin.joins = support := joins.joins
  rw [← supported] at joins
  exact ⟨compiled, joins⟩

end Sample

end QueryPlan
