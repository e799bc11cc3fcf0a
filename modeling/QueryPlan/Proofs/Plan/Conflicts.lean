import QueryPlan.Proofs.Plan.Interchange
import QueryPlan.Proofs.Plan.ReadFields
import QueryPlan.Proofs.Plan.Refusal

namespace QueryPlan

theorem CompileError.Refuses.ne_conflictingJoin {e : CompileError} {argument aliasName : String}
    (h : e.Refuses argument) : e ≠ .conflictingJoin aliasName := by
  obtain ⟨reason, rfl⟩ := h
  nofun

namespace Scope

variable {s : Scope} {strictness : Strictness} {settings : Settings} {association : String}

theorem compileName_ne_conflictingJoin (name : String) :
    s.compileName strictness name ≠ .error (.conflictingJoin association) := by
  intro h
  rcases compileName_eq_error h with ⟨cause, he⟩ | he <;> cases he

theorem aggregateColumn_ne_conflictingJoin (f : SelectedField) :
    s.aggregateColumn settings f ≠ .error (.conflictingJoin association) := by
  intro h
  rcases aggregateColumn_eq_error h with ⟨key, refused⟩ | ⟨function, h⟩
  · exact refused.ne_conflictingJoin rfl
  · rcases compileCall_eq_error h with refused | ⟨name, h⟩ | he
    · exact refused.ne_conflictingJoin rfl
    · exact compileName_ne_conflictingJoin name h
    · cases he

theorem relatedColumn_ne_conflictingJoin (f : SelectedField) :
    s.relatedColumn settings f ≠ .error (.conflictingJoin association) := by
  intro h
  rcases relatedColumn_eq_error h with ⟨key, refused⟩ | ⟨name, h⟩
  · exact refused.ne_conflictingJoin rfl
  · exact compileName_ne_conflictingJoin name h

end Scope

namespace Query

variable {c : Catalog} {q r : Query} {association : String}

/-- An association is expanded by two selections that have different arguments. -/
def Conflicts (q : Query) (association : String) : Prop :=
  ∃ f ∈ q.selections association, ∃ g ∈ q.selections association, ¬ f.args.same g.args

/-- All objects in the selected fields, at whatever depth, have each of their names once. -/
def WellKeyed (q : Query) : Prop := ∀ f ∈ q.fields, f.wellKeyed

instance : Decidable q.WellKeyed := inferInstanceAs (Decidable (∀ f ∈ q.fields, f.wellKeyed))

theorem WellKeyed.nested? (h : q.WellKeyed) (expands : q.nested? c association = some r) :
    r.WellKeyed := by
  obtain ⟨a, t, first, others, -, -, selected, rfl⟩ := nested?_eq_some.1 expands
  intro child hchild
  obtain ⟨f, hf, hchild⟩ := List.mem_flatMap.1 hchild
  rw [← selected] at hf
  have keyed := SelectedField.wellKeyed_iff.1 (h f (mem_of_selections hf))
  exact keyed.2.2.2 child hchild

theorem expansion_of_selections {f : SelectedField} (hf : f ∈ q.selections association) :
    ∃ e ∈ (Siblings.of q.model q.fields).expansions, e.name = association := by
  obtain ⟨mem, kept⟩ := List.mem_filter.1 hf
  obtain ⟨expands, named⟩ : q.model.expands f ∧ f.name = association := by simpa using kept
  have expanded : association ∈ (Siblings.of q.model q.fields).expansions.map (·.name) := by
    rw [Siblings.names_expansions, Model.expanded, List.mem_eraseDups, ← named]
    exact List.mem_map_of_mem (List.mem_filter.2 ⟨mem, expands⟩)
  exact List.mem_map.1 expanded

/-- The arguments of an expansion are compared with those of its first selection only, and yet any
two of them that differ are found. -/
theorem isConsistent_iff {e : Expansion} (keyed : q.WellKeyed)
    (he : e ∈ (Siblings.of q.model q.fields).expansions) :
    e.isConsistent ↔ ¬ q.Conflicts e.name := by
  rw [isConsistent_of_expansion he, Json.Object.agree_iff (args_wellKeyed keyed)]
  simp only [Conflicts, List.forall_mem_map, not_exists, not_and, not_not]

/-- The joins of a level have been made up to an expansion of one more association. -/
def JoinedBefore (p : Planner) (n : Nat) (q : Query) (x : Expansion) (joined : Joined) : Prop :=
  ∃ before after, (Siblings.of q.model q.fields).expansions = before ++ x :: after ∧
    before.foldlM (p.expand (p.level n) q.model) {} = .ok joined

end Query

namespace Planner

variable {p : Planner} {n : Nat} {q : Query} {l : Level} {association : String}

/-- At no level that is reached by a planned one do selections of an association conflict. -/
theorem level_consistent (keyed : q.WellKeyed) (h : p.level n q.model q.args q.fields = .ok l)
    {r : Query} (reached : q.Reaches p.catalog r) : ¬ r.Conflicts association := by
  induction n generalizing q l with
  | zero => cases h
  | succ n ih =>
    obtain ⟨_, hn, ⟨parts⟩⟩ := level_parts h
    cases hn
    cases reached with
    | here =>
      intro conflicts
      obtain ⟨f, hf, g, hg, differ⟩ := conflicts
      obtain ⟨e, he, rfl⟩ := Query.expansion_of_selections hf
      -- The expansion has grown into a branch of the planned level, which takes it to be consistent.
      have grown := he
      rw [← parts.expansions] at grown
      obtain ⟨b, hb, rfl⟩ := List.mem_map.1 grown
      have consistent := (parts.grows b hb).consistent
      exact (Query.isConsistent_iff keyed he).1 consistent ⟨f, hf, g, hg, differ⟩
    | nested expands reached =>
      obtain ⟨b, -, -, planned⟩ := parts.branch_of_nested expands
      exact ih (keyed.nested? expands) planned reached

/-- A level is refused for a conflict only if there is one of that association at a level that it
reaches. -/
theorem level_conflicting (keyed : q.WellKeyed)
    (h : p.level n q.model q.args q.fields = .error (.conflictingJoin association)) :
    ∃ r, q.Reaches p.catalog r ∧ r.Conflicts association := by
  induction n generalizing q with
  | zero => cases h
  | succ n ih =>
    cases level_refusal h with
    | arguments h =>
      obtain ⟨arg, -, refused⟩ := Options.withArguments_refuses h
      exact absurd rfl refused.ne_conflictingJoin
    | key mem h =>
      obtain ⟨cause, he⟩ := Scope.resolveKey_eq_error h
      cases he
    | conflict mem inconsistent =>
      have conflicts := mt (Query.isConsistent_iff keyed mem).2
      rw [inconsistent] at conflicts
      exact ⟨q, .here q, not_not.1 (conflicts nofun)⟩
    | nested expands h =>
      obtain ⟨r, reached, conflicts⟩ := ih (keyed.nested? expands) h
      exact ⟨r, .nested expands reached, conflicts⟩
    | aggregate mem role h => exact absurd h (Scope.aggregateColumn_ne_conflictingJoin _)
    | relatedColumn mem role h => exact absurd h (Scope.relatedColumn_ne_conflictingJoin _)

variable {m : Model} {args : Json.Object} {source : FieldSource}

/-- What conflicts at a level that is reached is refused, a conflict is named as the reason only
where there is one, and no join is ever refused for an alias that is taken. -/
theorem compile_conflicts (keyed : (source.query m args).WellKeyed) :
    (∀ r association, (source.query m args).Reaches p.catalog r → r.Conflicts association →
      ∃ e, p.compile m args source = .error e) ∧
    (∀ association, p.compile m args source = .error (.conflictingJoin association) →
      ∃ r, (source.query m args).Reaches p.catalog r ∧ r.Conflicts association) ∧
    ∀ n q x joined, Query.JoinedBefore p n q x joined → ∀ join : Join, join.aliasName = x.name →
      ∃ registry, joined.registry.attach join = .ok registry := by
  constructor
  · intro r association reached conflicts
    cases h : p.compile m args source with
    | error e => exact ⟨e, rfl⟩
    | ok compiled =>
      obtain ⟨l, planned, -⟩ := compile_planned h
      exact absurd conflicts (level_consistent keyed planned.level reached)
  constructor
  · intro association h
    rcases bind_eq_error.1 h with h | ⟨l, -, h⟩
    · exact level_conflicting (q := source.query m args) keyed h
    · exact absurd h pure_ne_error
  · intro n q x joined joins join named
    obtain ⟨before, after, place, run⟩ := joins
    have free := alias_free place run
    rw [← named] at free
    exact ⟨_, Registry.attach_eq_ok.2 ⟨free, rfl⟩⟩

end Planner

namespace Sample

/-- The projects of a user, whose owner is selected with and without arguments. -/
def contestedProjects : SelectedField :=
  { selected "projects" with
    fields := some [owner "name", { owner "age" with args := [("required", .bool true)] }] }

def contestedProjectsQuery : Query := (FieldSource.fields [contestedProjects]).query user []

theorem contestedProjects_conflicts :
    contestedProjectsQuery.WellKeyed ∧
      planner.compile user [] (.fields [contestedProjects]) = .error (.conflictingJoin "owner") ∧
      ∃ r, contestedProjectsQuery.Reaches planner.catalog r ∧ r.Conflicts "owner" := by
  have keyed : contestedProjectsQuery.WellKeyed := by decide
  have refused : planner.compile user [] (.fields [contestedProjects]) =
      .error (.conflictingJoin "owner") := by
    with_unfolding_all rfl
  obtain ⟨-, named, -⟩ := Planner.compile_conflicts (p := planner) keyed
  exact ⟨keyed, refused, named "owner" refused⟩

end Sample

end QueryPlan
