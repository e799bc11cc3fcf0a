import QueryPlan.Proofs.Plan.Stage

namespace QueryPlan

/-- Every function that is called in the expressions has a name that may stand in a statement
unquoted. -/
def Options.CallsAccepted (o : Options) : Prop :=
  ∀ e ∈ o.expressions, ∀ function args, Expr.Occurs (.call function args) e →
    IsFunctionName function

namespace LevelParts

variable {p : Planner} {remaining : Nat} {m : Model} {args : Json.Object}
  {fields : List SelectedField} {l : Level} (parts : LevelParts p remaining m args fields l)
include parts

theorem call_of_asked {function : String} {fargs : List Expr}
    (h : .call function fargs ∈ parts.options.expressions) :
    ∃ e ∈ l.descriptor.options.expressions, ∃ args, Expr.Occurs (.call function args) e := by
  rcases Options.mem_expressions.1 h with ⟨aliasName, hi⟩ | hg
  · refine ⟨_, Options.mem_expressions.2 (.inl ⟨aliasName, ?_⟩), fargs, .here⟩
    rw [parts.items]
    exact List.mem_append_left _ (Planner.computed_mem_listed.2 hi)
  · obtain ⟨e, he, hr⟩ := exists_of_mem_left parts.keys hg
    refine ⟨e.expr, Options.mem_expressions.2 (.inr ?_), ?_⟩
    · rw [parts.group_keys]
      exact List.mem_map_of_mem he
    · exact (Scope.call_occurs_resolveKey hr).2 ⟨fargs, .here⟩

/-- A function that is called is asked for by an argument, or its name was checked. -/
theorem asked_of_call {e : Expr} (he : e ∈ l.descriptor.options.expressions) {function : String}
    {fargs : List Expr} (ho : Expr.Occurs (.call function fargs) e) :
    (∃ fargs, .call function fargs ∈ parts.options.expressions) ∨ IsFunctionName function := by
  rcases parts.mem_expressions he with ⟨hasked, asked⟩ | ⟨c, hc, rfl⟩ | ⟨c, hc, aliasName, hi⟩
  · rw [asked.call_occurs ho] at hasked
    exact .inl ⟨fargs, hasked⟩
  · obtain ⟨key, hk, hr⟩ := exists_of_mem_right parts.keys hc
    obtain ⟨kargs, ho⟩ := (Scope.call_occurs_resolveKey hr).1 ⟨fargs, ho⟩
    have hasked := parts.mem_group hk
    rw [(parts.asked.of_mem hasked).call_occurs ho] at hasked
    exact .inl ⟨kargs, hasked⟩
  · obtain ⟨e', aliasName', rfl, compiled⟩ := parts.computed_compiled hc
    cases hi
    exact .inr (isFunctionName_iff.1 (compiled.call_accepted ho))

theorem callsAccepted_iff :
    l.descriptor.options.CallsAccepted ↔ ∀ function fargs,
      .call function fargs ∈ parts.options.expressions → IsFunctionName function := by
  refine ⟨?_, ?_⟩
  · intro h function fargs hasked
    obtain ⟨e, he, args, ho⟩ := parts.call_of_asked hasked
    exact h e he function args ho
  · intro h e he function args ho
    rcases parts.asked_of_call he ho with ⟨fargs, hasked⟩ | accepted
    · exact h function fargs hasked
    · exact accepted

end LevelParts

theorem Stage.Planned.callsAccepted_iff {p : Planner} {n : Nat} {l : Level} {s : Stage}
    (h : s.Planned p (n + 1) l) (parts : LevelParts p n s.model s.args s.fields l) :
    s.plan.options.CallsAccepted ↔ ∀ function fargs,
      .call function fargs ∈ s.asked.expressions → IsFunctionName function := by
  rw [Options.CallsAccepted, h.expressions, Stage.asked_eq parts]
  exact parts.callsAccepted_iff

namespace Planner

variable {p : Planner} {m : Model} {args : Json.Object} {source : FieldSource} {q : CompiledQuery}

/-- The names of called functions are accepted throughout a plan exactly if those are that the
arguments of its levels ask for by `attributes` and by grouping: these two do not check them. -/
theorem compile_callsAccepted_iff (h : p.compile m args source = .ok q) :
    (∀ n d, q.descriptor.HasLevel m.name n d → d.options.CallsAccepted) ↔
      ∀ s, (q.root m args source).Reaches p.catalog s → ∀ function fargs,
        .call function fargs ∈ s.asked.expressions → IsFunctionName function := by
  refine ⟨?_, ?_⟩
  · intro accepted s reached
    obtain ⟨n, k, hs, ⟨parts⟩⟩ := parts_of_reached h reached
    have hl := accepted s.model.name s.plan (hasLevel_of_reached h reached)
    exact (hs.callsAccepted_iff parts).1 hl
  · intro accepted n d hl
    rcases stage_of_hasLevel h hl with ⟨s, reached, rfl, rfl⟩ | ⟨-, name, rfl⟩
    · obtain ⟨n, k, hs, ⟨parts⟩⟩ := parts_of_reached h reached
      exact (hs.callsAccepted_iff parts).2 (accepted s reached)
    · intro e he
      cases he

end Planner

namespace Sample

/-- An argument by which a client writes into the statement what it likes. -/
def spliced : Json.Object :=
  [("attributes", .arr [.arr [.str "SUM(1); --", .str "age"]])]

def splicedPlan : CompiledQuery where
  descriptor := { options := { attributes := some (.columns
    [.computed (.call "SUM(1); --" [.column none "age"]) "age"]) } }
  touchedFields := .empty

theorem splicedPlan_calls :
    ¬ ∀ n d, splicedPlan.descriptor.HasLevel user.name n d → d.options.CallsAccepted := by
  intro accepted
  have root := accepted "User" splicedPlan.descriptor .root
  have name := root _ List.mem_cons_self "SUM(1); --" _ .here
  exact absurd (isFunctionName_iff.2 name) (by decide)

theorem spliced_not_callsAccepted :
    Catalog.build [user, project] = .ok planner.catalog ∧
      planner.compile user spliced (.fields []) = .ok splicedPlan ∧
      ¬ ∀ n d, splicedPlan.descriptor.HasLevel user.name n d → d.options.CallsAccepted :=
  ⟨catalog_built, by with_unfolding_all rfl, splicedPlan_calls⟩

theorem spliced_asked :
    ¬ ∀ s, (splicedPlan.root user spliced (.fields [])).Reaches planner.catalog s →
      ∀ function fargs, .call function fargs ∈ s.asked.expressions → IsFunctionName function := by
  intro accepted
  have compiled : planner.compile user spliced (.fields []) = .ok splicedPlan := by
    with_unfolding_all rfl
  exact splicedPlan_calls ((Planner.compile_callsAccepted_iff compiled).2 accepted)

end Sample

end QueryPlan
