import QueryPlan.Proofs.Plan.LevelParts

namespace QueryPlan

/-- The association qualifies a column of an expression of the options. -/
def Options.Qualifies (o : Options) (association : String) : Prop :=
  ∃ e ∈ o.expressions, ∃ column, Expr.Occurs (.column (some association) column) e

namespace LevelParts

variable {p : Planner} {remaining : Nat} {m : Model} {args : Json.Object}
  {fields : List SelectedField} {l : Level} (parts : LevelParts p remaining m args fields l)
include parts

theorem expanded_names : parts.branches.map (·.expansion.name) = m.expanded fields := by
  rw [← Siblings.names_expansions, ← parts.expansions, List.map_map]
  rfl

theorem aliases :
    l.descriptor.joins.map (·.aliasName) =
      m.expanded fields ++ parts.support.map (·.aliasName) := by
  rw [parts.joins, List.map_append, List.map_map, ← parts.expanded_names]
  rfl

/-- The associations that are reported as read are those that qualify a column. -/
theorem mem_reads_associations {association : String} :
    association ∈ (levelReads parts.group parts.computed).associations ↔
      l.descriptor.options.Qualifies association := by
  rw [mem_associations_levelReads]
  refine ⟨?_, ?_⟩
  · intro h'
    rcases h' with ⟨e, he, ha⟩ | ⟨c, hc, ha⟩
    · obtain ⟨column, ho⟩ := (parts.group_resolved he).mem_associations ha
      refine ⟨e.expr, Options.mem_expressions.2 (.inr ?_), column, ho⟩
      rw [parts.group_keys]
      exact List.mem_map_of_mem he
    · obtain ⟨e, aliasName, rfl, compiled⟩ := parts.computed_compiled hc
      obtain ⟨column, ho⟩ := compiled.resolved.mem_associations ha
      refine ⟨e.expr, Options.mem_expressions.2 (.inl ⟨aliasName, ?_⟩), column, ho⟩
      rw [parts.items]
      exact List.mem_append_right _ (List.mem_map_of_mem hc)
  · intro h'
    obtain ⟨e, he, column, ho⟩ := h'
    rcases parts.mem_expressions he with ⟨-, asked⟩ | ⟨key, hk, rfl⟩ | ⟨c, hc, aliasName, hi⟩
    · exact absurd ho (asked.not_qualified association column)
    · exact .inl ⟨key, hk, ((parts.group_resolved hk).qualified ho).1⟩
    · obtain ⟨e', aliasName', rfl, compiled⟩ := parts.computed_compiled hc
      cases hi
      exact .inr ⟨_, hc, (compiled.resolved.qualified ho).1⟩

theorem qualified_column {e : Expr} (he : e ∈ l.descriptor.options.expressions)
    {association column : String} (ho : Expr.Occurs (.column (some association) column) e) :
    ∃ a t f, m.association? association = some a ∧ p.catalog.model? a.target = some t ∧
      f ∈ t.fields ∧ f.storageName = column := by
  rcases parts.mem_expressions he with ⟨-, asked⟩ | ⟨key, hk, rfl⟩ | ⟨c, hc, aliasName, hi⟩
  · exact absurd ho (asked.not_qualified association column)
  · exact ((parts.group_resolved hk).qualified ho).2
  · obtain ⟨e', aliasName', rfl, compiled⟩ := parts.computed_compiled hc
    cases hi
    exact (compiled.resolved.qualified ho).2

theorem mem_support_aliases {association : String} :
    association ∈ parts.support.map (·.aliasName) ↔
      l.descriptor.options.Qualifies association ∧ association ∉ m.expanded fields := by
  rw [parts.support_aliases, List.mem_filter, NameSet.mem_ofList, parts.mem_reads_associations,
    parts.expanded_names, decide_eq_true_iff]

theorem support_aliases_sorted : (parts.support.map (·.aliasName)).Pairwise (· < ·) := by
  rw [parts.support_aliases]
  exact (NameSet.sorted _).filter _

theorem aliases_nodup : (l.descriptor.joins.map (·.aliasName)).Nodup := by
  rw [parts.aliases]
  refine List.nodup_append.2 ⟨eraseDups_nodup _, ?_, ?_⟩
  · rw [parts.support_aliases]
    exact (NameSet.nodup _).filter _
  · rintro name hexpanded _ hsupport rfl
    exact (parts.mem_support_aliases.1 hsupport).2 hexpanded

/-- Every join is of an association of the model and leads to its target. -/
theorem join_declared {j : Join} (hj : j ∈ l.descriptor.joins) :
    ∃ a t, m.association? j.aliasName = some a ∧ p.catalog.model? a.target = some t ∧
      t.name = j.model := by
  rw [parts.joins] at hj
  rcases List.mem_append.1 hj with hj | hj
  · obtain ⟨b, hb, rfl⟩ := List.mem_map.1 hj
    have grows := parts.grows b hb
    exact ⟨b.association, b.target, grows.declared, grows.target, rfl⟩
  · exact (parts.supports j hj).declared

theorem join_model {j : Join} (hj : j ∈ l.descriptor.joins) {a : Association}
    (declared : m.association? j.aliasName = some a) : j.model = a.target := by
  obtain ⟨a', t, declared', target, hname⟩ := parts.join_declared hj
  rw [declared] at declared'
  cases declared'
  rw [← hname]
  exact (Catalog.model?_some target).2

theorem mem_aliases {association : String} :
    association ∈ l.descriptor.joins.map (·.aliasName) ↔
      association ∈ m.expanded fields ∨ l.descriptor.options.Qualifies association := by
  rw [parts.aliases, List.mem_append, parts.mem_support_aliases]
  tauto

theorem join_mem {b : Branch} (hb : b ∈ parts.branches) : b.join ∈ l.descriptor.joins := by
  rw [parts.joins]
  exact List.mem_append_left _ (List.mem_map_of_mem hb)

theorem join_unique {j j' : Join} (hj : j ∈ l.descriptor.joins) (hj' : j' ∈ l.descriptor.joins)
    (h : j.aliasName = j'.aliasName) : j = j' :=
  List.inj_on_of_nodup_map parts.aliases_nodup hj hj' h

theorem branch_of_selections {name : String} {first : SelectedField} {others : List SelectedField}
    (h : m.selectionsOf fields name = first :: others) :
    ∃ b ∈ parts.branches, b.expansion = ⟨first, others⟩ ∧ b.expansion.name = name := by
  obtain ⟨he, hn⟩ := Siblings.mem_expansions h
  rw [← parts.expansions] at he
  obtain ⟨b, hb, he⟩ := List.mem_map.1 he
  refine ⟨b, hb, he, ?_⟩
  rw [he]
  exact hn

end LevelParts

end QueryPlan
