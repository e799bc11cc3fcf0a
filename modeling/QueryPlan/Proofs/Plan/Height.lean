import QueryPlan.Proofs.Expr.Nesting
import QueryPlan.Proofs.Plan.Query

namespace QueryPlan

namespace SelectedField

theorem sizeOf_append (fs gs : List SelectedField) : sizeOf (fs ++ gs) + 1 = sizeOf fs + sizeOf gs := by
  induction fs with
  | nil =>
    rw [List.nil_append, List.nil.sizeOf_spec]
    omega
  | cons f fs ih =>
    rw [List.cons_append, List.cons.sizeOf_spec, List.cons.sizeOf_spec]
    omega

theorem sizeOf_children_lt (f : SelectedField) : sizeOf f.children < sizeOf f := by
  obtain ⟨name, aliasName, typeName, isList, args, directivesObject, directivesField, fields⟩ := f
  cases fields with
  | none =>
    simp only [children, Option.getD_none, List.nil.sizeOf_spec, SelectedField.mk.sizeOf_spec,
      Option.none.sizeOf_spec]
    omega
  | some fields =>
    simp only [children, Option.getD_some, SelectedField.mk.sizeOf_spec, Option.some.sizeOf_spec]
    omega

/-- What is selected below some of the fields is smaller by at least one for each of them. -/
theorem sizeOf_flatMap_children (p : SelectedField → Bool) (fs : List SelectedField) :
    sizeOf ((fs.filter p).flatMap (·.children)) + (fs.filter p).length ≤ sizeOf fs := by
  induction fs with
  | nil => exact Nat.le_refl _
  | cons f fs ih =>
    rw [List.cons.sizeOf_spec]
    cases hp : p f with
    | true =>
      rw [List.filter_cons_of_pos hp, List.flatMap_cons, List.length_cons]
      have hchildren := f.sizeOf_children_lt
      have happend := sizeOf_append f.children ((fs.filter p).flatMap (·.children))
      omega
    | false =>
      rw [List.filter_cons_of_neg (by simp [hp])]
      omega

end SelectedField

namespace Query

variable {c : Catalog} {q r : Query} {association : String} {n : Nat}

theorem sizeOf_nested?_lt (h : q.nested? c association = some r) :
    sizeOf r.fields < sizeOf q.fields := by
  obtain ⟨a, t, first, others, -, -, selected, rfl⟩ := nested?_eq_some.1 h
  have hle := SelectedField.sizeOf_flatMap_children
    (fun f => q.model.expands f && f.name = association) q.fields
  rw [← selections, selected, List.length_cons] at hle
  dsimp only
  omega

/-- The queries that the associations of a level are expanded to. -/
def branches (c : Catalog) (q : Query) : List Query :=
  (q.model.expanded q.fields).filterMap (q.nested? c)

theorem mem_expanded (h : q.nested? c association = some r) :
    association ∈ q.model.expanded q.fields := by
  obtain ⟨a, t, first, others, -, -, selected, -⟩ := nested?_eq_some.1 h
  have hfirst : first ∈ q.selections association := by
    rw [selected]
    exact List.mem_cons_self
  obtain ⟨hmem, hexpands⟩ := List.mem_filter.1 hfirst
  rw [Bool.and_eq_true, decide_eq_true_iff] at hexpands
  obtain ⟨hexpands, rfl⟩ := hexpands
  rw [Model.expanded, List.mem_eraseDups]
  exact List.mem_map_of_mem (List.mem_filter.2 ⟨hmem, hexpands⟩)

theorem mem_branches : r ∈ q.branches c ↔ ∃ association, q.nested? c association = some r := by
  rw [branches, List.mem_filterMap]
  refine ⟨?_, ?_⟩
  · intro h'
    obtain ⟨association, -, h⟩ := h'
    exact ⟨association, h⟩
  · intro h'
    obtain ⟨association, h⟩ := h'
    exact ⟨association, mem_expanded h, h⟩

/-- The number of levels that are nested in one another, that of the query itself included. -/
def height (c : Catalog) (q : Query) : Nat :=
  1 + greatest ((q.branches c).attach.map fun r => height c r.1)
termination_by sizeOf q.fields
decreasing_by
  obtain ⟨association, h⟩ := mem_branches.1 r.2
  exact sizeOf_nested?_lt h

theorem height_le :
    q.height c ≤ n + 1 ↔ ∀ association r, q.nested? c association = some r → r.height c ≤ n := by
  rw [height, Nat.add_comm, Nat.add_le_add_iff_right, greatest_le]
  refine ⟨?_, ?_⟩
  · intro h association r hr
    exact h _ (List.mem_map.2 ⟨⟨r, mem_branches.2 ⟨association, hr⟩⟩, List.mem_attach _ _, rfl⟩)
  · intro h k hk
    obtain ⟨⟨r, hr⟩, -, rfl⟩ := List.mem_map.1 hk
    obtain ⟨association, hr⟩ := mem_branches.1 hr
    exact h association r hr

theorem height_pos (c : Catalog) (q : Query) : 0 < q.height c := by
  rw [height]
  omega

end Query

end QueryPlan
