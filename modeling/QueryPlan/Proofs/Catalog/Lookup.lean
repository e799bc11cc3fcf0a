import QueryPlan.Catalog.Build

namespace QueryPlan

/-- The field of a model through which its association is joined: the foreign key of a model that
belongs to another, and the source key of one that others belong to. -/
def Association.joinKey (a : Association) : String :=
  if a.kind = .belongsTo then a.foreignKey else a.sourceKey

theorem Association.sourceColumn_eq (a : Association) : a.sourceColumn = a.joinKey := by
  unfold sourceColumn joinKey
  cases a.kind <;> rfl

theorem Model.field?_some {m : Model} {name : String} {f : Field} (h : m.field? name = some f) :
    f ∈ m.fields ∧ f.name = name :=
  ⟨List.mem_of_find?_eq_some h, by simpa using List.find?_some h⟩

theorem Model.association?_some {m : Model} {name : String} {a : Association}
    (h : m.association? name = some a) : a ∈ m.associations ∧ a.name = name :=
  ⟨List.mem_of_find?_eq_some h, by simpa using List.find?_some h⟩

theorem Catalog.model?_some {c : Catalog} {name : String} {m : Model}
    (h : c.model? name = some m) : m ∈ c.models ∧ m.name = name :=
  ⟨List.mem_of_find?_eq_some h, by simpa using List.find?_some h⟩

theorem Catalog.model?_name {c : Catalog} {name : String} {m : Model}
    (h : c.model? name = some m) : c.model? m.name = some m := by
  rw [(Catalog.model?_some h).2]
  exact h

theorem Catalog.model_eq_ok {c : Catalog} {name : String} {m : Model} :
    c.model name = .ok m ↔ c.model? name = some m := by
  rw [Catalog.model]
  cases c.model? name with
  | none => simp
  | some m' => simp

theorem Catalog.target_eq_ok {c : Catalog} {m : Model} {name : String} {a : Association}
    {t : Model} :
    c.target m name = .ok (a, t) ↔ m.association? name = some a ∧ c.model? a.target = some t := by
  refine ⟨?_, ?_⟩
  · intro h
    rw [Catalog.target] at h
    split at h
    · cases h
    · rename_i a' ha
      split at h
      · cases h
      · rename_i t' ht
        cases h
        exact ⟨ha, ht⟩
  · intro h'
    obtain ⟨ha, ht⟩ := h'
    simp only [Catalog.target, ha, ht]

end QueryPlan
