import QueryPlan.Descriptor.Basic

namespace QueryPlan

/-- An expression that stands in another one at any depth, or is it. -/
inductive Expr.Occurs (e : Expr) : Expr → Prop where
  | here : Occurs e e
  | argument {function : String} {args : List Expr} {a : Expr} (mem : a ∈ args)
      (inside : Occurs e a) : Occurs e (.call function args)

namespace Expr

variable {e : Expr} {function : String} {args : List Expr}

/-- Induction that takes the arguments of a call together. -/
theorem induction {motive : Expr → Prop} (literal : ∀ v, motive (.literal v))
    (column : ∀ via name, motive (.column via name))
    (call : ∀ function args, (∀ a ∈ args, motive a) → motive (.call function args)) :
    ∀ e, motive e
  | .literal v => literal v
  | .column via name => column via name
  | .call function args => call function args fun a _ => induction literal column call a
termination_by e => sizeOf e
decreasing_by
  rename_i mem
  have := List.sizeOf_lt_of_mem mem
  simp only [Expr.call.sizeOf_spec]
  omega

@[simp]
theorem occurs_literal {v : Json} : e.Occurs (.literal v) ↔ e = .literal v := by
  refine ⟨?_, ?_⟩
  · rintro ⟨⟩
    rfl
  · rintro rfl
    exact .here

@[simp]
theorem occurs_column {via : Option String} {name : String} :
    e.Occurs (.column via name) ↔ e = .column via name := by
  refine ⟨?_, ?_⟩
  · rintro ⟨⟩
    rfl
  · rintro rfl
    exact .here

theorem occurs_call :
    e.Occurs (.call function args) ↔ e = .call function args ∨ ∃ a ∈ args, e.Occurs a := by
  refine ⟨?_, ?_⟩
  · intro h
    cases h with
    | here => exact .inl rfl
    | argument mem inside => exact .inr ⟨_, mem, inside⟩
  · intro h'
    rcases h' with rfl | ⟨a, mem, inside⟩
    · exact .here
    · exact .argument mem inside

theorem column_occurs_call {via : Option String} {name : String} :
    (column via name).Occurs (.call function args) ↔
      ∃ a ∈ args, (column via name).Occurs a := by
  rw [occurs_call, or_iff_right nofun]

end Expr

def ProjectionItem.computed? : ProjectionItem → Option Expr
  | .column _ => none
  | .computed e _ => some e

theorem ProjectionItem.computed?_eq_some {item : ProjectionItem} {e : Expr} :
    item.computed? = some e ↔ ∃ aliasName, item = .computed e aliasName := by
  cases item with
  | column name => simp [computed?]
  | computed e' aliasName => simp [computed?]

def Options.items (o : Options) : List ProjectionItem := (o.attributes.map (·.items)).getD []

/-- The expressions in the projection and among the grouping keys. -/
def Options.expressions (o : Options) : List Expr :=
  o.items.filterMap ProjectionItem.computed? ++ o.group.getD []

theorem Options.mem_expressions {o : Options} {e : Expr} :
    e ∈ o.expressions ↔ (∃ aliasName, .computed e aliasName ∈ o.items) ∨ e ∈ o.group.getD [] := by
  simp only [expressions, List.mem_append, List.mem_filterMap, ProjectionItem.computed?_eq_some]
  refine ⟨?_, ?_⟩
  · intro h'
    rcases h' with ⟨item, mem, aliasName, rfl⟩ | h
    · exact .inl ⟨aliasName, mem⟩
    · exact .inr h
  · intro h'
    rcases h' with ⟨aliasName, mem⟩ | h
    · exact .inl ⟨_, mem, aliasName, rfl⟩
    · exact .inr h

end QueryPlan
