import QueryPlan.Plan.Level
import QueryPlan.Proofs.Expr.Compiled

namespace QueryPlan

namespace Scope

variable {s : Scope} {e : CompiledExpr}

/-- What an expression of a level is built from; a name that is no column may be left as it is. -/
inductive Resolved (s : Scope) : CompiledExpr → Prop where
  | literal (v : Json) : Resolved s ⟨.literal v, {}⟩
  | column {name : String} {e : CompiledExpr} (h : s.Denotes name e) : Resolved s e
  | unknown (name : String) : Resolved s ⟨.column none name, {}⟩
  | call (function : String) {args : List CompiledExpr} (h : ∀ a ∈ args, Resolved s a) :
      Resolved s ⟨.call function (args.map (·.expr)), args.foldr (·.reads ++ ·) {}⟩

theorem Compiled.resolved (h : s.Compiled e) : s.Resolved e := by
  induction h with
  | literal v => exact .literal v
  | column h => exact .column h
  | call accepted _ ih => exact .call _ ih

theorem mem_associations_call {args : List CompiledExpr} {association : String} :
    association ∈ (args.foldr (·.reads ++ ·) ({} : Reads)).associations ↔
      ∃ a ∈ args, association ∈ a.reads.associations := by
  simp [Reads.associations_foldr]

theorem mem_fields_call {args : List CompiledExpr} {field : String} :
    field ∈ (args.foldr (·.reads ++ ·) ({} : Reads)).fields ↔ ∃ a ∈ args, field ∈ a.reads.fields := by
  simp [Reads.fields_foldr]

theorem occurs_of_mem_args {args : List CompiledExpr} {part : Expr} {a : Expr}
    (ha : a ∈ args.map (·.expr)) (ho : part.Occurs a) : ∃ c ∈ args, part.Occurs c.expr := by
  obtain ⟨c, hc, rfl⟩ := List.mem_map.1 ha
  exact ⟨c, hc, ho⟩

/-- A column that is read through an association is one of its target, and is reported. -/
theorem Resolved.qualified (h : s.Resolved e) {association column : String}
    (ho : Expr.Occurs (.column (some association) column) e.expr) :
    association ∈ e.reads.associations ∧
      ∃ a t f, s.model.association? association = some a ∧
        s.catalog.model? a.target = some t ∧ f ∈ t.fields ∧ f.storageName = column := by
  induction h with
  | literal => cases Expr.occurs_literal.1 ho
  | column h =>
    cases h with
    | own => cases Expr.occurs_column.1 ho
    | through dotted declared target field =>
      cases Expr.occurs_column.1 ho
      have hname := (Model.association?_some declared).2
      refine ⟨List.mem_singleton_self _, _, _, _, ?_, target, (Model.field?_some field).1, rfl⟩
      rw [hname, declared]
  | unknown => cases Expr.occurs_column.1 ho
  | call function _ ih =>
    obtain ⟨a, ha, ho⟩ := Expr.column_occurs_call.1 ho
    obtain ⟨c, hc, ho⟩ := occurs_of_mem_args ha ho
    obtain ⟨hreads, hcolumn⟩ := ih c hc ho
    exact ⟨mem_associations_call.2 ⟨c, hc, hreads⟩, hcolumn⟩

theorem Resolved.mem_associations (h : s.Resolved e) {association : String}
    (ha : association ∈ e.reads.associations) :
    ∃ column, Expr.Occurs (.column (some association) column) e.expr := by
  induction h with
  | literal => cases ha
  | column h =>
    cases h with
    | own => cases ha
    | through =>
      rw [List.mem_singleton.1 ha]
      exact ⟨_, .here⟩
  | unknown => cases ha
  | call function _ ih =>
    obtain ⟨c, hc, ha⟩ := mem_associations_call.1 ha
    obtain ⟨column, ho⟩ := ih c hc ha
    exact ⟨column, .argument (List.mem_map_of_mem hc) ho⟩

theorem Compiled.unqualified (h : s.Compiled e) {column : String}
    (ho : Expr.Occurs (.column none column) e.expr) :
    ∃ f ∈ s.model.fields, f.storageName = column := by
  induction h with
  | literal => cases Expr.occurs_literal.1 ho
  | column h =>
    cases h with
    | own undotted field =>
      cases Expr.occurs_column.1 ho
      exact ⟨_, (Model.field?_some field).1, rfl⟩
    | through => cases Expr.occurs_column.1 ho
  | call accepted _ ih =>
    obtain ⟨a, ha, ho⟩ := Expr.column_occurs_call.1 ho
    obtain ⟨c, hc, ho⟩ := occurs_of_mem_args ha ho
    exact ih c hc ho

theorem Compiled.call_accepted (h : s.Compiled e) {function : String} {args : List Expr}
    (ho : Expr.Occurs (.call function args) e.expr) : isFunctionName function := by
  induction h with
  | literal => cases Expr.occurs_literal.1 ho
  | column h =>
    cases h with
    | own => cases Expr.occurs_column.1 ho
    | through => cases Expr.occurs_column.1 ho
  | call accepted _ ih =>
    rcases Expr.occurs_call.1 ho with he | ⟨a, ha, ho⟩
    · cases he
      exact accepted
    · obtain ⟨c, hc, ho⟩ := occurs_of_mem_args ha ho
      exact ih c hc ho

end Scope

end QueryPlan
