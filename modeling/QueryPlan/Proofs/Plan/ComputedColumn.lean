import QueryPlan.Plan.Level
import QueryPlan.Proofs.Traversal

namespace QueryPlan

namespace SelectedField

variable {f : SelectedField} {key function : String}

theorem stringArgument_eq_ok :
    f.stringArgument key = .ok function ↔ f.args.get? key = some (.str function) := by
  rw [stringArgument]
  split
  · rename_i name hname
    simp [hname]
  · rename_i hother
    simp only [reduceCtorEq, false_iff]
    exact hother function

/-- The call of a function that an `_aggregation` field asks for. -/
def call (f : SelectedField) (function : String) : Json.Object :=
  ("fn", .str function) :: (f.args.get? "args").toList.map fun v => ("args", v)

theorem get?_call :
    (f.call function).get? key =
      if "fn" = key then some (.str function)
      else if "args" = key then f.args.get? "args" else none := by
  rw [call, Json.Object.get?_cons]
  split
  · rfl
  · cases f.args.get? "args" with
    | none =>
      rw [ite_self]
      rfl
    | some v =>
      rw [Option.toList_some, List.map_singleton, Json.Object.get?_cons]
      rfl

end SelectedField

namespace Scope

variable {s : Scope} {settings : Settings} {f : SelectedField} {c : ComputedColumn}

theorem aggregateColumn_eq_ok :
    s.aggregateColumn settings f = .ok c ↔ ∃ function, f.stringArgument "fn" = .ok function ∧
      ∃ aliasName, f.stringArgument? "as" = .ok aliasName ∧
        ∃ e, s.compile settings .lenient (.obj (f.call function)) = .ok e ∧
          ⟨.computed e.expr (aliasName.getD (defaultAlias function)), e.reads⟩ = c := by
  simp only [aggregateColumn, bind_eq_ok, pure_eq_ok, SelectedField.call]

theorem relatedColumn_eq_ok :
    s.relatedColumn settings f = .ok c ↔ ∃ name, f.stringArgument "name" = .ok name ∧
      ∃ aliasName, f.stringArgument? "as" = .ok aliasName ∧
        ∃ e, s.compile settings .strict (.str name) = .ok e ∧
          ⟨.computed e.expr (aliasName.getD (defaultAlias name)), e.reads⟩ = c := by
  simp only [relatedColumn, bind_eq_ok, pure_eq_ok]

end Scope

end QueryPlan
