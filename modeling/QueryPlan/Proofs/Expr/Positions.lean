import QueryPlan.Expr.Resolve
import QueryPlan.Proofs.Expr.Occurrence

namespace QueryPlan

/-- The arguments of a value that is a call, which gives none, a list of them, or a single one. -/
def Json.callArguments : Json → List Json
  | .obj call =>
    match Object.get? call "args" with
    | none => []
    | some .null => []
    | some (.arr items) => items
    | some single => [single]
  | _ => []

theorem Json.callArguments_obj (call : Json.Object) :
    (Json.obj call).callArguments = Scope.argumentList (call.get? "args") := by
  rw [callArguments]
  cases call.get? "args" with
  | none => rfl
  | some given => cases given <;> rfl

theorem Json.callArguments_of_ne_obj {v : Json} (noCall : ∀ call, v ≠ .obj call) :
    v.callArguments = [] := by
  cases v with
  | obj call => cases noCall call rfl
  | _ => rfl

/-- The value that a path leads to, each index of which chooses an argument of a call. -/
def Json.valueAt (v : Json) : List Nat → Option Json
  | [] => some v
  | i :: path => v.callArguments[i]?.bind (valueAt · path)

def Expr.arguments : Expr → List Expr
  | .call _ args => args
  | _ => []

/-- The part of an expression that a path leads to. -/
def Expr.partAt (e : Expr) : List Nat → Option Expr
  | [] => some e
  | i :: path => e.arguments[i]?.bind (partAt · path)

/-- Where names are looked up: at the root of an expression, and in the first argument of a call. -/
def IsColumnPlace (path : List Nat) : Prop := path = [] ∨ ∃ call, path = call ++ [0]

theorem isColumnPlace_nil : IsColumnPlace [] := .inl rfl

theorem isColumnPlace_concat {call : List Nat} {i : Nat} :
    IsColumnPlace (call ++ [i]) ↔ i = 0 := by
  constructor
  · rintro (h | ⟨call', h⟩)
    · cases List.append_ne_nil_of_right_ne_nil call (List.cons_ne_nil i []) h
    · exact List.singleton_inj.1 (List.append_inj' h rfl).2
  · rintro rfl
    exact .inr ⟨call, rfl⟩

namespace Expr

variable {e part : Expr}

theorem induction_arguments {motive : Expr → Prop}
    (step : ∀ e, (∀ a ∈ e.arguments, motive a) → motive e) (e : Expr) : motive e := by
  induction e using Expr.induction with
  | literal v => exact step _ nofun
  | column via name => exact step _ nofun
  | call function args ih => exact step _ ih

/-- The parts that paths lead to are all the parts of an expression. -/
theorem occurs_iff_partAt : part.Occurs e ↔ ∃ path, e.partAt path = some part := by
  constructor
  · intro occurs
    induction occurs with
    | here => exact ⟨[], rfl⟩
    | argument mem _ ih =>
      obtain ⟨path, h⟩ := ih
      obtain ⟨i, hi⟩ := List.getElem?_of_mem mem
      exact ⟨i :: path, by rw [partAt, arguments, hi, Option.bind_some, h]⟩
  · rintro ⟨path, h⟩
    induction path generalizing e with
    | nil =>
      cases h
      exact .here
    | cons i path ih =>
      obtain ⟨a, ha, h'⟩ := Option.bind_eq_some_iff.1 h
      have mem := List.mem_of_getElem? ha
      cases e with
      | literal v => cases mem
      | column via name => cases mem
      | call function args => exact .argument mem (ih h')

end Expr

end QueryPlan
