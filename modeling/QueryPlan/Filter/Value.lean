import QueryPlan.CompileError
import QueryPlan.Descriptor.Basic
import QueryPlan.Json.Printer
import QueryPlan.Text.Blank
import QueryPlan.Text.Integer

namespace QueryPlan

/-- A natural number of at most 64 bits, as a number or as a text in decimal. A binary64 number
above the last one is taken for the last one. -/
def pageOfArgument (argument : String) : Json → Except CompileError UInt64
  | .num n =>
    let natural : Option Nat := match n with
      | .int n _ => if 0 ≤ n then some n.toNat else none
      | .float x =>
        match x.toNat? with
        | some n => if n ≤ UInt64.size then some (min n (UInt64.size - 1)) else none
        | none => none
    match natural with
    | some n => .ok (UInt64.ofNat n)
    | none => .error (.malformedArgument argument s!"expected a non-negative integer, got {n.text}")
  | .str s =>
    match Text.unsigned? (Text.trim s) with
    | .ok n => .ok n
    | .error e => .error (.malformedArgument argument
        s!"`{s}` is not a non-negative integer: {e.message}")
  | v => .error (.malformedArgument argument s!"expected a non-negative integer, got {v.compact}")

def flagOfArgument (argument : String) : Json → Except CompileError Bool
  | .bool b => .ok b
  | v => .error (.malformedArgument argument s!"expected a boolean, got {v.compact}")

/-- One scope or a list of scopes. -/
def scopeOfArgument : Json → Except CompileError (List String)
  | .str name => .ok [name]
  | .arr items => items.mapM fun item =>
    match item.ofString? with
    | some name => .ok name
    | none => .error (.malformedArgument "scope" "scope names must be strings")
  | v => .error (.malformedArgument "scope" s!"expected a scope name or a list, got {v.compact}")

namespace OrderItem

/-- Ascending unless told otherwise. -/
def directionOfArgument : Option Json → Except CompileError SortDirection
  | none | some .null => .ok .ascending
  | some (.str s) =>
    match SortDirection.parse? s with
    | some d => .ok d
    | none => .error (.malformedArgument "order" s!"unknown sort direction `{s}`")
  | some v => .error (.malformedArgument "order" s!"unknown sort direction {v.compact}")

def ofParts (name sort : Option Json) : Except CompileError OrderItem :=
  match name >>= Json.ofString? with
  | none => .error (.malformedArgument "order" "order entry needs a field name")
  | some name => (directionOfArgument sort).map (⟨name, ·⟩)

/-- A name, a pair of a name and a direction, or an object that holds them. -/
def ofArgument : Json → Except CompileError OrderItem
  | .str name => .ok ⟨name, .ascending⟩
  | .arr [name] => ofParts (some name) none
  | .arr [name, sort] => ofParts (some name) (some sort)
  | .obj fields => ofParts (Json.Object.get? fields "name") (Json.Object.get? fields "sort")
  | v => .error (.malformedArgument "order" s!"unsupported order entry {v.compact}")

end OrderItem

/-- One entry, or a list of entries. -/
def orderOfArgument : Json → Except CompileError (List OrderItem)
  | .arr items => items.mapM OrderItem.ofArgument
  | v => (OrderItem.ofArgument v).map ([·])

end QueryPlan
