import QueryPlan.Filter.Operator
import QueryPlan.Filter.Projection
import QueryPlan.Filter.Value

namespace QueryPlan

/-- What one argument of a request asks for. -/
inductive Setting where
  | limit (n : UInt64)
  | offset (n : UInt64)
  | filter (tree : Json)
  | having (predicate : Json.Object)
  | order (items : List OrderItem)
  | group (keys : List Expr)
  | attributes (p : Projection)
  | required (b : Bool)
  | right (b : Bool)
  | separate (b : Bool)
  | subQuery (b : Bool)
  | scope (names : List String)
  | equals (field : String) (value : Json)
  | nothing

namespace Setting

/-- An argument by the name of an option sets it, one by the name of a field is a condition on it,
and any other asks for nothing. A null asks for nothing but on a known field. -/
def ofArgument (known : List String) (key : String) (value : Json) :
    Except CompileError Setting :=
  if value.isNull ∧ key ∉ known then .ok .nothing
  else match key with
    | "limit" => (pageOfArgument key value).map .limit
    | "offset" => (pageOfArgument key value).map .offset
    | "where" =>
      match value with
      | .obj _ => .ok (.filter value)
      | v => .error (.malformedArgument key s!"expected an object, got {v.compact}")
    | "having" => .ok (.having (Operator.predicate (some value)))
    | "order" => (orderOfArgument value).map .order
    | "group" | "groupBy" =>
      match groupOfArgument? value with
      | some keys => .ok (.group keys)
      | none => .error (.malformedArgument key "expected a column name or a list")
    | "attributes" =>
      match Projection.ofArgument? value with
      | some p => .ok (if p.isEmpty then .nothing else .attributes p)
      | none => .ok .nothing
    | "required" => (flagOfArgument key value).map .required
    | "right" => (flagOfArgument key value).map .right
    | "separate" => (flagOfArgument key value).map .separate
    | "subQuery" => (flagOfArgument key value).map .subQuery
    | "scope" => (scopeOfArgument value).map .scope
    | field => .ok (if field ∈ known then .equals field value else .nothing)

/-- The condition that an argument by the name of a field makes. -/
def condition? : Setting → Option (String × Json)
  | .equals field value => some (field, value)
  | _ => none

def filter? : Setting → Option Json
  | .filter tree => some tree
  | _ => none

end Setting

namespace Options

/-- The predicate with the entries of another whose keys it does not hold yet. -/
def mergePredicate (base : Option Json.Object) (more : Json.Object) : Json.Object :=
  match base with
  | none => more
  | some base =>
    more.foldl (fun p e => if p.contains e.1 then p else p ++ [e]) base

def apply (o : Options) : Setting → Options
  | .limit n => { o with limit := some n }
  | .offset n => { o with offset := some n }
  | .having p => { o with having := some (mergePredicate o.having p) }
  | .order items => { o with order := some items }
  | .group keys => { o with group := some keys }
  | .attributes p => { o with attributes := some p }
  | .required b => { o with required := some b }
  | .right b => { o with right := some b }
  | .separate b => { o with separate := some b }
  | .subQuery b => { o with subQuery := some b }
  | .scope names => { o with scope := some names }
  | .filter _ | .equals _ _ | .nothing => o

/-- The conditions on fields, taken as they are, and over them those of the explicit filter. -/
def conditions (settings : List Setting) : Json.Object :=
  (Json.Object.ofList (settings.filterMap Setting.condition?)).extend
    (Operator.predicate (settings.findSome? Setting.filter?))

/-- The options with the arguments of a request on top. Conditions that are already there stay. -/
def withArguments (base : Options) (known : List String) (args : Json.Object) :
    Except CompileError Options := do
  let settings ← args.mapM fun arg => Setting.ofArgument known arg.1 arg.2
  let options := settings.foldl apply base
  let conditions := conditions settings
  if conditions.isEmpty then return options
  else return { options with filter := some (mergePredicate options.filter conditions) }

def ofArguments (known : List String) (args : Json.Object) : Except CompileError Options :=
  withArguments {} known args

end Options

end QueryPlan
