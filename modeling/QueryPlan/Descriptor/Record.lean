import QueryPlan.Descriptor.Basic
import QueryPlan.Expr.Record

namespace QueryPlan

open Source

namespace OrderItem

def toJson (o : OrderItem) : Json := .arr [.str o.name, .str o.direction.name]

def read? : Json → Option OrderItem
  | .arr [.str name, direction] =>
    (tag? direction >>= SortDirection.ofName?).map (⟨name, ·⟩)
  | _ => none

end OrderItem

namespace Options

/-- The members of the written form, `none` where an option is absent. -/
def members (o : Options) : List (String × Option Json) :=
  [("attributes", o.attributes.map Projection.toJson), ("where", o.filter.map .obj),
    ("having", o.having.map .obj), ("group", o.group.map fun g => .arr (Expr.listToJson g)),
    ("order", o.order.map fun items => .arr (items.map OrderItem.toJson)),
    ("limit", o.limit.map .ofNat), ("offset", o.offset.map .ofNat),
    ("required", o.required.map .bool), ("right", o.right.map .bool),
    ("separate", o.separate.map .bool), ("subQuery", o.subQuery.map .bool),
    ("scope", o.scope.map fun names => .arr (names.map .str))]

def read? (ms : Json.Object) : Option Options := do
  return {
    attributes := ← optional ms "attributes" Projection.read?
    filter := ← optional ms "where" Json.ofObject?
    having := ← optional ms "having" Json.ofObject?
    group := ← optional ms "group" (list? Expr.read?)
    order := ← optional ms "order" (list? OrderItem.read?)
    limit := ← optional ms "limit" natural?
    offset := ← optional ms "offset" natural?
    required := ← optional ms "required" flag?
    right := ← optional ms "right" flag?
    separate := ← optional ms "separate" flag?
    subQuery := ← optional ms "subQuery" flag?
    scope := ← optional ms "scope" (list? text?) }

end Options

namespace Join

mutual

/-- The options and joins of a joined level stand beside its model and alias. -/
def toJson : Join → Json
  | ⟨model, aliasName, options, joins⟩ =>
    .ofMembers ([("model", some (.str model)), ("as", some (.str aliasName))] ++ options.members ++
      [("include", Projection.nonEmpty? (listToJson joins))])

def listToJson : List Join → List Json
  | [] => []
  | j :: js => toJson j :: listToJson js

end

def read? (j : Json) : Option Join :=
  match _hj : j with
  | .obj ms => do
    let model ← required ms "model" text?
    let aliasName ← required ms "as" text?
    let options ← Options.read? ms
    match _hi : ms.lookup "include" with
    | none => some ⟨model, aliasName, options, []⟩
    | some (.arr joins) => do
      let joins ← joins.attach.mapM fun ⟨join, _⟩ => read? join
      return ⟨model, aliasName, options, joins⟩
    | some _ => none
  | _ => none
termination_by sizeOf j
decreasing_by
  have := Json.Object.sizeOf_lt_of_get? _hi
  have := List.sizeOf_lt_of_mem ‹join ∈ joins›
  subst _hj
  simp only [Json.arr.sizeOf_spec, Json.obj.sizeOf_spec] at *
  omega

end Join

namespace Descriptor

def toJson (d : Descriptor) : Json :=
  .ofMembers (d.options.members ++ [("include", Projection.nonEmpty? (Join.listToJson d.joins))])

def read? (j : Json) : Option Descriptor := do
  let ms ← Json.members? ["attributes", "where", "having", "group", "order", "limit", "offset",
    "required", "right", "separate", "subQuery", "scope", "include"] j
  return ⟨← Options.read? ms, ← withDefault ms "include" [] (list? Join.read?)⟩

end Descriptor

end QueryPlan
