import QueryPlan.Expr.Basic
import QueryPlan.Source

namespace QueryPlan

open Source

theorem Json.mem_of_lookup_zip {names : List String} {items : List Json} {name : String} {v : Json}
    (h : (names.zip items).lookup name = some v) : v ∈ items := by
  induction items generalizing names with
  | nil => simp at h
  | cons w ws ih =>
    cases names with
    | nil => simp at h
    | cons n ns =>
      rw [List.zip_cons_cons, List.lookup_cons] at h
      split at h
      · cases h
        exact List.mem_cons_self
      · exact List.mem_cons_of_mem _ (ih h)

theorem Json.sizeOf_lt_of_member {names : List String} {j v : Json} {ms : Json.Object}
    {name : String} (hm : Json.members? names j = some ms) (hv : ms.lookup name = some v) :
    sizeOf v < sizeOf j := by
  cases j with
  | obj fields =>
    cases hm
    have := Json.Object.sizeOf_lt_of_get? hv
    simp only [Json.obj.sizeOf_spec]
    omega
  | arr items =>
    rw [Json.members?] at hm
    split at hm
    · cases hm
      have := List.sizeOf_lt_of_mem (Json.mem_of_lookup_zip hv)
      simp only [Json.arr.sizeOf_spec]
      omega
    · cases hm
  | null => cases hm
  | bool b => cases hm
  | num n => cases hm
  | str s => cases hm

namespace Expr

mutual

def toJson : Expr → Json
  | .literal v => .obj [("literal", v)]
  | .column via name =>
    .obj [("col", .ofMembers [("association", via.map .str), ("column", some (.str name))])]
  | .call function args =>
    .obj [("fn", .obj [("name", .str function), ("args", .arr (listToJson args))])]

def listToJson : List Expr → List Json
  | [] => []
  | e :: es => toJson e :: listToJson es

end

/-- An expression is an object with one member, whose name tells the kind. -/
def read? (j : Json) : Option Expr :=
  match _hj : j with
  | .obj [(kind, body)] =>
    if kind = "literal" then some (.literal body)
    else if kind = "col" then do
      let ms ← Json.members? ["association", "column"] body
      return .column (← optional ms "association" text?) (← required ms "column" text?)
    else if kind = "fn" then
      match _hm : Json.members? ["name", "args"] body with
      | none => none
      | some ms =>
        match _ha : ms.lookup "args" with
        | some (.arr args) => do
          let function ← required ms "name" text?
          let args ← args.attach.mapM fun ⟨arg, _⟩ => read? arg
          return .call function args
        | _ => none
    else none
  | _ => none
termination_by sizeOf j
decreasing_by
  have := Json.sizeOf_lt_of_member _hm _ha
  have := List.sizeOf_lt_of_mem ‹arg ∈ args›
  subst _hj
  simp only [Json.arr.sizeOf_spec, Json.obj.sizeOf_spec, List.cons.sizeOf_spec,
    Prod.mk.sizeOf_spec] at *
  omega

end Expr

namespace ProjectionItem

def toJson : ProjectionItem → Json
  | .column name => .str name
  | .computed expr aliasName => .arr [expr.toJson, .str aliasName]

def read? : Json → Option ProjectionItem
  | .str name => some (.column name)
  | .arr [expr, .str aliasName] => (Expr.read? expr).map (.computed · aliasName)
  | _ => none

end ProjectionItem

namespace Projection

/-- A list that is empty is left out of an object. -/
def nonEmpty? (items : List Json) : Option Json :=
  if items.isEmpty then none else some (.arr items)

def toJson : Projection → Json
  | .columns items => .arr (items.map ProjectionItem.toJson)
  | .filtered added omitted =>
    .ofMembers [("include", nonEmpty? (added.map ProjectionItem.toJson)),
      ("exclude", nonEmpty? (omitted.map .str))]

def read? : Json → Option Projection
  | .arr items => (items.mapM ProjectionItem.read?).map .columns
  | .obj fields => do
    return .filtered (← withDefault fields "include" [] (list? ProjectionItem.read?))
      (← withDefault fields "exclude" [] (list? text?))
  | _ => none

end Projection

end QueryPlan
