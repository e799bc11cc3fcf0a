import QueryPlan.Expr.Record
import QueryPlan.Selection.Basic

namespace QueryPlan.SelectedField

open Source

mutual

def toJson : SelectedField → Json
  | ⟨name, aliasName, typeName, isList, args, directivesObject, directivesField, fields⟩ =>
    .ofMembers [("name", some (.str name)), ("alias", aliasName.map .str),
      ("type", some (.str typeName)), ("isList", some (.bool isList)), ("args", some (.obj args)),
      ("directivesObject", some (.obj directivesObject)),
      ("directivesField", some (.obj directivesField)), ("fields", childrenToJson fields)]

def childrenToJson : Option (List SelectedField) → Option Json
  | none => none
  | some fs => some (.arr (listToJson fs))

def listToJson : List SelectedField → List Json
  | [] => []
  | f :: fs => toJson f :: listToJson fs

end

def memberNames : List String :=
  ["name", "alias", "type", "isList", "args", "directivesObject", "directivesField", "fields"]

def read? (j : Json) : Option SelectedField :=
  match _hm : Json.members? memberNames j with
  | none => none
  | some ms => do
    let name ← required ms "name" text?
    let aliasName ← optional ms "alias" text?
    let typeName ← required ms "type" text?
    let isList ← required ms "isList" flag?
    let args ← withDefault ms "args" [] Json.ofObject?
    let directivesObject ← withDefault ms "directivesObject" [] Json.ofObject?
    let directivesField ← withDefault ms "directivesField" [] Json.ofObject?
    let fields ← match _hf : ms.lookup "fields" with
      | none | some .null => some none
      | some (.arr items) => do
        let nodes ← items.attach.mapM fun ⟨item, _⟩ => read? item
        pure (some nodes)
      | some _ => none
    return ⟨name, aliasName, typeName, isList, args, directivesObject, directivesField, fields⟩
termination_by sizeOf j
decreasing_by
  have := Json.sizeOf_lt_of_member _hm _hf
  have := List.sizeOf_lt_of_mem ‹item ∈ items›
  simp only [Json.arr.sizeOf_spec] at *
  omega

end QueryPlan.SelectedField
