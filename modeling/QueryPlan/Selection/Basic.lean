import QueryPlan.Json.Basic

namespace QueryPlan

/-- A field selected by a request, with its arguments decoded and what the schema declares of it.
A field without a selection set has no `fields`. -/
structure SelectedField where
  name : String
  aliasName : Option String := none
  typeName : String
  isList : Bool
  args : Json.Object := []
  directivesObject : Json.Object := []
  directivesField : Json.Object := []
  fields : Option (List SelectedField) := none

namespace SelectedField

def responseKey (f : SelectedField) : String := f.aliasName.getD f.name

def children (f : SelectedField) : List SelectedField := f.fields.getD []

mutual

/-- Equality, for arguments and directives as JSON objects. -/
def same : SelectedField → SelectedField → Bool
  | ⟨name, aliasName, typeName, isList, args, directivesObject, directivesField, fields⟩, g =>
    name == g.name && aliasName == g.aliasName && typeName == g.typeName && isList == g.isList &&
      args.same g.args && directivesObject.same g.directivesObject &&
      directivesField.same g.directivesField && sameChildren fields g.fields

def sameChildren : Option (List SelectedField) → Option (List SelectedField) → Bool
  | none, none => true
  | some fs, some gs => sameList fs gs
  | _, _ => false

def sameList : List SelectedField → List SelectedField → Bool
  | [], [] => true
  | f :: fs, g :: gs => same f g && sameList fs gs
  | _, _ => false

end

end SelectedField

end QueryPlan
